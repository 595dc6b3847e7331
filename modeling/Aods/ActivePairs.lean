-- The maps of the activation module hold their requests in pairs: a uuid has a
-- channel, and a channel has a uuid. A pair is taken out by both of its keys at
-- once, so the maps stay fit for their iterators as long as no pair shares a key.
import Aods.AodcActive
import Aods.DeployCtrl

open machine runs std_map
open util.helper util.json msg_def
open py.deploy_ctrl aodc.active_module

namespace aodc.active_pairs

variable {inet : Inet}

/-- Every iterator that a handler goes on to use is valid: what one map names is a key of
the other. -/
structure Safe (s : State) : Prop where
  pending : ∀ {u ai}, s.map_uai.lookup u = some ai →
    ∃ u', s.map_cu.lookup ai.str_channel_name = some u'
  held : ∀ {c u}, s.map_cu.lookup c = some u → ∃ ai, s.map_uai.lookup u = some ai

/-- No other pair has this channel or this uuid. -/
def Alone (s : State) (c u : Bytes) : Prop :=
  (∀ u' ai, s.map_uai.lookup u' = some ai → ai.str_channel_name = c → u' = u) ∧
    ∀ c', s.map_cu.lookup c' = some u → c' = c

/-- What an event takes out of the maps is one pair. -/
def OnePair (_ : List (Event × List Out)) (s : State) (e : Event) : Prop :=
  ∀ c u, forgetting s e = some (c, u) → Alone s c u

/-! ## The maps after a change -/

theorem Safe.empty : Safe State.empty where
  pending h := by simp [State.empty] at h
  held h := by simp [State.empty] at h

theorem Safe.ask {s : State} (h : Safe s) (c u code : Bytes) : Safe (s.ask c u code) where
  pending {u' ai} hu := by
    rcases find_insert_some.mp hu with ⟨_, rfl⟩ | ⟨_, hu⟩
    · exact ⟨u, find_insert_some.mpr (Or.inl ⟨rfl, rfl⟩)⟩
    · obtain ⟨v, hv⟩ := h.pending hu
      by_cases hc : ai.str_channel_name = c
      · exact ⟨u, find_insert_some.mpr (Or.inl ⟨hc, rfl⟩)⟩
      · exact ⟨v, find_insert_some.mpr (Or.inr ⟨hc, hv⟩)⟩
  held {c' u'} hc := by
    rcases find_insert_some.mp hc with ⟨_, rfl⟩ | ⟨_, hc⟩
    · exact ⟨_, find_insert_some.mpr (Or.inl ⟨rfl, rfl⟩)⟩
    · obtain ⟨ai, hai⟩ := h.held hc
      by_cases hu : u' = u
      · exact ⟨_, find_insert_some.mpr (Or.inl ⟨hu, rfl⟩)⟩
      · exact ⟨ai, find_insert_some.mpr (Or.inr ⟨hu, hai⟩)⟩

/-- To take out a pair keeps the maps safe just when no other pair shares a key with it. -/
theorem safe_forget_iff {s : State} (h : Safe s) (c u : Bytes) :
    Safe (s.forget c u) ↔ Alone s c u := by
  constructor
  · intro hs
    constructor
    · intro u' ai hu hc
      by_contra hne
      obtain ⟨v, hv⟩ := hs.pending (find_erase_some.mpr ⟨hne, hu⟩)
      exact (find_erase_some.mp hv).1 hc
    · intro c' hc
      by_contra hne
      obtain ⟨ai, hai⟩ := hs.held (find_erase_some.mpr ⟨hne, hc⟩)
      exact (find_erase_some.mp hai).1 rfl
  · rintro ⟨huuids, hchannels⟩
    refine ⟨fun {u' ai} hu => ?_, fun {c' u'} hc => ?_⟩
    · obtain ⟨hne, hu⟩ := find_erase_some.mp hu
      obtain ⟨v, hv⟩ := h.pending hu
      exact ⟨v, find_erase_some.mpr ⟨fun hc => hne (huuids u' ai hu hc), hv⟩⟩
    · obtain ⟨hne, hcu⟩ := find_erase_some.mp hc
      obtain ⟨ai, hai⟩ := h.held hcu
      refine ⟨ai, find_erase_some.mpr ⟨fun hu => ?_, hai⟩⟩
      rw [hu] at hcu
      exact hne (hchannels c' hcu)

theorem Safe.congr {s s' : State} (h : Safe s) (huai : s'.map_uai = s.map_uai)
    (hcu : s'.map_cu = s.map_cu) : Safe s' where
  pending hu := by
    rw [huai] at hu
    rw [hcu]
    exact h.pending hu
  held hc := by
    rw [hcu] at hc
    rw [huai]
    exact h.held hc

/-! ## Steps and runs -/

theorem Safe.forgetting {s : State} (h : Safe s) {e : Event} {c u : Bytes}
    (hf : forgetting s e = some (c, u)) :
    (∃ ai, s.map_uai.lookup u = some ai) ∧ ∃ u', s.map_cu.lookup c = some u' := by
  cases e with
  | freed data =>
    obtain ⟨_, hc⟩ := forgetting_freed hf
    exact ⟨h.held hc, u, hc⟩
  | rcvfkafka doc =>
    obtain ⟨_, _, ai, _, _, _, hai, rfl⟩ := forgetting_kafka hf
    exact ⟨⟨ai, hai⟩, h.pending hai⟩
  | _ => cases hf

theorem Safe.no_bad_iterator {s : State} (h : Safe s) (e : Event) :
    handle inet s e ≠ .error .bad_iterator := by
  have hfault : (∃ f, handle inet s e = .error f ∧ f ≠ .bad_iterator) →
      handle inet s e ≠ .error .bad_iterator := by
    rintro ⟨f, hs, hf⟩ he
    rw [hs] at he
    cases he
    exact hf rfl
  cases hforget : active_module.forgetting s e with
  | none =>
    rcases handle_keep inet hforget with ⟨s', os, hs, _⟩ | hs
    · rw [hs]
      exact fun he => by cases he
    · exact hfault hs
  | some pair =>
    obtain ⟨⟨ai, hu⟩, u', hc⟩ := h.forgetting hforget
    rcases handle_forget inet hforget hu hc with ⟨os, hs⟩ | hs
    · rw [hs]
      exact fun he => by cases he
    · exact hfault hs

/-- A step from a safe state leads to a safe state just when it takes out one pair. -/
theorem safe_step_iff {s s' : State} {e : Event} {os : List Out} (h : Safe s)
    (hs : handle inet s e = .ok (s', os)) (es : List (Event × List Out)) :
    Safe s' ↔ OnePair es s e := by
  cases hforget : active_module.forgetting s e with
  | none =>
    have hone : OnePair es s e := by
      intro c u hf
      rw [hforget] at hf
      cases hf
    refine ⟨fun _ => hone, fun _ => ?_⟩
    rcases handle_keep inet hforget with ⟨s₁, os₁, hs₁, hkeep⟩ | ⟨f, hs₁, _⟩
    · rw [hs] at hs₁
      cases hs₁
      rcases hkeep with ⟨huai, hcu⟩ | ⟨c, u, code, rfl⟩
      · exact h.congr huai hcu
      · exact h.ask c u code
    · rw [hs] at hs₁
      cases hs₁
  | some pair =>
    obtain ⟨c, u⟩ := pair
    obtain ⟨⟨ai, hu⟩, u', hc⟩ := h.forgetting hforget
    have hone : OnePair es s e ↔ Alone s c u := by
      refine ⟨fun ho => ho c u hforget, fun ha c' u' hf => ?_⟩
      rw [hforget] at hf
      cases hf
      exact ha
    rw [hone]
    rcases handle_forget inet hforget hu hc with ⟨os₁, hs₁⟩ | ⟨f, hs₁, _⟩
    · rw [hs] at hs₁
      cases hs₁
      exact safe_forget_iff h c u
    · rw [hs] at hs₁
      cases hs₁

theorem Safe.run {s : State} {es : List (Event × List Out)}
    (h : Run (handle inet) OnePair State.empty es s) : Safe s := by
  apply h.invariant (I := fun _ s => Safe s) Safe.empty
  intro es s e s' os hsafe hone hs
  exact (safe_step_iff hsafe hs es).mpr hone

/-! ## A client that asks twice -/

def client : Bytes := text "AodsServer1"

def peer : Bytes := text "1.1.1.1:5"

/-- The addresses of the one client. -/
def oneInet : Inet := ⟨fun _ => 16843009, fun _ => text "1.1.1.1"⟩

def request : AodsAodcActive :=
  ⟨0, 1, List.replicate 64 1, List.replicate 6 0, List.replicate 14 9⟩

/-- The resource id and the serial of the request. -/
def code : Bytes := List.replicate 6 0 ++ List.replicate 14 9

def firstUuid : Bytes := getUuid (List.replicate 16 1)

def secondUuid : Bytes := getUuid (List.replicate 16 2)

/-- The state with the client's channel built. -/
def built : State := { State.empty with map_ca := State.empty.map_ca.insert client peer }

def asking (rand : UInt8) : Event := actvEvent client request [] (List.replicate 16 rand)

def answering (uuid : Bytes) : Event :=
  .rcvfkafka (some (activeAck (.string uuid) (getHexString (List.replicate 6 1))))

theorem zero_notMem_client : 0 ∉ client := by decide

theorem isAods_client : isAods client = true := by decide

theorem zero_notMem_firstUuid : 0 ∉ firstUuid := zero_notMem_getUuid _

theorem zero_notMem_secondUuid : 0 ∉ secondUuid := zero_notMem_getUuid _

theorem uuids_ne : secondUuid ≠ firstUuid := by decide

theorem handle_built : handle oneInet State.empty (buildedEvent client (text "1.1.1.2:6") peer) =
    .ok (built, []) := by
  have hlocal : 0 ∉ text "1.1.1.2:6" := by decide
  have hpeer : 0 ∉ peer := by decide
  have hbuilt := onChannelBuilded_names zero_notMem_client isAods_client hlocal hpeer State.empty
  simp only [handle, buildedEvent, hbuilt]
  rfl

theorem handle_asking {s : State} (hca : s.map_ca.lookup client = some peer) (rand : UInt8) :
    ∃ os, handle oneInet s (asking rand) =
      .ok (s.ask client (getUuid (List.replicate 16 rand)) code,
        os) := by
  have hip : peerIp oneInet peer = .ok 16843009 := by
    have hshort : ¬ peer.length ≥ 256 := by decide
    have hcolon : ¬ 58 ∉ peer := by decide
    rw [peerIp, if_neg hshort, if_neg hcolon]
    rfl
  exact ⟨_, handle_actv oneInet zero_notMem_client isAods_client ⟨rfl, rfl, rfl⟩ hca hip
    (by decide) [] _⟩

theorem built_peer : built.map_ca.lookup client = some peer := by
  unfold built
  rw [find_insert, if_pos rfl]

theorem run_asking : ∃ es, Run (handle oneInet) OnePair State.empty es
    (built.ask client firstUuid code) := by
  obtain ⟨os, hs⟩ := handle_asking built_peer 1
  refine ⟨_, .next (.next .start ?_ handle_built) ?_ hs⟩
  · intro c u hf
    cases hf
  · intro c u hf
    cases hf

/-! ## The laws -/

/-- While an event takes out no more than one pair of keys, every iterator is valid. The
first event that takes out a key of another pair ends that. -/
theorem iterators_are_valid_while_each_event_takes_out_one_pair {s : State}
    {es : List (Event × List Out)} (h : Run (handle inet) OnePair State.empty es s) :
    Safe s ∧ (∀ e, handle inet s e ≠ .error .bad_iterator) ∧
      ∀ e s' os, handle inet s e = .ok (s', os) → (Safe s' ↔ OnePair es s e) :=
  ⟨.run h, (Safe.run h).no_bad_iterator, fun _ _ _ hs => safe_step_iff (.run h) hs es⟩

theorem no_iterator_is_bad_after_one_request : Safe (built.ask client firstUuid code) ∧
    ∀ e, handle oneInet (built.ask client firstUuid code) e ≠ .error .bad_iterator := by
  obtain ⟨es, hrun⟩ := run_asking
  obtain ⟨hsafe, hgood, _⟩ := iterators_are_valid_while_each_event_takes_out_one_pair hrun
  exact ⟨hsafe, hgood⟩

/-- A client asks twice before the first answer: the first answer takes its channel out of
the maps, and the second reads the end of a map. -/
theorem the_second_answer_to_one_channel_reads_the_end_of_a_map : ∃ s es,
    Run (handle oneInet) Any State.empty es s ∧
    s.map_uai.lookup secondUuid = some ⟨client, code⟩ ∧
    s.map_cu.lookup client = none ∧
    handle oneInet s (answering secondUuid) = .error .bad_iterator := by
  obtain ⟨es, hrun⟩ := run_asking
  have hca : (built.ask client firstUuid code).map_ca.lookup client = some peer := built_peer
  obtain ⟨os, hagain⟩ := handle_asking hca 2
  have hfirst : ((built.ask client firstUuid code).ask client secondUuid code).map_uai.lookup
      firstUuid =
      some ⟨client, code⟩ :=
    find_insert_some.mpr (Or.inr ⟨uuids_ne.symm, find_insert_some.mpr (Or.inl ⟨rfl, rfl⟩)⟩)
  have hchannel : ((built.ask client firstUuid code).ask client secondUuid code).map_cu.lookup
      client =
      some secondUuid := find_insert_some.mpr (Or.inl ⟨rfl, rfl⟩)
  have hrid : (List.replicate 6 1 : Bytes).length = enResIdLen := rfl
  have hanswer := handle_activeAck oneInet zero_notMem_firstUuid hfirst hchannel rfl hrid
  have hsecond : (((built.ask client firstUuid code).ask client secondUuid code).forget client
      firstUuid).map_uai.lookup secondUuid = some ⟨client, code⟩ :=
    find_erase_some.mpr ⟨uuids_ne, find_insert_some.mpr (Or.inl ⟨rfl, rfl⟩)⟩
  have hgone : (((built.ask client firstUuid code).ask client secondUuid code).forget client
      firstUuid).map_cu.lookup client = none := by
    unfold State.forget
    rw [find_erase, if_pos rfl]
  refine ⟨_, _, .next (.next (hrun.mono (fun _ => trivial)) trivial hagain) trivial hanswer,
    hsecond, hgone, ?_⟩
  rw [answering, handle_ack oneInet (activeAck_members _ _)
    (ackMembers_uuid zero_notMem_secondUuid _) hsecond, hgone]

end aodc.active_pairs
