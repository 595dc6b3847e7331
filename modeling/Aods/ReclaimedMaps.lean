-- The maps of the activation module and the channels that they name. `OnChannelFreed` goes away
-- early when the channel has no request pending, and leaves its address in `m_mapCA`. The laws say
-- under which events no map names a channel behind its end.
import Aods.ActivePairs

open machine runs std_map
open util.helper util.json msg_def
open aodc.active_module aodc.active_pairs

namespace aodc.reclaimed_maps

variable {inet : Inet}

/-! ## Conditions -/

/-- Some entry of the maps names the channel. -/
def Names (s : State) (c : Bytes) : Prop :=
  (∃ addr, s.map_ca.lookup c = some addr) ∨ (∃ u, s.map_cu.lookup c = some u) ∨
    ∃ u ai, s.map_uai.lookup u = some ai ∧ ai.str_channel_name = c

/-- The message that the channel is built. -/
def Builds (c : Bytes) (x : Event × List Out) : Prop := ∃ data, x.1 = .builded data ∧ cstr data = c

/-- The message that the channel is freed. -/
def Frees (c : Bytes) (x : Event × List Out) : Prop :=
  ∃ data, x.1 = .freed data ∧ clientChannel data = some c

/-- A channel that is freed has a request pending, or no address. -/
def EndsPending (s : State) (e : Event) : Prop :=
  ∀ data c, e = .freed data → clientChannel data = some c → s.map_cu.lookup c = none →
    s.map_ca.lookup c = none

/-- A request is pending for the channel under this uuid alone, and this uuid for no other
channel. -/
def OwnUuid (s : State) (c u : Bytes) : Prop :=
  (∀ u' ai, s.map_uai.lookup u' = some ai → ai.str_channel_name = c → u' = u) ∧
    ∀ ai, s.map_uai.lookup u = some ai → ai.str_channel_name = c

def Reclaims (inet : Inet) (_ : List (Event × List Out)) (s : State) (e : Event) : Prop :=
  EndsPending s e ∧ ∀ c u, Asks inet s e c u → OwnUuid s c u

/-! ## The invariant -/

/-- The requests of the two maps are the same, and a channel that a map names is built. -/
structure Tracked (es : List (Event × List Out)) (s : State) : Prop where
  twin : ∀ {c u}, s.map_cu.lookup c = some u ↔ ∃ ai, s.map_uai.lookup u = some ai ∧
    ai.str_channel_name = c
  client : ∀ {c u}, s.map_cu.lookup c = some u → 0 ∉ c ∧ isAods c = true
  address : ∀ {c addr}, s.map_ca.lookup c = some addr → Since (Builds c) (Frees c) es
  pending : ∀ {c u}, s.map_cu.lookup c = some u → Since (Builds c) (Frees c) es

theorem Tracked.empty : Tracked [] State.empty where
  twin := by simp [State.empty]
  client h := by simp [State.empty] at h
  address h := by simp [State.empty] at h
  pending h := by simp [State.empty] at h

theorem Tracked.built {es : List (Event × List Out)} {s : State} (h : Tracked es s) {c : Bytes}
    (hn : Names s c) :
    Since (Builds c) (Frees c) es := by
  rcases hn with ⟨addr, hca⟩ | ⟨u, hcu⟩ | ⟨u, ai, huai, hname⟩
  · exact h.address hca
  · exact h.pending hcu
  · exact h.pending (h.twin.mpr ⟨ai, huai, hname⟩)

/-- An event that is not the end of a channel goes on with what was since. -/
theorem since_more {es : List (Event × List Out)} {c : Bytes} {e : Event} (os : List Out)
    (hf : ∀ data, e = .freed data → clientChannel data ≠ some c)
    (h : Since (Builds c) (Frees c) es) :
    Since (Builds c) (Frees c) ((e, os) :: es) := by
  refine since_cons.mpr (Or.inr ⟨?_, h⟩)
  rintro ⟨data, he, hc⟩
  exact hf data he hc

theorem Tracked.ask {es : List (Event × List Out)} {s : State} (h : Tracked es s) {e : Event}
    {c u : Bytes} (hasks : Asks inet s e c u) (hown : OwnUuid s c u) (code : Bytes)
    (os : List Out) :
    Tracked ((e, os) :: es) (s.ask c u code) := by
  obtain ⟨data, behind, rands, addr, ip, rfl, hc, _, _, haddr, _⟩ := hasks
  obtain ⟨hname, haods⟩ := clientChannel_some hc
  have hsince : ∀ {c'}, Since (Builds c') (Frees c') es →
      Since (Builds c') (Frees c') ((.recv_data data behind rands, os) :: es) :=
    fun hs => since_more os (fun _ he => by cases he) hs
  refine ⟨fun {c' u'} => ?_, fun {c' u'} hcu => ?_, fun hca => hsince (h.address hca),
    fun {c' u'} hcu => ?_⟩
  · constructor
    · intro hcu
      rcases find_insert_some.mp hcu with ⟨rfl, rfl⟩ | ⟨hne, hcu⟩
      · exact ⟨_, find_insert_some.mpr (Or.inl ⟨rfl, rfl⟩), rfl⟩
      · obtain ⟨ai, huai, hai⟩ := h.twin.mp hcu
        refine ⟨ai, find_insert_some.mpr (Or.inr ⟨?_, huai⟩), hai⟩
        rintro rfl
        exact hne (hai.symm.trans (hown.2 ai huai))
    · rintro ⟨ai, huai, hai⟩
      rcases find_insert_some.mp huai with ⟨rfl, rfl⟩ | ⟨hne, hold⟩
      · exact find_insert_some.mpr (Or.inl ⟨hai.symm, rfl⟩)
      · refine find_insert_some.mpr (Or.inr ⟨?_, h.twin.mpr ⟨ai, hold, hai⟩⟩)
        rintro rfl
        exact hne (hown.1 u' ai hold hai)
  · rcases find_insert_some.mp hcu with ⟨rfl, _⟩ | ⟨_, hcu⟩
    · exact ⟨(channelName_ok hname).1, haods⟩
    · exact h.client hcu
  · rcases find_insert_some.mp hcu with ⟨rfl, _⟩ | ⟨_, hcu⟩
    · exact hsince (h.address haddr)
    · exact hsince (h.pending hcu)

/-- A pair that goes out is all that the maps had for the channel. -/
theorem Tracked.forget {es : List (Event × List Out)} {s : State} (h : Tracked es s) {c u : Bytes}
    (hcu : s.map_cu.lookup c = some u) {e : Event} (os : List Out)
    (hf : ∀ data c', e = .freed data → clientChannel data = some c' → c' = c) :
    Tracked ((e, os) :: es) (s.forget c u) ∧ ¬ Names (s.forget c u) c := by
  have hsince : ∀ {c'}, c' ≠ c → Since (Builds c') (Frees c') es →
      Since (Builds c') (Frees c') ((e, os) :: es) :=
    fun hne hs => since_more os (fun data he hc => hne (hf data _ he hc)) hs
  refine ⟨⟨fun {c' u'} => ?_, fun hc => h.client (find_erase_some.mp hc).2, fun hc => ?_,
    fun hc => ?_⟩, ?_⟩
  · constructor
    · intro hc
      obtain ⟨hne, hc⟩ := find_erase_some.mp hc
      obtain ⟨ai, huai, hai⟩ := h.twin.mp hc
      refine ⟨ai, find_erase_some.mpr ⟨?_, huai⟩, hai⟩
      rintro rfl
      obtain ⟨ai', huai', hai'⟩ := h.twin.mp hcu
      cases huai.symm.trans huai'
      exact hne (hai.symm.trans hai')
    · rintro ⟨ai, huai, hai⟩
      obtain ⟨hne, huai⟩ := find_erase_some.mp huai
      have hc := h.twin.mpr ⟨ai, huai, hai⟩
      refine find_erase_some.mpr ⟨?_, hc⟩
      rintro rfl
      exact hne (Option.some.inj (hc.symm.trans hcu))
  · obtain ⟨hne, hc⟩ := find_erase_some.mp hc
    exact hsince hne (h.address hc)
  · obtain ⟨hne, hc⟩ := find_erase_some.mp hc
    exact hsince hne (h.pending hc)
  · rintro (⟨addr, hc⟩ | ⟨u', hc⟩ | ⟨u', ai, huai, hai⟩)
    · exact (find_erase_some.mp hc).1 rfl
    · exact (find_erase_some.mp hc).1 rfl
    · obtain ⟨hne, huai⟩ := find_erase_some.mp huai
      have hc := h.twin.mpr ⟨ai, huai, hai⟩
      exact hne (Option.some.inj (hc.symm.trans hcu))

/-! ## Steps -/

/-- A pair that an event takes out is one of the channel's own. -/
theorem Tracked.takes {es : List (Event × List Out)} {s : State} (h : Tracked es s) {e : Event}
    {c u : Bytes} (hf : forgetting s e = some (c, u)) :
    s.map_cu.lookup c = some u ∧ ∀ data c', e = .freed data →
      clientChannel data = some c' → c' = c := by
  cases e with
  | freed data =>
    obtain ⟨hclient, hcu⟩ := forgetting_freed hf
    refine ⟨hcu, ?_⟩
    intro data' c' he hc'
    cases he
    exact Option.some.inj (hc'.symm.trans hclient)
  | rcvfkafka doc =>
    obtain ⟨_, _, ai, _, _, _, hai, rfl⟩ := forgetting_kafka hf
    refine ⟨h.twin.mpr ⟨ai, hai, rfl⟩, ?_⟩
    intro data' c' he
    cases he
  | _ => cases hf

theorem Tracked.step {es : List (Event × List Out)} {s s' : State} {e : Event} {os : List Out}
    (h : Tracked es s) (hok : Reclaims inet es s e) (hs : handle inet s e = .ok (s', os)) :
    Tracked ((e, os) :: es) s' := by
  cases handle_changes hs with
  | kept nothing =>
    have hquiet : ∀ {c}, Names s c → ∀ data, e = .freed data → clientChannel data ≠ some c := by
      rintro c hn data rfl hc
      have hcu : s.map_cu.lookup c = none := by
        simpa [forgetting, hc] using nothing
      rcases hn with ⟨addr, hca⟩ | ⟨u, hcu'⟩ | ⟨u, ai, huai, hai⟩
      · rw [hok.1 data c rfl hc hcu] at hca
        cases hca
      · rw [hcu] at hcu'
        cases hcu'
      · rw [h.twin.mpr ⟨ai, huai, hai⟩] at hcu
        cases hcu
    exact ⟨h.twin, h.client, fun hca => since_more os (hquiet (Or.inl ⟨_, hca⟩)) (h.address hca),
      fun hcu => since_more os (hquiet (Or.inr (Or.inl ⟨_, hcu⟩))) (h.pending hcu)⟩
  | @built data addr builded =>
    subst builded
    have hsince : ∀ {c}, Since (Builds c) (Frees c) es →
        Since (Builds c) (Frees c) ((.builded data, os) :: es) :=
      fun hs => since_more os (fun _ he => by cases he) hs
    refine ⟨h.twin, h.client, fun {c addr'} hca => ?_, fun hcu => hsince (h.pending hcu)⟩
    rcases find_insert_some.mp hca with ⟨rfl, _⟩ | ⟨_, hca⟩
    · exact since_cons.mpr (Or.inl ⟨data, rfl, rfl⟩)
    · exact hsince (h.address hca)
  | asked asks _ => exact h.ask asks (hok.2 _ _ asks) _ os
  | forgot takes =>
    obtain ⟨hcu, hf⟩ := h.takes takes
    exact (h.forget hcu os hf).1

theorem Tracked.run {s : State} {es : List (Event × List Out)}
    (h : Run (handle inet) (Reclaims inet) State.empty es s) : Tracked es s := by
  apply h.invariant (I := fun es s => Tracked es s) Tracked.empty
  intro es s e s' os htracked hok hs
  exact htracked.step hok hs

/-- The end of a channel leaves no entry that names it just when it has a request pending, or no
address. -/
theorem Tracked.freed_iff {es : List (Event × List Out)} {s s' : State} {data c : Bytes}
    {os : List Out} (h : Tracked es s) (hc : clientChannel data = some c)
    (hs : handle inet s (.freed data) = .ok (s', os)) :
    ¬ Names s' c ↔ EndsPending s (.freed data) := by
  cases hcu : s.map_cu.lookup c with
  | none =>
    have hforget : forgetting s (.freed data) = none := by simp [forgetting, hc, hcu]
    have hsame : s' = s := by
      rcases handle_no_freed inet hforget with hs' | hs'
      · rw [hs] at hs'
        cases hs'
        rfl
      · rw [hs] at hs'
        cases hs'
    subst hsame
    constructor
    · intro hn data' c' he hc' _
      cases he
      cases hc.symm.trans hc'
      cases hca : s'.map_ca.lookup c with
      | none => rfl
      | some addr => exact absurd (Or.inl ⟨addr, hca⟩) hn
    · rintro hends (⟨addr, hca⟩ | ⟨u, hcu'⟩ | ⟨u, ai, huai, hai⟩)
      · rw [hends data c rfl hc hcu] at hca
        cases hca
      · rw [hcu] at hcu'
        cases hcu'
      · rw [h.twin.mpr ⟨ai, huai, hai⟩] at hcu
        cases hcu
  | some u =>
    have hends : EndsPending s (.freed data) := by
      intro data' c' he hc' hnone
      cases he
      cases hc.symm.trans hc'
      rw [hcu] at hnone
      cases hnone
    rw [handle_freed inet hc hcu] at hs
    split at hs
    · cases hs
    · cases hs
      refine iff_of_true ?_ hends
      refine (h.forget (e := .freed data) hcu [] ?_).2
      intro data' c' he hc'
      cases he
      exact Option.some.inj (hc'.symm.trans hc)

theorem clientChannel_names {c : Bytes} (hc : 0 ∉ c) (haods : isAods c = true) :
    clientChannel (names [c]) = some c := by
  have hnames : names [c] = c ++ 0 :: [] := by simp [names]
  rw [hnames]
  exact clientChannel_append hc haods []

/-- Behind a request that shares its channel or its uuid with another one, the ends of the channels
leave an entry or erase the end of a map. -/
theorem Tracked.mixed {es : List (Event × List Out)} {s s' : State} {e : Event} {c u : Bytes}
    {os : List Out} (h : Tracked es s) (hasks : Asks inet s e c u) (hown : ¬ OwnUuid s c u)
    (hs : handle inet s e = .ok (s', os)) :
    ∃ s₂, handle inet s' (.freed (names [c])) = .ok (s₂, []) ∧
      (Names s₂ c ∨ ∃ c', handle inet s₂ (.freed (names [c'])) = .error .bad_iterator) := by
  obtain ⟨code, doc, _, hask⟩ := handle_asks hasks
  rw [hask] at hs
  cases hs
  obtain ⟨data, _, _, _, _, _, hc, _⟩ := hasks
  obtain ⟨hname, haods⟩ := clientChannel_some hc
  have hcu : (s.ask c u code).map_cu.lookup c = some u := find_insert_some.mpr (Or.inl ⟨rfl, rfl⟩)
  have huai : (s.ask c u code).map_uai.lookup u = some ⟨c, code⟩ :=
    find_insert_some.mpr (Or.inl ⟨rfl, rfl⟩)
  have hfreed : handle inet (s.ask c u code) (.freed (names [c])) =
      .ok ((s.ask c u code).forget c u, []) := by
    have hclient : clientChannel (names [c]) = some c :=
      clientChannel_names (channelName_ok hname).1 haods
    rw [handle_freed inet hclient hcu, huai]
  refine ⟨_, hfreed, ?_⟩
  rcases not_and_or.mp hown with hchannel | huuid
  · -- the channel has a request under another uuid, which stays
    push Not at hchannel
    obtain ⟨u', ai, hai, hac, hne⟩ := hchannel
    exact Or.inl (Or.inr (Or.inr ⟨u', ai,
      find_erase_some.mpr ⟨hne, find_insert_some.mpr (Or.inr ⟨hne, hai⟩)⟩, hac⟩))
  · -- the uuid of another channel's request is gone from one of the two maps
    push Not at huuid
    obtain ⟨ai, hai, hne⟩ := huuid
    have hother : s.map_cu.lookup ai.str_channel_name = some u := h.twin.mpr ⟨ai, hai, rfl⟩
    obtain ⟨hzero, haods'⟩ := h.client hother
    have hclient : clientChannel (names [ai.str_channel_name]) = some ai.str_channel_name :=
      clientChannel_names hzero haods'
    have hkept : ((s.ask c u code).forget c u).map_cu.lookup ai.str_channel_name = some u :=
      find_erase_some.mpr ⟨hne, find_insert_some.mpr (Or.inr ⟨hne, hother⟩)⟩
    have hgone : ((s.ask c u code).forget c u).map_uai.lookup u = none := by
      unfold State.forget
      rw [find_erase, if_pos rfl]
    right
    refine ⟨ai.str_channel_name, ?_⟩
    rw [handle_freed inet hclient hkept, hgone]

/-! ## The laws -/

/-- While each channel that ends has a request pending or no address, and each request has a channel
and a uuid of its own, no map names a channel that is not built, or that is freed. The first event
that is otherwise leaves an entry of a freed channel, or leads to one or to an invalid iterator. -/
theorem the_maps_are_reclaimed_while_requests_end_with_their_channels {s : State}
    {es : List (Event × List Out)} (h : Run (handle inet) (Reclaims inet) State.empty es s) :
    (∀ c, Names s c → Since (Builds c) (Frees c) es) ∧
      (∀ data c s' os, clientChannel data = some c → handle inet s (.freed data) = .ok (s', os) →
        (¬ Names s' c ↔ Reclaims inet es s (.freed data))) ∧
      ∀ e c u s' os, Asks inet s e c u → handle inet s e = .ok (s', os) → ¬ Reclaims inet es s e →
        ∃ s₂, handle inet s' (.freed (names [c])) = .ok (s₂, []) ∧
          (Names s₂ c ∨ ∃ c', handle inet s₂ (.freed (names [c'])) = .error .bad_iterator) := by
  have htracked := Tracked.run h
  refine ⟨fun c hn => htracked.built hn, ?_, ?_⟩
  · intro data c s' os hc hs
    rw [htracked.freed_iff hc hs]
    refine ⟨fun hends => ⟨hends, ?_⟩, fun hok => hok.1⟩
    rintro c' u ⟨_, _, _, _, _, he, _⟩
    cases he
  · intro e c u s' os hasks hs hnot
    apply htracked.mixed hasks ?_ hs
    intro hown
    apply hnot
    obtain ⟨code, doc, _, hask⟩ := handle_asks hasks
    refine ⟨?_, ?_⟩
    · rintro data c' rfl
      obtain ⟨_, _, _, _, _, he, _⟩ := hasks
      cases he
    · intro c' u' hasks'
      obtain ⟨_, _, _, _, _, rfl, hc, _, _, _, _, _, rfl⟩ := hasks
      obtain ⟨_, _, _, _, _, he, hc', _, _, _, _, _, rfl⟩ := hasks'
      cases he
      cases hc.symm.trans hc'
      exact hown

theorem reclaims_builded (es : List (Event × List Out)) (s : State) (data : Bytes) :
    Reclaims inet es s (.builded data) := by
  constructor
  · intro data' c he
    cases he
  · rintro c u ⟨_, _, _, _, _, he, _⟩
    cases he

/-- A client asks, and its channel ends before the answer. -/
theorem a_channel_ends_with_its_request :
    ∃ s es, Run (handle oneInet) (Reclaims oneInet) State.empty es s ∧
    es.map Prod.fst =
      [.freed (names [client]), asking 1, buildedEvent client (text "1.1.1.2:6") peer] ∧
    ¬ Names s client := by
  obtain ⟨os, hask⟩ := handle_asking built_peer 1
  have hcu : (built.ask client firstUuid code).map_cu.lookup client = some firstUuid :=
    find_insert_some.mpr (Or.inl ⟨rfl, rfl⟩)
  have huai : (built.ask client firstUuid code).map_uai.lookup firstUuid = some ⟨client, code⟩ :=
    find_insert_some.mpr (Or.inl ⟨rfl, rfl⟩)
  have hclient : clientChannel (names [client]) = some client :=
    clientChannel_names zero_notMem_client isAods_client
  have hfreed : handle oneInet (built.ask client firstUuid code) (.freed (names [client])) =
      .ok ((built.ask client firstUuid code).forget client firstUuid, []) := by
    rw [handle_freed oneInet hclient hcu, huai]
  have h0 : Run (handle oneInet) (Reclaims oneInet) State.empty [] State.empty := .start
  have h1 := Run.next h0 (reclaims_builded _ _ _) handle_built
  have h2 := Run.next h1 ⟨?_, ?_⟩ hask
  have h3 := Run.next h2 ⟨?_, ?_⟩ hfreed
  · refine ⟨_, _, h3, rfl, fun hn => ?_⟩
    have hsince := (the_maps_are_reclaimed_while_requests_end_with_their_channels h3).1 client hn
    rcases since_cons.mp hsince with ⟨data, he, _⟩ | ⟨hnot, _⟩
    · cases he
    · exact hnot ⟨_, rfl, hclient⟩
  · intro data c he hc hnone
    cases he
    cases hclient.symm.trans hc
    cases hcu.symm.trans hnone
  · rintro c u ⟨_, _, _, _, _, he, _⟩
    cases he
  · intro data c he
    cases he
  · intro c u _
    constructor
    · intro u' ai huai
      simp [built, State.empty] at huai
    · intro ai huai
      simp [built, State.empty] at huai

/-- A client's channel that ends without a request. -/
theorem a_channel_without_a_request_stays_in_the_map :
    ∃ s es, Run (handle oneInet) Any State.empty es s ∧
    es.map Prod.fst = [.freed (names [client]), buildedEvent client (text "1.1.1.2:6") peer] ∧
    s.map_ca.lookup client = some peer := by
  have hclient : clientChannel (names [client]) = some client :=
    clientChannel_names zero_notMem_client isAods_client
  obtain ⟨hname, haods⟩ := clientChannel_some hclient
  have hcu : built.map_cu.lookup client = none := by simp [built, State.empty]
  have hfreed : handle oneInet built (.freed (names [client])) = .ok (built, []) := by
    simp only [handle, onChannelFreed, hname, haods, not_true_eq_false, if_false, hcu]
  have h0 : Run (handle oneInet) Any State.empty [] State.empty := .start
  have h1 := Run.next (e := buildedEvent client (text "1.1.1.2:6") peer) h0 trivial handle_built
  have h2 := Run.next (e := .freed (names [client])) h1 trivial hfreed
  exact ⟨_, _, h2, rfl, built_peer⟩

end aodc.reclaimed_maps
