-- Which channel a resource id is bound to, over whole runs of the module. A
-- bound entry is nobody's to take but its own channel's. Whether an entry goes
-- when its channel goes rests on one thing, that a channel has one resource id.
import Aods.AodcAuth

open machine runs std_map
open util.helper util.json msg_def
open aodc.auth_module

namespace aodc.auth_bindings

/-- What a history holds of an AUTH message that bound a resource id: the message
and its report. -/
def Forwarded (rid channel : Bytes) (a : AodsAodcAuthen) (x : Event × List Out) : Prop :=
  authOf x.1 = some (channel, a) ∧ ridOf a = rid ∧ x.2 = [reportAuthenMsg a.uc_act_code rid]

/-- The channel is lost. -/
def Lost (channel : Bytes) (x : Event × List Out) : Prop := lostOf x.1 = some channel

/-- No AUTH message binds a second resource id to a channel. -/
def OneRid (_ : List (Event × List Out)) (s : State) (e : Event) : Prop :=
  ∀ c a, authOf e = some (c, a) → s.Unbound (ridOf a) → s.map_cr.lookup c = none

/-! ## The two maps -/

/-- The maps of a module that runs: entries have names, and what `m_mapCR` has for a
channel is bound to that channel. -/
structure Good (s : State) : Prop where
  named : ∀ {rid ai}, s.map_rc.lookup rid = some ai → ai.str_channel_name ≠ []
  held : ∀ {c rid}, s.map_cr.lookup c = some rid →
    ∃ ai, s.map_rc.lookup rid = some ai ∧ ai.str_channel_name = c

theorem Good.empty : Good State.empty where
  named h := by simp [State.empty] at h
  held h := by simp [State.empty] at h

theorem Good.unbound_iff {s : State} (h : Good s) (rid : Bytes) :
    s.Unbound rid ↔ s.map_rc.lookup rid = none := by
  unfold State.Unbound
  cases hrc : s.map_rc.lookup rid with
  | none => simp [AuthInfo.blank]
  | some ai => simp [h.named hrc]

theorem bind_rc (s : State) (c : Bytes) (a : AodsAodcAuthen) (rid : Bytes) :
    (s.bind c a).map_rc.lookup rid =
      if rid = ridOf a then some ⟨a.uc_ip_num, c, a.un_ip_addr⟩ else s.map_rc.lookup rid :=
  find_insert s.map_rc (ridOf a) rid _

theorem bind_cr (s : State) (c : Bytes) (a : AodsAodcAuthen) (c' : Bytes) :
    (s.bind c a).map_cr.lookup c' = if c' = c then some (ridOf a) else s.map_cr.lookup c' :=
  find_insert s.map_cr c c' _

theorem drop_rc {s : State} {c rid : Bytes} (h : s.map_cr.lookup c = some rid) (rid' : Bytes) :
    (s.drop c).map_rc.lookup rid' = if rid' = rid then none else s.map_rc.lookup rid' := by
  unfold State.drop
  rw [h]
  exact find_erase s.map_rc rid rid'

theorem drop_cr {s : State} {c rid : Bytes} (h : s.map_cr.lookup c = some rid) (c' : Bytes) :
    (s.drop c).map_cr.lookup c' = if c' = c then none else s.map_cr.lookup c' := by
  unfold State.drop
  rw [h]
  exact find_erase s.map_cr c c'

theorem drop_unknown {s : State} {c : Bytes} (h : s.map_cr.lookup c = none) : s.drop c = s := by
  unfold State.drop
  rw [h]

theorem drop_rc_some {s : State} {c rid : Bytes} {ai : AuthInfo}
    (h : (s.drop c).map_rc.lookup rid = some ai) :
    s.map_rc.lookup rid = some ai ∧ s.map_cr.lookup c ≠ some rid := by
  cases hcr : s.map_cr.lookup c with
  | none =>
    rw [drop_unknown hcr] at h
    exact ⟨h, by simp⟩
  | some r =>
    rw [drop_rc hcr] at h
    split at h
    · cases h
    · rename_i hne
      exact ⟨h, fun he => hne (Option.some.inj he).symm⟩

theorem Good.bind {s : State} (h : Good s) {c : Bytes} {a : AodsAodcAuthen} (hc : c ≠ [])
    (hu : s.Unbound (ridOf a)) : Good (s.bind c a) where
  named {rid ai} hrc := by
    rw [bind_rc] at hrc
    split at hrc
    · cases hrc
      exact hc
    · exact h.named hrc
  held {c' rid} hcr := by
    rw [bind_cr] at hcr
    split at hcr
    · rename_i heq
      cases hcr
      exact ⟨_, by rw [bind_rc, if_pos rfl], heq.symm⟩
    · obtain ⟨ai, hrc, hname⟩ := h.held hcr
      have hne : rid ≠ ridOf a := by
        rintro rfl
        rw [(h.unbound_iff _).mp hu] at hrc
        cases hrc
      exact ⟨ai, by rw [bind_rc, if_neg hne]; exact hrc, hname⟩

/-- To drop a channel keeps the maps good: the entry that goes is the channel's own. -/
theorem Good.drop {s : State} (h : Good s) (c : Bytes) : Good (s.drop c) := by
  cases hc : s.map_cr.lookup c with
  | none =>
    rw [drop_unknown hc]
    exact h
  | some r =>
    refine ⟨fun hrc => h.named (drop_rc_some hrc).1, fun {c' rid} hcr => ?_⟩
    rw [drop_cr hc] at hcr
    split at hcr
    · cases hcr
    · rename_i hne
      obtain ⟨ai, hrc, hname⟩ := h.held hcr
      obtain ⟨ai', hrc', hname'⟩ := h.held hc
      have hrid : rid ≠ r := by
        rintro rfl
        rw [hrc] at hrc'
        cases hrc'
        exact hne (hname.symm.trans hname')
      exact ⟨ai, by rw [drop_rc hc, if_neg hrid]; exact hrc, hname⟩

theorem Good.step {s s' : State} {e : Event} {os : List Out} (h : Good s)
    (hs : handle s e = .ok (s', os)) : Good s' := by
  rcases handle_cases hs with ⟨c, a, hauth, hu, rfl, _⟩ | ⟨c, _, _, rfl, _⟩ | ⟨_, rfl, _⟩
  · exact h.bind (isAods_ne_nil (authOf_some hauth).1) hu
  · exact h.drop c
  · exact h

theorem Good.run {Ok : List (Event × List Out) → State → Event → Prop} {s s' : State}
    {es : List (Event × List Out)} (hs : Good s) (h : Run handle Ok s es s') : Good s' :=
  h.invariant (I := fun _ s => Good s) hs (fun hg _ hstep => hg.step hstep)

/-! ## An entry stays until its channel is lost -/

/-- One event leaves an entry as it is, unless its channel is lost with it. -/
theorem entry_stays {s s' : State} {e : Event} {os : List Out} {rid : Bytes} {ai : AuthInfo}
    (h : Good s) (hrc : s.map_rc.lookup rid = some ai) (hs : handle s e = .ok (s', os))
    (hlost : lostOf e ≠ some ai.str_channel_name) : s'.map_rc.lookup rid = some ai := by
  rcases handle_cases hs with ⟨c, a, _, hu, rfl, _⟩ | ⟨c, _, hc, rfl, _⟩ | ⟨_, rfl, _⟩
  · have hne : rid ≠ ridOf a := by
      rintro rfl
      rw [(h.unbound_iff _).mp hu] at hrc
      cases hrc
    rw [bind_rc, if_neg hne]
    exact hrc
  · cases hcr : s.map_cr.lookup c with
    | none =>
      rw [drop_unknown hcr]
      exact hrc
    | some r =>
      -- the channel that goes has an entry of its own, under another resource id
      have hne : rid ≠ r := by
        rintro rfl
        obtain ⟨ai', hrc', hname⟩ := h.held hcr
        rw [hrc] at hrc'
        cases hrc'
        exact hlost (hname ▸ hc)
      rw [drop_rc hcr, if_neg hne]
      exact hrc
  · exact hrc

theorem entry_stays_in_run {s s' : State} {es : List (Event × List Out)} {rid : Bytes}
    {ai : AuthInfo} (h : Good s) (hrc : s.map_rc.lookup rid = some ai) (hs : Run handle Any s es s')
    (hlost : ∀ x ∈ es, ¬ Lost ai.str_channel_name x) : s'.map_rc.lookup rid = some ai := by
  induction hs with
  | start => exact hrc
  | @next es s₁ s₂ e os before _ step ih =>
    have hbefore := ih (fun x hx => hlost x (List.mem_cons_of_mem _ hx))
    exact entry_stays (h.run before) hbefore step (hlost (e, os) List.mem_cons_self)

/-! ## Where an entry comes from -/

theorem ne_report_of_plain {os : List Out} {code rid : Bytes}
    (h : ∀ o ∈ os, Plain o ∨ ∃ r c, o = authSuc r c) : os ≠ [reportAuthenMsg code rid] := by
  rintro rfl
  rcases h _ (List.mem_singleton_self _) with (⟨_, _, he⟩ | ⟨_, he⟩) | ⟨_, _, he⟩
  · cases he
  · cases he
  · cases he

theorem not_forwarded {s s' : State} {e : Event} {os : List Out} {rid c : Bytes}
    {a : AodsAodcAuthen} (hs : handle s e = .ok (s', os)) (hu : ¬ s.Unbound rid) :
    ¬ Forwarded rid c a (e, os) := by
  rintro ⟨hauth, rfl, hos⟩
  rcases handle_cases hs with ⟨c', a', hauth', hu', _⟩ | ⟨_, hnone, _⟩ | ⟨_, _, _, hquiet⟩
  · rw [hauth] at hauth'
    cases hauth'
    exact hu hu'
  · rw [hauth] at hnone
    cases hnone
  · refine ne_report_of_plain (fun o ho => ?_) hos
    rcases hquiet o ho with hplain | ⟨_, r, ai, _, rfl⟩
    · exact Or.inl hplain
    · exact Or.inr ⟨r, _, rfl⟩

/-- An entry after an event was there before it, or the event is the AUTH message that
it was made from. -/
theorem entry_from {s s' : State} {e : Event} {os : List Out} {rid : Bytes} {ai : AuthInfo}
    (hs : handle s e = .ok (s', os)) (hrc : s'.map_rc.lookup rid = some ai) :
    s.map_rc.lookup rid = some ai ∨
      ∃ a, Forwarded rid ai.str_channel_name a (e, os) ∧ a.uc_ip_num = ai.uc_ip_num ∧
        a.un_ip_addr = ai.un_ip_addr := by
  rcases handle_cases hs with ⟨c, a, hauth, _, rfl, hos⟩ | ⟨c, _, _, rfl, _⟩ | ⟨_, rfl, _⟩
  · rw [bind_rc] at hrc
    split at hrc
    · rename_i hrid
      cases hrc
      exact Or.inr ⟨a, ⟨hauth, hrid.symm, hrid ▸ hos⟩, rfl, rfl⟩
    · exact Or.inl hrc
  · exact Or.inl (drop_rc_some hrc).1
  · exact Or.inl hrc

/-- The last AUTH message that was forwarded for a bound resource id came from the channel
that it is bound to, with the addresses of the entry. -/
theorem entry_presented {s : State} {es : List (Event × List Out)}
    (h : Run handle Any State.empty es s) {rid : Bytes} {ai : AuthInfo}
    (hrc : s.map_rc.lookup rid = some ai) :
    Since (fun x => ∃ a, Forwarded rid ai.str_channel_name a x ∧ a.uc_ip_num = ai.uc_ip_num ∧
      a.un_ip_addr = ai.un_ip_addr) (fun x => ∃ c a, Forwarded rid c a x) es := by
  induction h with
  | start => simp [State.empty] at hrc
  | @next es s s' e os before _ step ih =>
    rw [since_cons]
    rcases entry_from step hrc with hbefore | hnow
    · refine Or.inr ⟨?_, ih hbefore⟩
      rintro ⟨c, a, hf⟩
      have hgood := Good.empty.run before
      refine not_forwarded step (fun hu => ?_) hf
      rw [(hgood.unbound_iff rid).mp hu] at hbefore
      cases hbefore
    · exact Or.inl hnow

/-! ## One resource id for each channel -/

/-- The two maps are inverse to each other. -/
structure Paired (s : State) : Prop extends Good s where
  owned : ∀ {rid ai}, s.map_rc.lookup rid = some ai → s.map_cr.lookup ai.str_channel_name = some rid

theorem Paired.empty : Paired State.empty where
  toGood := .empty
  owned h := by simp [State.empty] at h

theorem Paired.bind {s : State} (h : Paired s) {c : Bytes} {a : AodsAodcAuthen} (hc : c ≠ [])
    (hu : s.Unbound (ridOf a)) (hnew : s.map_cr.lookup c = none) : Paired (s.bind c a) where
  toGood := h.toGood.bind hc hu
  owned {rid ai} hrc := by
    rw [bind_rc] at hrc
    rw [bind_cr]
    split at hrc
    · rename_i hrid
      cases hrc
      rw [if_pos rfl, hrid]
    · have hcr := h.owned hrc
      have hne : ai.str_channel_name ≠ c := by
        rintro rfl
        rw [hnew] at hcr
        cases hcr
      rw [if_neg hne]
      exact hcr

theorem Paired.drop {s : State} (h : Paired s) (c : Bytes) : Paired (s.drop c) where
  toGood := h.toGood.drop c
  owned {rid ai} hrc := by
    obtain ⟨hbefore, hne⟩ := drop_rc_some hrc
    have hcr := h.owned hbefore
    cases hc : s.map_cr.lookup c with
    | none =>
      rw [drop_unknown hc]
      exact hcr
    | some r =>
      have hname : ai.str_channel_name ≠ c := by
        rintro rfl
        exact hne hcr
      rw [drop_cr hc, if_neg hname]
      exact hcr

theorem Paired.step {s s' : State} {e : Event} {os : List Out} {es : List (Event × List Out)}
    (h : Paired s) (hone : OneRid es s e) (hs : handle s e = .ok (s', os)) : Paired s' := by
  rcases handle_cases hs with ⟨c, a, hauth, hu, rfl, _⟩ | ⟨c, _, _, rfl, _⟩ | ⟨_, rfl, _⟩
  · exact h.bind (isAods_ne_nil (authOf_some hauth).1) hu (hone c a hauth hu)
  · exact h.drop c
  · exact h

theorem Paired.run {s : State} {es : List (Event × List Out)}
    (h : Run handle OneRid State.empty es s) : Paired s := by
  apply h.invariant (I := fun _ s => Paired s) Paired.empty
  intro es s e s' os hp hone hs
  exact hp.step hone hs

theorem lost_channel_unnamed {s s' : State} {e : Event} {os : List Out} {c rid : Bytes}
    {ai : AuthInfo} (h : Paired s) (hlost : lostOf e = some c) (hs : handle s e = .ok (s', os))
    (hrc : s'.map_rc.lookup rid = some ai) : ai.str_channel_name ≠ c := by
  rintro rfl
  rw [handle_lost hlost] at hs
  cases hs
  obtain ⟨hbefore, hne⟩ := drop_rc_some hrc
  exact hne (h.owned hbefore)

/-- The channel of an entry was not lost since its AUTH message was forwarded. -/
theorem entry_alive {s : State} {es : List (Event × List Out)}
    (h : Run handle OneRid State.empty es s) {rid : Bytes} {ai : AuthInfo}
    (hrc : s.map_rc.lookup rid = some ai) :
    Since (fun x => ∃ a, Forwarded rid ai.str_channel_name a x) (Lost ai.str_channel_name) es := by
  induction h with
  | start => simp [State.empty] at hrc
  | @next es s s' e os before _ step ih =>
    rw [since_cons]
    rcases entry_from step hrc with hbefore | ⟨a, hf, _⟩
    · refine Or.inr ⟨fun hlost => ?_, ih hbefore⟩
      exact lost_channel_unnamed (.run before) hlost step hrc rfl
    · exact Or.inl ⟨a, hf⟩

/-- A second resource id on a channel: when the channel is lost, the first one's entry
goes on naming it. -/
theorem first_rid_outlives_channel {s : State} {e : Event} {es : List (Event × List Out)}
    (h : Good s) (hone : ¬ OneRid es s e) :
    ∃ c a rid ai, authOf e = some (c, a) ∧
      handle s e = .ok (s.bind c a, [reportAuthenMsg a.uc_act_code (ridOf a)]) ∧
      lostOf (.freed (c ++ [0])) = some c ∧
      handle (s.bind c a) (.freed (c ++ [0])) = .ok ((s.bind c a).drop c, []) ∧
      ((s.bind c a).drop c).map_rc.lookup rid = some ai ∧ ai.str_channel_name = c := by
  simp only [OneRid, not_forall] at hone
  obtain ⟨c, a, hauth, hu, hcr⟩ := hone
  obtain ⟨rid, hrid⟩ := Option.ne_none_iff_exists'.mp hcr
  obtain ⟨ai, hrc, hname⟩ := h.held hrid
  obtain ⟨haods, data, _, _, _, hc, _⟩ := authOf_some hauth
  have hlost := lostOf_freed (channelName_ok hc).1 haods
  have hne : rid ≠ ridOf a := by
    rintro rfl
    rw [(h.unbound_iff _).mp hu] at hrc
    cases hrc
  have hcr' : (s.bind c a).map_cr.lookup c = some (ridOf a) := by rw [bind_cr, if_pos rfl]
  refine ⟨c, a, rid, ai, hauth, handle_auth hauth hu, hlost, handle_lost hlost _, ?_, hname⟩
  rw [drop_rc hcr', if_neg hne, bind_rc, if_neg hne]
  exact hrc

/-! ## A client with two servers -/

def client : Bytes := text "AodsServer1"

def oneServer : AodsAodcAuthen :=
  signed 1 (List.replicate 64 10) (List.replicate 6 1) (List.replicate 14 1)

def otherServer : AodsAodcAuthen :=
  signed 1 (List.replicate 64 10) (List.replicate 6 2) (List.replicate 14 2)

theorem zero_notMem_client : 0 ∉ client := by decide

theorem isAods_client : isAods client = true := by decide

theorem authOf_oneServer : authOf (authEvent client oneServer false) = some (client, oneServer) :=
  authOf_signed zero_notMem_client isAods_client rfl rfl rfl false

theorem authOf_otherServer :
    authOf (authEvent client otherServer false) = some (client, otherServer) :=
  authOf_signed zero_notMem_client isAods_client rfl rfl rfl false

theorem lostOf_client : lostOf (.freed (client ++ [0])) = some client :=
  lostOf_freed zero_notMem_client isAods_client

theorem ridOf_ne : ridOf oneServer ≠ ridOf otherServer := by decide

/-- What the history of an AUTH message that bound looks like. -/
def forwarding (a : AodsAodcAuthen) : Event × List Out :=
  (authEvent client a false, [reportAuthenMsg a.uc_act_code (ridOf a)])

theorem run_oneServer :
    Run handle OneRid State.empty [forwarding oneServer] (State.empty.bind client oneServer) := by
  refine .next .start ?_ (handle_auth authOf_oneServer ?_)
  · intro c a _ _
    exact find_empty c
  · exact (Good.empty.unbound_iff _).mpr (find_empty _)

/-! ## The laws -/

/-- A bound resource id cannot be hijacked: its entry is what its channel presented, and
it stays as it is until that channel is lost. -/
theorem a_bound_rid_keeps_its_channel_until_that_channel_is_lost {s : State}
    {es : List (Event × List Out)} (h : Run handle Any State.empty es s) {rid : Bytes}
    {ai : AuthInfo} (hrc : s.map_rc.lookup rid = some ai) :
    Since (fun x => ∃ a, Forwarded rid ai.str_channel_name a x ∧ a.uc_ip_num = ai.uc_ip_num ∧
        a.un_ip_addr = ai.un_ip_addr) (fun x => ∃ c a, Forwarded rid c a x) es ∧
      ∀ es' s', Run handle Any s es' s' → (∀ x ∈ es', ¬ Lost ai.str_channel_name x) →
        s'.map_rc.lookup rid = some ai :=
  ⟨entry_presented h hrc, fun _ _ h' hlost => entry_stays_in_run (Good.empty.run h) hrc h' hlost⟩

theorem the_channel_of_one_server_keeps_it :
    (State.empty.bind client oneServer).map_rc.lookup (ridOf oneServer) =
        some ⟨1, client, List.replicate 64 10⟩ ∧
      ∀ es' s', Run handle Any (State.empty.bind client oneServer) es' s' →
        (∀ x ∈ es', ¬ Lost client x) →
          s'.map_rc.lookup (ridOf oneServer) = some ⟨1, client, List.replicate 64 10⟩ := by
  have hbound : (State.empty.bind client oneServer).map_rc.lookup (ridOf oneServer) =
      some ⟨1, client, List.replicate 64 10⟩ := by
    rw [bind_rc, if_pos rfl]
    rfl
  exact ⟨hbound, (a_bound_rid_keeps_its_channel_until_that_channel_is_lost
    (run_oneServer.mono (fun _ => trivial)) hbound).2⟩

/-- While no channel is given a second resource id, no entry names a channel that is lost,
and a resource id whose channels are all lost is forwarded again. The first second
resource id of a channel ends that. -/
theorem no_rid_stays_bound_to_a_lost_channel_while_channels_have_one_rid {s : State}
    {es : List (Event × List Out)} (h : Run handle OneRid State.empty es s) :
    (∀ x older c, es = x :: older → Lost c x →
      ∀ rid ai, s.map_rc.lookup rid = some ai → ai.str_channel_name ≠ c) ∧
    (∀ e c a, authOf e = some (c, a) →
      (∀ c', ¬ Since (fun x => ∃ a', Forwarded (ridOf a) c' a' x) (Lost c') es) →
      ∃ s', handle s e = .ok (s', [reportAuthenMsg a.uc_act_code (ridOf a)])) ∧
    (∀ e, ¬ OneRid es s e → ∃ s₁ s₂ os c rid ai, handle s e = .ok (s₁, os) ∧
      lostOf (.freed (c ++ [0])) = some c ∧ handle s₁ (.freed (c ++ [0])) = .ok (s₂, []) ∧
      s₂.map_rc.lookup rid = some ai ∧ ai.str_channel_name = c) := by
  refine ⟨?_, ?_, ?_⟩
  · intro x older c hx hlost rid ai hrc
    cases h with
    | start => cases hx
    | next before _ step =>
      cases hx
      exact lost_channel_unnamed (.run before) hlost step hrc
  · intro e c a hauth hfree
    have hgood := (Paired.run h).toGood
    have hnone : s.map_rc.lookup (ridOf a) = none := by
      cases hrc : s.map_rc.lookup (ridOf a) with
      | none => rfl
      | some ai => exact absurd (entry_alive h hrc) (hfree _)
    exact ⟨_, handle_auth hauth ((hgood.unbound_iff _).mpr hnone)⟩
  · intro e hone
    obtain ⟨c, a, rid, ai, _, hs, hlost, hfreed, hrc, hname⟩ :=
      first_rid_outlives_channel (Paired.run h).toGood hone
    exact ⟨_, _, _, c, rid, ai, hs, hlost, hfreed, hrc, hname⟩

/-- The one server of a client that was lost can come back. -/
theorem one_server_comes_back : ∃ s',
    handle ((State.empty.bind client oneServer).drop client) (authEvent client oneServer false) =
      .ok (s', [reportAuthenMsg oneServer.uc_act_code (ridOf oneServer)]) := by
  have hrun : Run handle OneRid State.empty [(.freed (client ++ [0]), []), forwarding oneServer]
      ((State.empty.bind client oneServer).drop client) :=
    .next run_oneServer (by intro c a h; cases h) (handle_lost lostOf_client _)
  refine (no_rid_stays_bound_to_a_lost_channel_while_channels_have_one_rid hrun).2.1 _ _ _
    authOf_oneServer (fun c' => ?_)
  rw [since_cons, since_cons]
  rintro (⟨_, hf, _⟩ | ⟨hlost, ⟨_, hf, _⟩ | ⟨_, hnil⟩⟩)
  · cases hf
  · rw [forwarding, authOf_oneServer] at hf
    cases hf
    exact hlost lostOf_client
  · exact since_nil _ _ hnil

/-- A client that authenticates two servers on its channel and goes: the first server stays
bound to the channel, and when it comes back it is refused as a duplicate. -/
theorem the_first_of_two_servers_stays_bound_to_a_lost_channel : ∃ s es,
    Run handle Any State.empty ((.freed (client ++ [0]), []) :: es) s ∧
    lostOf (.freed (client ++ [0])) = some client ∧
    s.map_rc.lookup (ridOf oneServer) = some ⟨1, client, List.replicate 64 10⟩ ∧
    (∀ c', ¬ Since (fun x => ∃ a, Forwarded (ridOf oneServer) c' a x) (Lost c')
      ((.freed (client ++ [0]), []) :: es)) ∧
    authOf (authEvent client oneServer false) = some (client, oneServer) ∧
    handle s (authEvent client oneServer false) =
      .ok (s, [.channel_free client, .channel_free client]) := by
  have hu : (State.empty.bind client oneServer).Unbound (ridOf otherServer) := by
    unfold State.Unbound
    rw [bind_rc, if_neg ridOf_ne.symm]
    rfl
  have hrun : Run handle Any State.empty
      [(.freed (client ++ [0]), []), forwarding otherServer, forwarding oneServer]
      (((State.empty.bind client oneServer).bind client otherServer).drop client) :=
    .next
      (.next (run_oneServer.mono (fun _ => trivial)) trivial (handle_auth authOf_otherServer hu))
      trivial (handle_lost lostOf_client _)
  have hcr : ((State.empty.bind client oneServer).bind client otherServer).map_cr.lookup client =
      some (ridOf otherServer) := by rw [bind_cr, if_pos rfl]
  have hrc :
      (((State.empty.bind client oneServer).bind client otherServer).drop client).map_rc.lookup
      (ridOf oneServer) = some ⟨1, client, List.replicate 64 10⟩ := by
    rw [drop_rc hcr, if_neg ridOf_ne, bind_rc, if_neg ridOf_ne, bind_rc, if_pos rfl]
    rfl
  refine ⟨_, _, hrun, lostOf_client, hrc, fun c' => ?_, authOf_oneServer, ?_⟩
  · rw [since_cons, since_cons, since_cons]
    rintro (⟨_, hf, _⟩ | ⟨hlost, ⟨_, hf, hrid, _⟩ | ⟨_, ⟨_, hf, _⟩ | ⟨_, hnil⟩⟩⟩)
    · cases hf
    · rw [forwarding, authOf_otherServer] at hf
      cases hf
      exact ridOf_ne hrid.symm
    · rw [forwarding, authOf_oneServer] at hf
      cases hf
      exact hlost lostOf_client
    · exact since_nil _ _ hnil
  · obtain ⟨alike, hs⟩ := handle_valid authOf_oneServer
      (((State.empty.bind client oneServer).bind client otherServer).drop client)
    have haddrs : ∀ alike, addrsDiffer ⟨1, client, List.replicate 64 10⟩ oneServer alike =
        false := by
      decide
    rw [hs, judge_same hrc (isAods_ne_nil isAods_client) rfl (haddrs alike)]

end aodc.auth_bindings
