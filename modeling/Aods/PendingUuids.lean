-- The uuids of the requests that are pending. `GetUuid` seeds `rand` with the tick of the clock and
-- draws 16 bytes, so a uuid is a function of a tick. The laws say for which ticks the requests of
-- two channels have different uuids, and when an answer comes to the channel that asked.
import Aods.ActivePairs

open machine runs std_map
open util.helper util.json msg_def
open py.deploy_ctrl aodc.active_module aodc.active_pairs

namespace aodc.pending_uuids

/-! ## The model -/

/-- The bytes that `rand` gives behind `srand` with a tick. `rand` has the numbers that come
behind each seed. -/
def draws (rand : Nat → Nat → Nat) (tick : Int) : Bytes :=
  (List.range 16).map (fun n => uchar (rand (u32 tick) n))

/-- The uuid of a request at a tick. -/
def uuidAt (rand : Nat → Nat → Nat) (tick : Int) : Bytes := getUuid (draws rand tick)

/-- An event as the module sees it when the clock shows a tick. -/
def timed (rand : Nat → Nat → Nat) (tick : Int) : Event → Event
  | .recv_data data behind _ => .recv_data data behind (draws rand tick)
  | e => e

/-- An entry of the history: an event and its tick, with what went out for it. -/
abbrev Entry := (Event × Int) × List Out

/-- The module with its clock: each event comes at a tick. -/
def handle (inet : Inet) (rand : Nat → Nat → Nat) : Handler State (Event × Int) Out Fault
  | s, (e, tick) => active_module.handle inet s (timed rand tick e)

/-! ## Requests of a history -/

/-- A request of a channel goes out at a tick, under a uuid. -/
def Requests (c u : Bytes) (tick : Int) (x : Entry) : Prop :=
  x.1.2 = tick ∧ ∃ data behind rands a ip, x.1.1 = .recv_data data behind rands ∧
    clientChannel data = some c ∧
    x.2 = [.snd2kafka (activeDoc a ip u)]

/-- The uuid that an answer is for. -/
def ackUuid : Event → Option Bytes
  | .rcvfkafka (some doc) =>
    match (doc.getObjectItem "active_ack").bind (fun ack => ack.getObjectItem "uuid") with
    | some (.string uuid) => some (cstr uuid)
    | _ => none
  | _ => none

/-- An answer comes for the uuid, or the channel is lost. -/
def Ends (c u : Bytes) (x : Entry) : Prop :=
  ackUuid x.1.1 = some u ∨ ∃ data, x.1.1 = .freed data ∧ clientChannel data = some c

/-- The activation of a channel that went out at a tick is pending under a uuid. -/
def Pending (es : List Entry) (c u : Bytes) (tick : Int) : Prop :=
  Since (Requests c u tick) (Ends c u) es

variable {inet : Inet} {rand : Nat → Nat → Nat}

/-- A request of a channel is taken in at a tick with other draws than the ticks at which other
channels made the requests that they have pending. And an answer for a channel comes while no
request of this channel is pending under another uuid. -/
structure OwnTicks (inet : Inet) (rand : Nat → Nat → Nat) (es : List Entry) (s : State)
    (x : Event × Int) : Prop where
  request : ∀ c u, Asks inet s (timed rand x.2 x.1) c u → ∀ c' u' tick', c' ≠ c →
    Pending es c' u' tick' →
    draws rand x.2 ≠ draws rand tick'
  answer : ∀ u ai, ackUuid x.1 = some u → s.map_uai.lookup u = some ai → ∀ u' tick',
    Pending es ai.str_channel_name u' tick' → u' = u

/-- The answer of the deploy control to a uuid brings its resource id to the channel. -/
def Reaches (inet : Inet) (rand : Nat → Nat → Nat) (s : State) (c u : Bytes) : Prop :=
  ∃ code, ∀ rid tick, rid.length = enResIdLen →
    handle inet rand s (.rcvfkafka (some (activeAck (.string u) (getHexString rid))), tick) =
      .ok (s.forget c u, onActiveSucc c (rid ++ code) ++ [.channel_free c])

/-- Activations that different channels have pending have different uuids, and the answer to each
comes to its channel. -/
structure Unmixed (inet : Inet) (rand : Nat → Nat → Nat) (es : List Entry) (s : State) : Prop where
  distinct : ∀ c c' u tick tick', Pending es c u tick → Pending es c' u tick' → c' = c
  reached : ∀ c u tick, Pending es c u tick → Reaches inet rand s c u

/-! ## One step -/

theorem uuidAt_ne {tick tick' : Int} (h : draws rand tick ≠ draws rand tick') :
    uuidAt rand tick ≠ uuidAt rand tick' := by
  have hall : ∀ tick, (draws rand tick).take 16 = draws rand tick := fun tick =>
    List.take_of_length_le (by simp [draws])
  intro hsame
  have hbytes := congrArg hexBytes hsame
  unfold uuidAt at hbytes
  rw [hexBytes_getUuid, hexBytes_getUuid, hall, hall] at hbytes
  exact h hbytes

theorem activeDoc_uuid {a a' : AodsAodcActive} {ip ip' : CJson} {u u' : Bytes}
    (h : activeDoc a ip u = activeDoc a' ip' u') :
    u = u' := by
  simp only [activeDoc, obj, List.map_cons, List.map_nil, CJson.object.injEq, List.cons.injEq,
    Prod.mk.injEq, CJson.string.injEq] at h
  tauto

theorem forgetting_ack (s : State) (doc : Option CJson) : forgetting s (.rcvfkafka doc) =
    (ackUuid (.rcvfkafka doc)).bind
      (fun u => (s.map_uai.lookup u).map (fun ai => (ai.str_channel_name, u))) := by
  cases doc with
  | none => rfl
  | some doc =>
    unfold forgetting ackUuid
    dsimp only
    cases (doc.getObjectItem "active_ack").bind (fun ack => ack.getObjectItem "uuid") with
    | none => rfl
    | some uuid =>
      cases uuid with
      | string uuid => rfl
      | _ => rfl

/-- No request comes with an event, and none goes out. -/
def Silent (inet : Inet) (rand : Nat → Nat → Nat) (s : State) (x : Entry) : Prop :=
  (∀ c u, ¬ Asks inet s (timed rand x.1.2 x.1.1) c u) ∧ ∀ c u tick, ¬ Requests c u tick x

/-- What an event can do: a request goes out under the uuid of its tick, the keys of a request are
taken out of the maps, or no request comes or goes. -/
inductive Does (inet : Inet) (rand : Nat → Nat → Nat) (s : State) (x : Entry) (s' : State) : Prop
  | asks {c code : Bytes} (asks : Asks inet s (timed rand x.1.2 x.1.1) c (uuidAt rand x.1.2))
      (ids : code.length = enActCodeLen) (after : s' = s.ask c (uuidAt rand x.1.2) code)
      (goes : Requests c (uuidAt rand x.1.2) x.1.2 x)
      (only : ∀ c' u' tick', Requests c' u' tick' x → c' = c ∧ u' = uuidAt rand x.1.2)
      (none_ends : ∀ c' u', ¬ Ends c' u' x)
  | takes {c u : Bytes} (silent : Silent inet rand s x) (takes : forgetting s x.1.1 = some (c, u))
      (after : s' = s.forget c u)
  | keeps (silent : Silent inet rand s x) (takes : forgetting s x.1.1 = none)
      (uai : s'.map_uai = s.map_uai)
      (cu : s'.map_cu = s.map_cu)

theorem does_silent {s s' : State} {e : Event} {tick : Int} {os : List Out}
    (hdata : ∀ data behind rands, e ≠ .recv_data data behind rands) (h : Changes inet s e s') :
    Does inet rand s ((e, tick), os) s' := by
  have hsame : timed rand tick e = e := by
    cases e with
    | recv_data data behind rands => exact absurd rfl (hdata data behind rands)
    | _ => rfl
  have hsilent : Silent inet rand s ((e, tick), os) := by
    constructor
    · rintro c u ⟨data, behind, rands, _, _, he, _⟩
      rw [hsame] at he
      exact hdata data behind rands he
    · rintro c u tick' ⟨_, data, behind, rands, _, _, he, _⟩
      exact hdata data behind rands he
  cases h with
  | kept nothing => exact .keeps hsilent nothing rfl rfl
  | built builded =>
    subst builded
    exact .keeps hsilent rfl rfl rfl
  | asked asks _ =>
    rw [← hsame] at asks
    exact absurd asks (hsilent.1 _ _)
  | forgot takes => exact .takes hsilent takes rfl

theorem handle_does {s s' : State} {x : Event × Int} {os : List Out}
    (h : handle inet rand s x = .ok (s', os)) :
    Does inet rand s (x, os) s' := by
  obtain ⟨e, tick⟩ := x
  cases e with
  | recv_data data behind rands =>
    have hrecv : onRecvChannelData inet s data behind (draws rand tick) = .ok (s', os) := h
    rcases onRecvChannelData_cases inet s data behind (draws rand tick) with
      ⟨os', hs, hrefusal⟩ | ⟨c, a, ip, hasks, ha, hs⟩ | hs
    · rw [hs] at hrecv
      cases hrecv
      have hnone : ∀ doc, .snd2kafka doc ∉ os := by
        intro doc hdoc
        rcases hrefusal _ hdoc with ⟨_, _, _, hr⟩ | ⟨_, hr⟩
        · cases hr
        · cases hr
      refine .keeps ⟨?_, ?_⟩ rfl rfl rfl
      · intro c u hasks
        obtain ⟨code, doc, _, hask⟩ := handle_asks hasks
        have hsame := congrArg Prod.snd (Except.ok.inj (hask.symm.trans h))
        dsimp only at hsame
        rw [← hsame] at hnone
        exact hnone doc List.mem_cons_self
      · rintro c' u' tick' ⟨_, _, _, _, a, ip, _, _, hos⟩
        dsimp only at hos
        rw [hos] at hnone
        exact hnone _ List.mem_cons_self
    · rw [hs] at hrecv
      cases hrecv
      have hasks' := hasks
      obtain ⟨_, _, _, _, _, he, hc, hlen, _⟩ := hasks'
      cases he
      refine .asks hasks (ha ▸ length_requestCode hlen) rfl
        ⟨rfl, _, _, _, a, ip, rfl, hc, rfl⟩ ?_ ?_
      · rintro c' u' tick' ⟨_, _, _, _, a', ip', he, hc', hdoc⟩
        cases he
        rw [hc] at hc'
        simp only [List.cons.injEq, Out.snd2kafka.injEq, and_true] at hdoc
        exact ⟨(Option.some.inj hc').symm, (activeDoc_uuid hdoc).symm⟩
      · rintro c' u' (hack | ⟨_, he, _⟩)
        · cases hack
        · cases he
    · rw [hs] at hrecv
      cases hrecv
  | builded data =>
    exact does_silent (fun _ _ _ he => by cases he) (handle_changes (e := .builded data) h)
  | send_data_fail data =>
    exact does_silent (fun _ _ _ he => by cases he) (handle_changes (e := .send_data_fail data) h)
  | freed data =>
    exact does_silent (fun _ _ _ he => by cases he) (handle_changes (e := .freed data) h)
  | rcvfkafka doc =>
    exact does_silent (fun _ _ _ he => by cases he) (handle_changes (e := .rcvfkafka doc) h)

/-! ## The invariant -/

/-- The uuid of an activation that is pending leads to its channel, and the channel to one that is
pending. -/
structure Led (rand : Nat → Nat → Nat) (es : List Entry) (s : State) : Prop where
  back : ∀ {c u tick}, Pending es c u tick → ∃ ai u', s.map_uai.lookup u = some ai ∧
    ai.str_channel_name = c ∧
    s.map_cu.lookup c = some u'
  newest : ∀ {c u}, s.map_cu.lookup c = some u → ∃ tick, Pending es c u tick
  made : ∀ {c u tick}, Pending es c u tick → u = uuidAt rand tick
  ids : ∀ {u ai}, s.map_uai.lookup u = some ai → ai.sz_active_code.length = enActCodeLen

theorem Led.empty : Led rand [] State.empty where
  back h := absurd h (since_nil _ _)
  newest h := by simp [State.empty] at h
  made h := absurd h (since_nil _ _)
  ids h := by simp [State.empty] at h

theorem Led.distinct {es : List Entry} {s : State} (h : Led rand es s) {c c' u : Bytes}
    {tick tick' : Int} (hc : Pending es c u tick) (hc' : Pending es c' u tick') : c' = c := by
  obtain ⟨ai, _, hai, hname, _⟩ := h.back hc
  obtain ⟨ai', _, hai', hname', _⟩ := h.back hc'
  cases hai.symm.trans hai'
  exact hname'.symm.trans hname

theorem Led.reaches {es : List Entry} {s : State} (h : Led rand es s) {c u : Bytes} {tick : Int}
    (hp : Pending es c u tick) : Reaches inet rand s c u := by
  obtain ⟨ai, u', hai, rfl, hcu⟩ := h.back hp
  have hzero : 0 ∉ u := by
    rw [h.made hp]
    exact zero_notMem_getUuid _
  exact ⟨ai.sz_active_code.drop enResIdLen, fun rid tick hrid => handle_activeAck inet hzero hai hcu
    (h.ids hai) hrid⟩

theorem Led.unmixed {es : List Entry} {s : State} (h : Led rand es s) : Unmixed inet rand es s :=
  ⟨fun _ _ _ _ _ hc hc' => h.distinct hc hc', fun _ _ _ hp => h.reaches hp⟩

theorem pending_before {es : List Entry} {x : Entry}
    (hnone : ∀ c' u' tick', ¬ Requests c' u' tick' x) {c u : Bytes} {tick : Int}
    (h : Pending (x :: es) c u tick) : ¬ Ends c u x ∧ Pending es c u tick :=
  (since_cons.mp h).resolve_left (hnone c u tick)

theorem Led.ask {es : List Entry} {s : State} {x : Entry} (h : Led rand es s) {c code : Bytes}
    (hids : code.length = enActCodeLen) (hgoes : Requests c (uuidAt rand x.1.2) x.1.2 x)
    (honly : ∀ c' u' tick', Requests c' u' tick' x → c' = c ∧ u' = uuidAt rand x.1.2)
    (hends : ∀ c' u', ¬ Ends c' u' x)
    (hown : ∀ c' u' tick', c' ≠ c → Pending es c' u' tick' → draws rand x.1.2 ≠ draws rand tick') :
    Led rand (x :: es) (s.ask c (uuidAt rand x.1.2) code) := by
  have hmore : ∀ {c' u' tick'}, Pending es c' u' tick' → Pending (x :: es) c' u' tick' :=
    fun hp => since_cons.mpr (Or.inr ⟨hends _ _, hp⟩)
  have hnow : Pending (x :: es) c (uuidAt rand x.1.2) x.1.2 := since_cons.mpr (Or.inl hgoes)
  refine ⟨fun {c' u' tick'} hp => ?_, fun {c' u'} hcu => ?_, fun {c' u' tick'} hp => ?_,
    fun {u' ai} huai => ?_⟩
  · rcases since_cons.mp hp with hreq | ⟨_, hold⟩
    · obtain ⟨rfl, rfl⟩ := honly c' u' tick' hreq
      exact ⟨_, _, find_insert_some.mpr (Or.inl ⟨rfl, rfl⟩), rfl,
        find_insert_some.mpr (Or.inl ⟨rfl, rfl⟩)⟩
    · obtain ⟨ai, v, hai, hname, hcu⟩ := h.back hold
      by_cases hc : c' = c
      · subst hc
        by_cases hu : u' = uuidAt rand x.1.2
        · exact ⟨_, _, find_insert_some.mpr (Or.inl ⟨hu, rfl⟩), rfl,
            find_insert_some.mpr (Or.inl ⟨rfl, rfl⟩)⟩
        · exact ⟨ai, _, find_insert_some.mpr (Or.inr ⟨hu, hai⟩), hname,
            find_insert_some.mpr (Or.inl ⟨rfl, rfl⟩)⟩
      · -- the other channel made its request at a tick with other draws
        have hne : u' ≠ uuidAt rand x.1.2 := by
          rw [h.made hold]
          exact (uuidAt_ne (hown c' u' tick' hc hold)).symm
        exact ⟨ai, v, find_insert_some.mpr (Or.inr ⟨hne, hai⟩), hname,
          find_insert_some.mpr (Or.inr ⟨hc, hcu⟩)⟩
  · rcases find_insert_some.mp hcu with ⟨rfl, rfl⟩ | ⟨_, hold⟩
    · exact ⟨_, hnow⟩
    · obtain ⟨tick', hp⟩ := h.newest hold
      exact ⟨tick', hmore hp⟩
  · rcases since_cons.mp hp with hreq | ⟨_, hold⟩
    · have htick : x.1.2 = tick' := hreq.1
      rw [← htick]
      exact (honly c' u' tick' hreq).2
    · exact h.made hold
  · rcases find_insert_some.mp huai with ⟨_, rfl⟩ | ⟨_, hold⟩
    · exact hids
    · exact h.ids hold

/-- A pair that goes out takes nothing along of what is pending behind the event. -/
theorem Led.forget {es : List Entry} {s : State} {x : Entry} (h : Led rand es s) {c u : Bytes}
    (hnone : ∀ c' u' tick', ¬ Requests c' u' tick' x)
    (hleft : ∀ c' u' tick', Pending es c' u' tick' → ¬ Ends c' u' x → c' ≠ c ∧ u' ≠ u)
    (hends : ∀ c' u', c' ≠ c → s.map_cu.lookup c' = some u' → ¬ Ends c' u' x) :
    Led rand (x :: es) (s.forget c u) := by
  refine ⟨fun {c' u' tick'} hp => ?_, fun {c' u'} hcu => ?_,
    fun hp => h.made (pending_before hnone hp).2,
    fun huai => h.ids (find_erase_some.mp huai).2⟩
  · obtain ⟨hgoes, hold⟩ := pending_before hnone hp
    obtain ⟨hc, hu⟩ := hleft c' u' tick' hold hgoes
    obtain ⟨ai, v, hai, hname, hcu⟩ := h.back hold
    exact ⟨ai, v, find_erase_some.mpr ⟨hu, hai⟩, hname, find_erase_some.mpr ⟨hc, hcu⟩⟩
  · obtain ⟨hne, hold⟩ := find_erase_some.mp hcu
    obtain ⟨tick', hp⟩ := h.newest hold
    exact ⟨tick', since_cons.mpr (Or.inr ⟨hends c' u' hne hold, hp⟩)⟩

/-- An event that takes nothing out of the maps ends nothing that they hold. -/
theorem Led.keep {es : List Entry} {s s' : State} {x : Entry} (h : Led rand es s)
    (hnone : ∀ c' u' tick', ¬ Requests c' u' tick' x) (htakes : forgetting s x.1.1 = none)
    (huai : s'.map_uai = s.map_uai) (hcu : s'.map_cu = s.map_cu) : Led rand (x :: es) s' := by
  have hends : ∀ c' u', s.map_cu.lookup c' = some u' → ¬ Ends c' u' x := by
    obtain ⟨⟨e, tick⟩, os⟩ := x
    rintro c' u' hlookup (hack | ⟨data, he, hc⟩)
    · obtain ⟨tick', hp⟩ := h.newest hlookup
      obtain ⟨ai, _, hai, _⟩ := h.back hp
      cases e with
      | rcvfkafka doc =>
        dsimp only at htakes hack
        rw [forgetting_ack, hack, Option.bind_some, hai] at htakes
        cases htakes
      | _ => cases hack
    · dsimp only at he
      subst he
      simp only [forgetting, hc, hlookup] at htakes
      cases htakes
  refine ⟨fun hp => ?_, fun {c' u'} hlookup => ?_, fun hp => h.made (pending_before hnone hp).2,
    fun hai => ?_⟩
  · rw [huai, hcu]
    exact h.back (pending_before hnone hp).2
  · rw [hcu] at hlookup
    obtain ⟨tick', hp⟩ := h.newest hlookup
    exact ⟨tick', since_cons.mpr (Or.inr ⟨hends c' u' hlookup, hp⟩)⟩
  · rw [huai] at hai
    exact h.ids hai

/-- What a pair that is taken out leaves pending, when the event meets the condition. -/
theorem left_behind {es : List Entry} {s : State} {x : Entry} (h : Led rand es s) {c u : Bytes}
    (htakes : forgetting s x.1.1 = some (c, u))
    (hown : ∀ u ai, ackUuid x.1.1 = some u → s.map_uai.lookup u = some ai → ∀ u' tick',
      Pending es ai.str_channel_name u' tick' → u' = u) :
    (∀ c' u' tick', Pending es c' u' tick' → ¬ Ends c' u' x → c' ≠ c ∧ u' ≠ u) ∧
      ∀ c' u', c' ≠ c → s.map_cu.lookup c' = some u' → ¬ Ends c' u' x := by
  obtain ⟨⟨e, tick⟩, os⟩ := x
  dsimp only at htakes hown
  cases e with
  | freed data =>
    obtain ⟨hclient, hcu⟩ := forgetting_freed htakes
    obtain ⟨tick₀, hp₀⟩ := h.newest hcu
    refine ⟨fun c' u' tick' hp hends => ?_, fun c' u' hne _ hends => ?_⟩
    · have hc : c' ≠ c := by
        rintro rfl
        exact hends (Or.inr ⟨data, rfl, hclient⟩)
      refine ⟨hc, ?_⟩
      rintro rfl
      exact hc (h.distinct hp₀ hp)
    · rcases hends with hack | ⟨data', he, hc⟩
      · cases hack
      · cases he
        rw [hclient] at hc
        exact hne (Option.some.inj hc).symm
  | rcvfkafka doc =>
    rw [forgetting_ack] at htakes
    obtain ⟨u, hack, hpair⟩ := Option.bind_eq_some_iff.mp htakes
    obtain ⟨ai, hai, hpair⟩ := Option.map_eq_some_iff.mp hpair
    cases hpair
    refine ⟨fun c' u' tick' hp hends => ?_, fun c' u' hne hcu hends => ?_⟩
    · have hu : u' ≠ u := by
        rintro rfl
        exact hends (Or.inl hack)
      refine ⟨?_, hu⟩
      rintro rfl
      exact hu (hown u ai hack hai u' tick' hp)
    · rcases hends with hack' | ⟨_, he, _⟩
      · dsimp only at hack'
        rw [hack] at hack'
        cases hack'
        obtain ⟨tick', hp⟩ := h.newest hcu
        obtain ⟨ai', _, hai', hname, _⟩ := h.back hp
        cases hai.symm.trans hai'
        exact hne hname.symm
      · cases he
  | _ => cases htakes

/-- A step that meets the condition keeps the lead. -/
theorem Led.step {es : List Entry} {s s' : State} {x : Event × Int} {os : List Out}
    (h : Led rand es s) (hown : OwnTicks inet rand es s x)
    (hs : handle inet rand s x = .ok (s', os)) : Led rand ((x, os) :: es) s' := by
  cases handle_does hs with
  | asks asks ids after goes only none_ends =>
    rw [after]
    exact h.ask ids goes only none_ends (hown.request _ _ asks)
  | takes silent takes after =>
    obtain ⟨hleft, hends⟩ := left_behind (x := (x, os)) h takes hown.answer
    rw [after]
    exact h.forget silent.2 hleft hends
  | keeps silent takes uai cu => exact h.keep silent.2 takes uai cu

theorem Led.run {s : State} {es : List Entry}
    (h : Run (handle inet rand) (OwnTicks inet rand) State.empty es s) :
    Led rand es s := by
  apply h.invariant (I := fun es s => Led rand es s) Led.empty
  intro es s x s' os hled hok hs
  exact hled.step hok hs

/-- The answer to an activation whose channel is no longer in `m_mapCu` reaches nobody. -/
theorem not_reaches {s : State} {c u : Bytes} {ai : ActiveInfo} (hzero : 0 ∉ u)
    (hai : s.map_uai.lookup u = some ai) (hcu : s.map_cu.lookup ai.str_channel_name = none) :
    ¬ Reaches inet rand s c u := by
  rintro ⟨code, hall⟩
  have hok := hall (List.replicate 6 0) 0 rfl
  have herror := handle_ack inet (activeAck_members u (getHexString (List.replicate 6 0)))
    (ackMembers_uuid hzero _) hai
  rw [hcu] at herror
  have hsame := hok.symm.trans herror
  cases hsame

/-- A step that leaves the activations unmixed meets the condition. -/
theorem ownTicks_of_unmixed {es : List Entry} {s s' : State} {x : Event × Int} {os : List Out}
    (h : Led rand es s) (hs : handle inet rand s x = .ok (s', os))
    (hunmixed : Unmixed inet rand ((x, os) :: es) s') :
    OwnTicks inet rand es s x := by
  refine ⟨fun c u hasks c' u' tick' hne hp hdraws => ?_, fun u ai hack hai u' tick' hp => ?_⟩
  · cases handle_does hs with
    | @asks c₀ code asks ids after goes only none_ends =>
      have hc : c₀ = c := by
        obtain ⟨data, _, _, _, _, he, hclient, _⟩ := hasks
        obtain ⟨data', _, _, _, _, he', hclient', _⟩ := asks
        dsimp only at he'
        rw [he] at he'
        cases he'
        rw [hclient] at hclient'
        exact (Option.some.inj hclient').symm
      subst hc
      have hu : u' = uuidAt rand x.2 := by
        rw [h.made hp]
        unfold uuidAt
        rw [hdraws]
      subst hu
      exact hne (hunmixed.distinct _ _ _ _ _ (since_cons.mpr (Or.inl goes))
        (since_cons.mpr (Or.inr ⟨none_ends _ _, hp⟩)))
    | takes silent _ _ => exact silent.1 _ _ hasks
    | keeps silent _ _ _ => exact silent.1 _ _ hasks
  · by_contra hne
    obtain ⟨e, tick⟩ := x
    dsimp only at hack
    cases e with
    | rcvfkafka doc =>
      have hpair : forgetting s (.rcvfkafka doc) = some (ai.str_channel_name, u) := by
        rw [forgetting_ack, hack, Option.bind_some, hai]
        rfl
      cases handle_does hs with
      | asks asks _ _ _ _ _ =>
        obtain ⟨_, _, _, _, _, he, _⟩ := asks
        cases he
      | keeps _ takes _ _ =>
        dsimp only at takes
        rw [hpair] at takes
        cases takes
      | takes _ takes after =>
        dsimp only at takes
        rw [hpair] at takes
        cases takes
        have hstill : Pending (((.rcvfkafka doc, tick), os) :: es) ai.str_channel_name
            u' tick' := by
          refine since_cons.mpr (Or.inr ⟨?_, hp⟩)
          rintro (hack' | ⟨_, he, _⟩)
          · dsimp only at hack'
            rw [hack] at hack'
            exact hne (Option.some.inj hack').symm
          · cases he
        obtain ⟨ai', _, hai', hname, _⟩ := h.back hp
        have hzero : 0 ∉ u' := by
          rw [h.made hp]
          exact zero_notMem_getUuid _
        have hgone : s'.map_cu.lookup ai'.str_channel_name = none := by
          rw [after, hname]
          unfold State.forget
          dsimp only
          rw [find_erase, if_pos rfl]
        have hleft : s'.map_uai.lookup u' = some ai' := by
          rw [after]
          exact find_erase_some.mpr ⟨hne, hai'⟩
        exact not_reaches hzero hleft hgone (hunmixed.reached _ _ _ hstill)
    | _ => cases hack

/-! ## The laws -/

/-- While each request comes at a tick with draws of its own, and each answer to a channel that has
nothing else pending, the activations of different channels have different uuids and the answer to
each comes to its channel. The first step that comes otherwise ends that. -/
theorem pending_uuids_differ_while_their_ticks_do {s : State} {es : List Entry}
    (h : Run (handle inet rand) (OwnTicks inet rand) State.empty es s) :
    Unmixed inet rand es s ∧
      ∀ x s' os, handle inet rand s x = .ok (s', os) →
        (Unmixed inet rand ((x, os) :: es) s' ↔ OwnTicks inet rand es s x) := by
  have hled := Led.run h
  exact ⟨hled.unmixed, fun x s' os hs =>
    ⟨ownTicks_of_unmixed hled hs, fun hok => (hled.step hok hs).unmixed⟩⟩

/-! ## Two clients -/

/-- The generator that the C standard gives as an example of `rand`. -/
def sampleRand (seed n : Nat) : Nat :=
  Nat.iterate (fun next => (next * 1103515245 + 12345) % 4294967296) (n + 1) seed / 65536 % 32768

def second : Bytes := text "AodsServer2"

/-- The state with both channels built. -/
def bothBuilt : State := { built with map_ca := built.map_ca.insert second peer }

/-- A request of a channel at a tick. -/
def askingAt (channel : Bytes) (tick : Int) : Event × Int := (actvEvent channel request [] [], tick)

theorem zero_notMem_second : 0 ∉ second := by decide

theorem isAods_second : isAods second = true := by decide

theorem second_ne : second ≠ client := by decide

theorem handle_askingAt (rand : Nat → Nat → Nat) {s : State} {c : Bytes} (hc : 0 ∉ c)
    (haods : isAods c = true) (hca : s.map_ca.lookup c = some peer) (tick : Int) :
    ∃ os, handle oneInet rand s (askingAt c tick) = .ok (s.ask c (uuidAt rand tick) code, os) ∧
      Requests c (uuidAt rand tick) tick (askingAt c tick, os) := by
  have hip : peerIp oneInet peer = .ok 16843009 := by
    have hshort : ¬ peer.length ≥ 256 := by decide
    have hcolon : ¬ 58 ∉ peer := by decide
    rw [peerIp, if_neg hshort, if_neg hcolon]
    rfl
  have hpacked : request.Packed := ⟨rfl, rfl, rfl⟩
  refine ⟨_, handle_actv oneInet hc haods hpacked hca hip (by decide) [] _, rfl, ?_⟩
  exact ⟨_, _, _, _, _, rfl, clientChannel_append hc haods _, rfl⟩

theorem bothBuilt_client : bothBuilt.map_ca.lookup client = some peer := by
  unfold bothBuilt
  rw [find_insert, if_neg second_ne.symm]
  exact built_peer

theorem bothBuilt_second : bothBuilt.map_ca.lookup second = some peer := by
  unfold bothBuilt
  rw [find_insert, if_pos rfl]

theorem ownTicks_builded (es : List Entry) (s : State) (data : Bytes) (tick : Int) :
    OwnTicks inet rand es s (.builded data, tick) := by
  constructor
  · rintro c u ⟨_, _, _, _, _, he, _⟩
    cases he
  · intro u ai hack
    cases hack

theorem run_bothBuilt : ∃ es,
    Run (handle oneInet sampleRand) (OwnTicks oneInet sampleRand) State.empty es bothBuilt := by
  have hlocal : 0 ∉ text "1.1.1.2:6" := by decide
  have hpeer : 0 ∉ peer := by decide
  have hsecond : handle oneInet sampleRand built
      (buildedEvent second (text "1.1.1.2:6") peer, 0) = .ok (bothBuilt, []) := by
    have hbuilt := onChannelBuilded_names zero_notMem_second isAods_second hlocal hpeer built
    unfold handle buildedEvent timed
    simp only [active_module.handle, hbuilt]
    rfl
  have hfirst : handle oneInet sampleRand State.empty
      (buildedEvent client (text "1.1.1.2:6") peer, 0) = .ok (built, []) := handle_built
  exact ⟨_, .next (.next .start (ownTicks_builded _ _ _ _) hfirst) (ownTicks_builded _ _ _ _)
    hsecond⟩

theorem nothing_pending {es : List Entry}
    (h : Run (handle oneInet sampleRand) (OwnTicks oneInet sampleRand) State.empty es bothBuilt)
    (c u : Bytes) (tick : Int) : ¬ Pending es c u tick := by
  intro hp
  obtain ⟨ai, _, hai, _⟩ := (Led.run h).back hp
  simp [bothBuilt, built, State.empty] at hai

/-- Two requests at different ticks: each answer comes to the channel that asked. -/
theorem two_ticks_keep_two_requests_apart : ∃ es s,
    Run (handle oneInet sampleRand) (OwnTicks oneInet sampleRand) State.empty es s ∧
    (Pending es client (uuidAt sampleRand 5) 5 ∧
      Reaches oneInet sampleRand s client (uuidAt sampleRand 5)) ∧
    Pending es second (uuidAt sampleRand 6) 6 ∧
      Reaches oneInet sampleRand s second (uuidAt sampleRand 6) := by
  obtain ⟨es, hrun⟩ := run_bothBuilt
  obtain ⟨os, hask, hgoes⟩ := handle_askingAt sampleRand zero_notMem_client isAods_client
    bothBuilt_client 5
  obtain ⟨os', hask', hgoes'⟩ := handle_askingAt
    (s := bothBuilt.ask client (uuidAt sampleRand 5) code) sampleRand zero_notMem_second
    isAods_second bothBuilt_second 6
  have hdraws : draws sampleRand 6 ≠ draws sampleRand 5 := by decide
  have hnever := nothing_pending hrun
  have hown : OwnTicks oneInet sampleRand es bothBuilt (askingAt client 5) :=
    ⟨fun _ _ _ _ _ _ _ hp => absurd hp (hnever _ _ _), fun _ _ hack => by cases hack⟩
  have h1 := Run.next hrun hown hask
  have hown' : OwnTicks oneInet sampleRand ((askingAt client 5, os) :: es)
      (bothBuilt.ask client (uuidAt sampleRand 5) code) (askingAt second 6) := by
    refine ⟨fun _ _ _ c' u' tick' _ hp => ?_, fun _ _ hack => by cases hack⟩
    rcases since_cons.mp hp with hreq | ⟨_, hold⟩
    · have htick : 5 = tick' := hreq.1
      rw [← htick]
      exact hdraws
    · exact absurd hold (hnever _ _ _)
  have h2 := Run.next h1 hown' hask'
  have hfirst : Pending ((askingAt second 6, os') :: (askingAt client 5, os) :: es) client
      (uuidAt sampleRand 5) 5 := by
    refine since_cons.mpr (Or.inr ⟨?_, since_cons.mpr (Or.inl hgoes)⟩)
    rintro (hack | ⟨_, he, _⟩)
    · cases hack
    · cases he
  have hsecond : Pending ((askingAt second 6, os') :: (askingAt client 5, os) :: es) second
      (uuidAt sampleRand 6) 6 := since_cons.mpr (Or.inl hgoes')
  obtain ⟨⟨_, hreaches⟩, _⟩ := pending_uuids_differ_while_their_ticks_do h2
  exact ⟨_, _, h2, ⟨hfirst, hreaches _ _ _ hfirst⟩, hsecond, hreaches _ _ _ hsecond⟩

/-- Two requests at one tick are pending under one uuid, and the answer to the first goes to the
second channel, with the resource id. -/
theorem one_tick_mixes_two_requests : ∃ es s,
    Run (handle oneInet sampleRand) Any State.empty es s ∧
    Pending es client (uuidAt sampleRand 5) 5 ∧ Pending es second (uuidAt sampleRand 5) 5 ∧
    handle oneInet sampleRand s (answering (uuidAt sampleRand 5), 6) =
      .ok (s.forget second (uuidAt sampleRand 5),
        onActiveSucc second (List.replicate 6 1 ++ code.drop enResIdLen) ++
          [.channel_free second]) := by
  obtain ⟨es, hrun⟩ := run_bothBuilt
  obtain ⟨os, hask, hgoes⟩ := handle_askingAt sampleRand zero_notMem_client isAods_client
    bothBuilt_client 5
  obtain ⟨os', hask', hgoes'⟩ := handle_askingAt
    (s := bothBuilt.ask client (uuidAt sampleRand 5) code) sampleRand zero_notMem_second
    isAods_second bothBuilt_second 5
  have h1 := Run.next (hrun.mono (fun _ => trivial)) trivial hask
  have h2 := Run.next h1 trivial hask'
  have hfirst : Pending ((askingAt second 5, os') :: (askingAt client 5, os) :: es) client
      (uuidAt sampleRand 5) 5 := by
    refine since_cons.mpr (Or.inr ⟨?_, since_cons.mpr (Or.inl hgoes)⟩)
    rintro (hack | ⟨_, he, _⟩)
    · cases hack
    · cases he
  have hai : ((bothBuilt.ask client (uuidAt sampleRand 5) code).ask second (uuidAt sampleRand 5)
      code).map_uai.lookup (uuidAt sampleRand 5) = some ⟨second, code⟩ :=
    find_insert_some.mpr (Or.inl ⟨rfl, rfl⟩)
  have hcu : ((bothBuilt.ask client (uuidAt sampleRand 5) code).ask second (uuidAt sampleRand 5)
      code).map_cu.lookup second = some (uuidAt sampleRand 5) :=
    find_insert_some.mpr (Or.inl ⟨rfl, rfl⟩)
  have hrid : (List.replicate 6 1 : Bytes).length = enResIdLen := rfl
  exact ⟨_, _, h2, hfirst, since_cons.mpr (Or.inl hgoes'),
    handle_activeAck oneInet (zero_notMem_getUuid _) hai hcu rfl hrid⟩

end aodc.pending_uuids
