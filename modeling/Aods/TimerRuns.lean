-- The runs of a module's timers: sets, kills and polls one after another, at times that may pass
-- the wrap of the clock. The laws say when a finite timer fires and that the module does not sleep
-- past a deadline, and under which polls an endless timer stays endless.
import Aods.ModuleTimers

open machine runs

namespace util.module_timers

/-! ## Histories -/

/-- How often a timer was posted since the newest set of it. -/
def fired (k : Key) : List (Event × List Out) → Nat
  | [] => 0
  | (e, os) :: es => if e.sets k then 0 else posts k os + fired k es

/-- The time of the newest set or post of a timer. -/
def start (k : Key) : List (Event × List Out) → Option Int
  | [] => none
  | (.set ms id escape times obj, _) :: es =>
    if (Event.set ms id escape times obj).sets k then some ms else start k es
  | (.kill _ _ _, _) :: es => start k es
  | (.poll ms, os) :: es => if 0 < posts k os then some ms else start k es

/-- The times of the newest poll and of the sets since. -/
def marks : List (Event × List Out) → List Int
  | [] => []
  | (.set ms _ escape _ _, _) :: es => if 10 ≤ escape then ms :: marks es else marks es
  | (.kill _ _ _, _) :: es => marks es
  | (.poll ms, _) :: _ => [ms]

/-- Each poll comes less than 2 ^ 31 milliseconds after the one before it and after the sets
between. -/
def Regular : List (Event × List Out) → List MsgTimer → Event → Prop
  | es, _, .poll ms => ∀ a ∈ marks es, a ≤ ms ∧ ms < a + 2147483648
  | _, _, _ => True

theorem single_nil : Single [] := by simp [Single]

theorem single_of_run {Ok : List (Event × List Out) → List MsgTimer → Event → Prop}
    {es : List (Event × List Out)} {l : List MsgTimer} (h : Run handle Ok [] es l) : Single l := by
  exact Run.invariant (I := fun _ l => Single l) single_nil
    (fun hs _ hstep => single_handle hs hstep) h

theorem i32_congr {a b : Int} (h : a % 4294967296 = b % 4294967296) : i32 a = i32 b := by
  unfold i32 u32
  rw [h]

/-- The signed view of the time left, when the entry bears the tick of the start. -/
theorem nDifTime_eq {m : MsgTimer} {l : Int} (h : m.un_time = currentTick l) (ms : Int) :
    m.nDifTime (currentTick ms) = i32 (l + m.un_escape.toNat - ms) := by
  have htick : ∀ t : Int, u32 t < 4294967296 ∧ (u32 t : Int) = t % 4294967296 := by
    intro t
    unfold u32
    omega
  obtain ⟨hlt, hl⟩ := htick l
  obtain ⟨hlt', hms⟩ := htick ms
  unfold MsgTimer.nDifTime
  rw [h, UInt32.toNat_sub, UInt32.toNat_add]
  unfold currentTick
  rw [UInt32.toNat_ofNat', UInt32.toNat_ofNat', Nat.mod_eq_of_lt hlt, Nat.mod_eq_of_lt hlt']
  apply i32_congr
  omega

/-! ## Entries and their starts -/

/-- The entry bears the tick of the start of its timer. -/
structure Timed (es : List (Event × List Out)) (m : MsgTimer) (l : Int) : Prop where
  start_eq : start m.key es = some l
  time_eq : m.un_time = currentTick l

theorem Timed.unique {es : List (Event × List Out)} {m : MsgTimer} {k : Key} {l l' : Int}
    (h : Timed es m l) (hk : m.key = k) (h' : start k es = some l') : l = l' := by
  have hstart := h.start_eq
  rw [hk, h'] at hstart
  exact (Option.some.inj hstart).symm

/-- A start that is not behind every mark, and a deadline that is not before every mark. -/
structure Ahead (es : List (Event × List Out)) (m : MsgTimer) (l : Int) : Prop where
  behind : ∃ a ∈ marks es, l ≤ a
  ahead : ∃ a ∈ marks es, a ≤ l + m.un_escape.toNat

/-- Every entry has a start. -/
def Started (es : List (Event × List Out)) (lst_mt : List MsgTimer) : Prop :=
  ∀ k m, entry k lst_mt = some m → ∃ l, Timed es m l

theorem key_of_entry {k : Key} {m : MsgTimer} {l : List MsgTimer} (h : entry k l = some m) :
    m.key = k :=
  (mem_of_entry h).2

/-- What a poll leaves of an entry was an entry, which fired or stayed as it was. -/
theorem poll_cases {l l' : List MsgTimer} {os : List Out} {ms : Int} (hs : Single l)
    (h : handle l (.poll ms) = .ok (l', os)) {k : Key} {m' : MsgTimer}
    (hm' : entry k l' = some m') :
    ∃ m, entry k l = some m ∧ m.un_times ≠ 0 ∧
      ((m.nDifTime (currentTick ms) ≤ 0 ∧ m' = m.fire (currentTick ms) ∧ posts k os = 1) ∨
        (0 < m.nDifTime (currentTick ms) ∧ m' = m ∧ posts k os = 0)) := by
  obtain ⟨hentry, hposts⟩ := handle_poll hs h k
  rw [hentry] at hm'
  obtain ⟨m, hm, hnext⟩ := Option.bind_eq_some_iff.mp hm'
  unfold MsgTimer.next at hnext
  split at hnext
  · cases hnext
  · rename_i hzero
    refine ⟨m, hm, hzero, ?_⟩
    rw [hm, Option.any_some] at hposts
    by_cases hdif : m.nDifTime (currentTick ms) ≤ 0
    · have hdue : m.due (currentTick ms) = true := by simp [MsgTimer.due, hzero, hdif]
      rw [hdue] at hposts hnext
      exact Or.inl ⟨hdif, (Option.some.inj hnext).symm, hposts⟩
    · have hdue : m.due (currentTick ms) = false := by simp [MsgTimer.due, hdif]
      rw [hdue] at hposts hnext
      exact Or.inr ⟨by omega, (Option.some.inj hnext).symm, hposts⟩

/-- What any event leaves of an entry was set by it, stayed as it was, or fired. -/
theorem started_step {es : List (Event × List Out)} {l l' : List MsgTimer} {e : Event}
    {os : List Out} (hs : Single l) (hstart : Started es l) (h : handle l e = .ok (l', os)) :
    Started ((e, os) :: es) l' := by
  intro k m' hm'
  have hkey := key_of_entry hm'
  cases e with
  | set ms id escape times obj =>
    have hentry := (handle_set h k).2
    rw [hentry] at hm'
    split at hm'
    · rename_i hsets
      cases hm'
      exact ⟨ms, ⟨by rw [hkey, start, if_pos hsets], rfl⟩⟩
    · rename_i hsets
      obtain ⟨l0, hl0⟩ := hstart k m' hm'
      refine ⟨l0, ⟨?_, hl0.time_eq⟩⟩
      rw [← hl0.start_eq, hkey, start, if_neg hsets]
  | kill ms id obj =>
    have hentry := (handle_kill h k).2
    rw [hentry] at hm'
    split at hm'
    · cases hm'
    · obtain ⟨l0, hl0⟩ := hstart k m' hm'
      exact ⟨l0, ⟨hl0.start_eq, hl0.time_eq⟩⟩
  | poll ms =>
    obtain ⟨m, hm, _, ⟨_, rfl, hposts⟩ | ⟨_, rfl, hposts⟩⟩ := poll_cases hs h hm'
    · exact ⟨ms, ⟨by rw [hkey, start, if_pos (by omega)], rfl⟩⟩
    · obtain ⟨l0, hl0⟩ := hstart k m' hm
      refine ⟨l0, ⟨?_, hl0.time_eq⟩⟩
      rw [← hl0.start_eq, hkey, start, if_neg (by omega)]

/-- In regular runs the deadlines of all entries are ahead. -/
def OnTime (es : List (Event × List Out)) (lst_mt : List MsgTimer) : Prop :=
  ∀ k m, entry k lst_mt = some m → ∃ l, Timed es m l ∧ Ahead es m l

/-- At a regular poll a deadline is less than 2 ^ 31 milliseconds in the past. -/
theorem Ahead.window {es : List (Event × List Out)} {s : List MsgTimer} {m : MsgTimer} {l ms : Int}
    (h : Ahead es m l) (hreg : Regular es s (.poll ms)) :
    l ≤ ms ∧ -2147483648 < l + m.un_escape.toNat - ms := by
  obtain ⟨⟨a, ha, hla⟩, ⟨b, hb, hlb⟩⟩ := h
  have h1 := hreg a ha
  have h2 := hreg b hb
  omega

/-- The signed view is positive only when the deadline is, and is then no more than the time
left. -/
theorem left_of_nDifTime {es : List (Event × List Out)} {s : List MsgTimer} {m : MsgTimer}
    {l ms : Int} (ht : Timed es m l) (h : Ahead es m l) (hreg : Regular es s (.poll ms))
    (hdif : 0 < m.nDifTime (currentTick ms)) :
    m.nDifTime (currentTick ms) ≤ l + m.un_escape.toNat - ms := by
  have hwin := h.window hreg
  rw [nDifTime_eq ht.time_eq] at hdif ⊢
  unfold i32 u32 at hdif ⊢
  omega

theorem Ahead.weaken {es es' : List (Event × List Out)} {m : MsgTimer} {l : Int} (h : Ahead es m l)
    (hm : ∀ a ∈ marks es, a ∈ marks es') : Ahead es' m l := by
  obtain ⟨⟨a, ha, hla⟩, ⟨b, hb, hlb⟩⟩ := h
  exact ⟨⟨a, hm a ha, hla⟩, ⟨b, hm b hb, hlb⟩⟩

theorem onTime_step {es : List (Event × List Out)} {l l' : List MsgTimer} {e : Event}
    {os : List Out} (hs : Single l) (htime : OnTime es l) (hreg : Regular es l e)
    (h : handle l e = .ok (l', os)) :
    OnTime ((e, os) :: es) l' := by
  have hstarted : Started es l := fun k m hm => (htime k m hm).imp (fun _ hl => hl.1)
  intro k m' hm'
  obtain ⟨l1, hl1⟩ := started_step hs hstarted h k m' hm'
  refine ⟨l1, hl1, ?_⟩
  have hstart := hl1.start_eq
  rw [key_of_entry hm'] at hstart
  cases e with
  | set ms id escape times obj =>
    have hentry := (handle_set h k).2
    rw [hentry] at hm'
    have hmarks : ∀ a ∈ marks es, a ∈ marks ((.set ms id escape times obj, os) :: es) := by
      intro a ha
      rw [marks]
      split
      · exact List.mem_cons_of_mem _ ha
      · exact ha
    split at hm'
    · rename_i hsets
      rw [start, if_pos hsets] at hstart
      cases hstart
      have hten : 10 ≤ escape := by
        simp only [Event.sets, Bool.and_eq_true, decide_eq_true_eq] at hsets
        exact hsets.2
      have hmem : l1 ∈ marks ((.set l1 id escape times obj, os) :: es) := by
        rw [marks, if_pos hten]
        exact List.mem_cons_self
      exact ⟨⟨l1, hmem, Int.le_refl l1⟩, ⟨l1, hmem, by omega⟩⟩
    · rename_i hsets
      rw [start, if_neg hsets] at hstart
      obtain ⟨l0, hl0, hahead⟩ := htime k m' hm'
      exact hl0.unique (key_of_entry hm') hstart ▸ hahead.weaken hmarks
  | kill ms id obj =>
    have hentry := (handle_kill h k).2
    rw [hentry] at hm'
    split at hm'
    · cases hm'
    · rw [start] at hstart
      obtain ⟨l0, hl0, hahead⟩ := htime k m' hm'
      exact hl0.unique (key_of_entry hm') hstart ▸ hahead.weaken (fun a ha => ha)
  | poll ms =>
    have hmem : ms ∈ marks ((.poll ms, os) :: es) := List.mem_singleton_self ms
    obtain ⟨m, hm, _, ⟨_, rfl, hposts⟩ | ⟨hdif, rfl, hposts⟩⟩ := poll_cases hs h hm'
    · rw [start, if_pos (by omega)] at hstart
      cases hstart
      exact ⟨⟨l1, hmem, Int.le_refl l1⟩, ⟨l1, hmem, by omega⟩⟩
    · rw [start, if_neg (by omega)] at hstart
      obtain ⟨l0, hl0, hahead⟩ := htime k m' hm
      have hsame := hl0.unique (key_of_entry hm') hstart
      subst hsame
      have hwin := hahead.window hreg
      have hleft := left_of_nDifTime hl0 hahead hreg hdif
      exact ⟨⟨ms, hmem, hwin.1⟩, ⟨ms, hmem, by omega⟩⟩

theorem onTime_of_run {es : List (Event × List Out)} {l : List MsgTimer}
    (h : Run handle Regular [] es l) :
    OnTime es l := by
  have hnil : Single [] ∧ OnTime [] [] := ⟨single_nil, fun k m hm => by simp [entry] at hm⟩
  exact (Run.invariant (I := fun es l => Single l ∧ OnTime es l) hnil
    (fun hs hreg hstep => ⟨single_handle hs.1 hstep, onTime_step hs.1 hs.2 hreg hstep⟩) h).2

/-! ## Finite timers -/

/-- The count of the entry and the posts so far make the ordered count; without an entry all are
made. -/
def Counted (k : Key) (escape times : UInt32) (es : List (Event × List Out))
    (lst_mt : List MsgTimer) : Prop :=
  (∃ l, start k es = some l) ∧
    match entry k lst_mt with
    | none => fired k es = times.toNat
    | some m => m.un_escape = escape ∧ m.un_times.toNat + fired k es = times.toNat

/-- The timer was set, and since then neither set again nor killed. -/
def SetSince (id escape times : UInt32) (obj : UInt64) (es : List (Event × List Out)) : Prop :=
  Since (fun x => ∃ ms, x.1 = .set ms id escape times obj)
    (fun x => x.1.touches (id, obj) = true) es

theorem counted_set {es : List (Event × List Out)} {l l' : List MsgTimer} {os : List Out} {ms : Int}
    {id escape times : UInt32} {obj : UInt64} (hten : 10 ≤ escape)
    (h : handle l (.set ms id escape times obj) = .ok (l', os)) :
    Counted (id, obj) escape times ((.set ms id escape times obj, os) :: es) l' := by
  have hsets : (Event.set ms id escape times obj).sets (id, obj) = true := by
    simp [Event.sets, hten]
  have hentry := (handle_set h (id, obj)).2
  rw [if_pos hsets] at hentry
  refine ⟨⟨ms, by rw [start, if_pos hsets]⟩, ?_⟩
  rw [hentry, fired, if_pos hsets]
  exact ⟨rfl, rfl⟩

theorem times_fire {m : MsgTimer} (un_cur_time : UInt32) (hzero : m.un_times ≠ 0)
    (hfin : m.un_times < endless) :
    (m.fire un_cur_time).un_times.toNat + 1 = m.un_times.toNat := by
  have hne : endless ≠ m.un_times := fun he => absurd hfin (by rw [he]; exact UInt32.lt_irrefl _)
  have hpos : m.un_times.toNat ≠ 0 := fun he => hzero (UInt32.toNat_inj.mp he)
  have hlt := m.un_times.toNat_lt
  simp only [MsgTimer.fire, ne_eq, hne, not_false_eq_true, if_true]
  rw [UInt32.toNat_sub]
  have hone : (1 : UInt32).toNat = 1 := rfl
  omega

theorem counted_poll {es : List (Event × List Out)} {l l' : List MsgTimer} {os : List Out} {k : Key}
    {ms : Int} {escape times : UInt32} (hs : Single l) (hfin : times < endless)
    (hc : Counted k escape times es l) (h : handle l (.poll ms) = .ok (l', os)) :
    Counted k escape times ((.poll ms, os) :: es) l' := by
  obtain ⟨⟨l0, hl0⟩, hcount⟩ := hc
  obtain ⟨hentry, hposts⟩ := handle_poll hs h k
  have hstart : ∃ l, start k ((.poll ms, os) :: es) = some l := by
    rw [start]
    split
    · exact ⟨ms, rfl⟩
    · exact ⟨l0, hl0⟩
  have hfired : fired k ((.poll ms, os) :: es) = posts k os + fired k es := rfl
  refine ⟨hstart, ?_⟩
  rw [hentry, hfired, hposts]
  cases hm : entry k l with
  | none =>
    rw [hm] at hcount
    simpa using hcount
  | some m =>
    rw [hm] at hcount
    obtain ⟨hescape, hsum⟩ := hcount
    rw [Option.bind_some, Option.any_some]
    unfold MsgTimer.next
    by_cases hzero : m.un_times = 0
    · have hdue : m.due (currentTick ms) = false := by simp [MsgTimer.due, hzero]
      rw [hzero, show (0 : UInt32).toNat = 0 from rfl] at hsum
      simp only [hzero, if_true, hdue, Bool.false_eq_true, if_false]
      omega
    · rw [if_neg hzero]
      cases hdue : m.due (currentTick ms) with
      | false =>
        simp only [Bool.false_eq_true, if_false, Nat.zero_add]
        exact ⟨hescape, hsum⟩
      | true =>
        have hlt : m.un_times < endless := by
          rw [UInt32.lt_iff_toNat_lt] at hfin ⊢
          omega
        have := times_fire (currentTick ms) hzero hlt
        simp only [if_true]
        exact ⟨hescape, by omega⟩

theorem counted_step {es : List (Event × List Out)} {l l' : List MsgTimer} {e : Event}
    {os : List Out} {k : Key} {escape times : UInt32} (hs : Single l) (hfin : times < endless)
    (hc : Counted k escape times es l) (hq : e.touches k = false) (h : handle l e = .ok (l', os)) :
    Counted k escape times ((e, os) :: es) l' := by
  rw [Event.touches, Bool.or_eq_false_iff] at hq
  obtain ⟨hsets, hkills⟩ := hq
  have hfired : fired k ((e, os) :: es) = posts k os + fired k es := by
    rw [fired, if_neg (Bool.eq_false_iff.mp hsets)]
  cases e with
  | set ms id escape' times' obj =>
    obtain ⟨⟨l0, hl0⟩, hcount⟩ := hc
    obtain ⟨rfl, hentry⟩ := handle_set h k
    rw [if_neg (Bool.eq_false_iff.mp hsets)] at hentry
    refine ⟨⟨l0, by rw [start, if_neg (Bool.eq_false_iff.mp hsets), hl0]⟩, ?_⟩
    rw [hentry, hfired, show posts k [] = 0 from rfl, Nat.zero_add]
    exact hcount
  | kill ms id obj =>
    obtain ⟨⟨l0, hl0⟩, hcount⟩ := hc
    obtain ⟨rfl, hentry⟩ := handle_kill h k
    rw [if_neg (Bool.eq_false_iff.mp hkills)] at hentry
    refine ⟨⟨l0, hl0⟩, ?_⟩
    rw [hentry, hfired, show posts k [] = 0 from rfl, Nat.zero_add]
    exact hcount
  | poll ms => exact counted_poll hs hfin hc h

theorem counted_of_run {Ok : List (Event × List Out) → List MsgTimer → Event → Prop}
    {es : List (Event × List Out)} {l : List MsgTimer} {id escape times : UInt32} {obj : UInt64}
    (h : Run handle Ok [] es l) (hten : 10 ≤ escape) (hfin : times < endless)
    (hset : SetSince id escape times obj es) : Counted (id, obj) escape times es l := by
  have hnil : Single [] ∧
      (SetSince id escape times obj [] → Counted (id, obj) escape times [] []) :=
    ⟨single_nil, fun hset => absurd hset (since_nil _ _)⟩
  refine (Run.invariant (I := fun es l => Single l ∧
    (SetSince id escape times obj es → Counted (id, obj) escape times es l)) hnil ?_ h).2 hset
  intro es l e l' os hI _ hstep
  refine ⟨single_handle hI.1 hstep, fun hset => ?_⟩
  rcases since_cons.mp hset with ⟨ms, rfl⟩ | ⟨hq, hold⟩
  · exact counted_set hten hstep
  · exact counted_step hI.1 hfin (hI.2 hold) (by simpa using hq) hstep

/-- The module sleeps no longer than until the next deadline of a timer in its list. -/
theorem sleep_le {es : List (Event × List Out)} {l l' : List MsgTimer} {os : List Out} {ms : Int}
    (hs : Single l) (htime : OnTime es l) (hreg : Regular es l (.poll ms))
    (h : handle l (.poll ms) = .ok (l', os)) {m' : MsgTimer} (hm' : m' ∈ l') :
    ∃ d, start m'.key ((.poll ms, os) :: es) = some d ∧
      ((procTimer (currentTick ms) l).un_min_sleep_time : Int) ≤ d + m'.un_escape.toNat - ms := by
  have hentry : entry m'.key l' = some m' := entry_of_mem (single_handle hs h) hm'
  obtain ⟨m, hm, hzero, hcase⟩ := poll_cases hs h hentry
  obtain ⟨l0, hl0, hahead⟩ := htime _ m hm
  have hle := procTimer_le_rest (currentTick ms) (mem_of_entry hm).1 hzero
  unfold MsgTimer.rest at hle
  rcases hcase with ⟨hdif, rfl, hposts⟩ | ⟨hdif, rfl, hposts⟩
  · have hdue : m.due (currentTick ms) = true := by simp [MsgTimer.due, hzero, hdif]
    rw [if_pos hdue] at hle
    refine ⟨ms, by rw [start, if_pos (by omega)], ?_⟩
    have hescape : (m.fire (currentTick ms)).un_escape = m.un_escape := rfl
    rw [hescape]
    omega
  · have hdue : m'.due (currentTick ms) = false := by
      have : ¬ m'.nDifTime (currentTick ms) ≤ 0 := by omega
      simp [MsgTimer.due, this]
    have hleft := left_of_nDifTime hl0 hahead hreg hdif
    have hrange := i32_range (m'.un_time + m'.un_escape - currentTick ms).toNat
    have hu : (u32 (m'.nDifTime (currentTick ms)) : Int) = m'.nDifTime (currentTick ms) := by
      unfold MsgTimer.nDifTime at hdif ⊢
      unfold u32
      omega
    rw [if_neg (Bool.eq_false_iff.mp hdue)] at hle
    refine ⟨l0, by rw [start, if_neg (by omega)]; exact hl0.start_eq, ?_⟩
    omega

/-- An entry of a regular run is due just when its period is over, if the period fits an `int`. -/
theorem due_iff {es : List (Event × List Out)} {s : List MsgTimer} {m : MsgTimer} {l ms : Int}
    (ht : Timed es m l) (h : Ahead es m l) (hreg : Regular es s (.poll ms))
    (hint : m.un_escape.toNat < 2147483648) (hzero : m.un_times ≠ 0) :
    m.due (currentTick ms) = true ↔ l + m.un_escape.toNat ≤ ms := by
  have hwin := h.window hreg
  have hdif : m.nDifTime (currentTick ms) = l + m.un_escape.toNat - ms := by
    rw [nDifTime_eq ht.time_eq, i32_of_range (by omega) (by omega)]
  simp only [MsgTimer.due, Bool.and_eq_true, decide_eq_true_eq, hdif, ne_eq, hzero,
    not_false_eq_true, true_and]
  omega

/-- A regular poll posts a counted timer just when its count is not made and its period is over. -/
theorem posts_of_counted {es : List (Event × List Out)} {s s' : List MsgTimer} {os : List Out}
    {k : Key} {escape times : UInt32} {l ms : Int} (hs : Single s) (htime : OnTime es s)
    (hint : escape.toNat < 2147483648) (hl : start k es = some l)
    (hcount : Counted k escape times es s) (hreg : Regular es s (.poll ms))
    (hstep : handle s (.poll ms) = .ok (s', os)) :
    posts k os = if fired k es < times.toNat ∧ l + escape.toNat ≤ ms then 1 else 0 := by
  obtain ⟨_, hcount⟩ := hcount
  rw [(handle_poll hs hstep k).2]
  cases hm : entry k s with
  | none =>
    rw [hm] at hcount
    have hall : fired k es = times.toNat := hcount
    simp [hall]
  | some m =>
    rw [hm] at hcount
    obtain ⟨rfl, hsum⟩ := hcount
    obtain ⟨l0, hl0, hahead⟩ := htime _ m hm
    have hsame := hl0.unique (key_of_entry hm) hl
    subst hsame
    rw [Option.any_some]
    by_cases hzero : m.un_times = 0
    · have hdue : m.due (currentTick ms) = false := by simp [MsgTimer.due, hzero]
      rw [hzero, show (0 : UInt32).toNat = 0 from rfl] at hsum
      rw [hdue, if_neg Bool.false_ne_true, if_neg (by omega)]
    · have hleft : m.un_times.toNat ≠ 0 := fun he => hzero (UInt32.toNat_inj.mp he)
      have hdue := due_iff hl0 hahead hreg hint hzero
      by_cases hover : l0 + m.un_escape.toNat ≤ ms
      · rw [if_pos (hdue.mpr hover), if_pos ⟨by omega, hover⟩]
      · rw [if_neg (mt hdue.mp hover), if_neg (fun hc => hover hc.2)]

/-- A finite timer that was set and not touched since is posted at the first poll behind each
period, as often as it was ordered and no oftener; then it leaves the list. No poll lets the module
sleep past a deadline. -/
theorem finite_timers_fire_as_ordered {es : List (Event × List Out)} {s : List MsgTimer}
    (hrun : Run handle Regular [] es s) {id escape times : UInt32} {obj : UInt64}
    (hten : 10 ≤ escape) (hint : escape.toNat < 2147483648) (hfin : times < endless)
    (hset : SetSince id escape times obj es) :
    fired (id, obj) es ≤ times.toNat ∧
      (fired (id, obj) es < times.toNat → ∃ m ∈ s, m.key = (id, obj) ∧ m.un_times ≠ 0) ∧
      ∃ l, start (id, obj) es = some l ∧
        ∀ ms s' os, Regular es s (.poll ms) → handle s (.poll ms) = .ok (s', os) →
          posts (id, obj) os =
            (if fired (id, obj) es < times.toNat ∧ l + escape.toNat ≤ ms then 1 else 0) ∧
          (fired (id, obj) es = times.toNat → ∀ m ∈ s', m.key ≠ (id, obj)) ∧
          ∀ un_min : Nat, .sleep un_min ∈ os →
            ∀ m ∈ s', ∃ d, start m.key ((.poll ms, os) :: es) = some d ∧
            (un_min : Int) ≤ d + m.un_escape.toNat - ms := by
  have hs := single_of_run hrun
  have htime := onTime_of_run hrun
  obtain ⟨⟨l, hl⟩, hcount⟩ := counted_of_run hrun hten hfin hset
  refine ⟨?_, ?_, l, hl, fun ms s' os hreg hstep => ⟨?_, ?_, ?_⟩⟩
  · cases hm : entry (id, obj) s with
    | none =>
      rw [hm] at hcount
      exact hcount.le
    | some m =>
      rw [hm] at hcount
      have := hcount.2
      omega
  · intro hlt
    cases hm : entry (id, obj) s with
    | none =>
      rw [hm] at hcount
      exact absurd hcount hlt.ne
    | some m =>
      rw [hm] at hcount
      refine ⟨m, (mem_of_entry hm).1, (mem_of_entry hm).2, fun hzero => ?_⟩
      have hsum := hcount.2
      rw [hzero, show (0 : UInt32).toNat = 0 from rfl] at hsum
      omega
  · exact posts_of_counted hs htime hint hl (counted_of_run hrun hten hfin hset) hreg hstep
  · intro hall m' hm' hkey
    have hentry : entry (id, obj) s' = some m' := hkey ▸ entry_of_mem (single_handle hs hstep) hm'
    obtain ⟨m, hm, hzero, _⟩ := poll_cases hs hstep hentry
    rw [hm] at hcount
    have hsum := hcount.2
    exact hzero (UInt32.toNat_inj.mp (by rw [show (0 : UInt32).toNat = 0 from rfl]; omega))
  · intro un_min hmin m' hm'
    have hsleep : un_min = (procTimer (currentTick ms) s).un_min_sleep_time := by
      cases hstep
      simpa using hmin
    rw [hsleep]
    exact sleep_le hs htime hreg hstep hm'

/-- The run of a timer set at 0 for one post after ten milliseconds. -/
def oneShot : List (Event × List Out) := [(.set 0 1 10 1 7, [])]

/-- It is posted at ten milliseconds. -/
theorem one_shot_timer_fires :
    fired (1, 7) oneShot ≤ 1 ∧ posts (1, 7) [.on_timer ⟨1, 10, 0, 1, 7⟩, .sleep 10] = 1 := by
  have hrun : Run handle Regular [] oneShot [⟨1, 10, 0, 1, 7⟩] := .next .start trivial rfl
  have hset : SetSince 1 10 1 7 oneShot := since_cons.mpr (Or.inl ⟨0, rfl⟩)
  obtain ⟨hle, _, l, hl, hpoll⟩ :=
    finite_timers_fire_as_ordered hrun (by decide) (by decide) (by decide) hset
  cases hl
  have hreg : Regular oneShot [⟨1, 10, 0, 1, 7⟩] (.poll 10) := by
    intro a ha
    rw [show marks oneShot = [0] from rfl, List.mem_singleton] at ha
    omega
  exact ⟨hle, (hpoll 10 [⟨1, 10, 10, 0, 7⟩] _ hreg rfl).1⟩

/-! ## Endless timers -/

/-- The time left has the sign that its signed view shows, and a poll behind the period comes at the
last tick before the clock wraps. -/
def Spares (l : Int) (escape : UInt32) (ms : Int) : Prop :=
  let left := l + escape.toNat - ms
  (0 < left → 0 < left % 4294967296 ∧ left % 4294967296 < 2147483648) ∧
    (left ≤ 0 → -left % 4294967296 ≤ 2147483648 ∧ currentTick ms = 0xFFFFFFFF)

/-- Every poll since the newest set of a timer spares it. -/
def Spared (k : Key) (escape : UInt32) : List (Event × List Out) → Prop
  | [] => True
  | (.set ms id escape' times obj, _) :: es =>
    if (Event.set ms id escape' times obj).sets k then True else Spared k escape es
  | (.kill _ _ _, _) :: es => Spared k escape es
  | (.poll ms, _) :: es => Spared k escape es ∧ ∀ l, start k es = some l → Spares l escape ms

/-- The entry of an endless timer with its start. -/
def Endless (k : Key) (escape : UInt32) (es : List (Event × List Out)) (lst_mt : List MsgTimer) :
    Prop :=
  ∃ l m, start k es = some l ∧ entry k lst_mt = some m ∧ m.un_escape = escape ∧
    m.un_times = endless ∧
    m.un_time = currentTick l

theorem i32_nonpos_iff (d : Int) :
    i32 d ≤ 0 ↔ ¬ (0 < d % 4294967296 ∧ d % 4294967296 < 2147483648) := by
  unfold i32 u32
  omega

/-- A poll fires an endless timer just when its period is over, and leaves it endless, just when it
spares it. -/
theorem spares_iff {l l' : List MsgTimer} {os : List Out} {ms l0 : Int} {k : Key} {m : MsgTimer}
    (hs : Single l) (hm : entry k l = some m) (htimes : m.un_times = endless)
    (htime : m.un_time = currentTick l0) (h : handle l (.poll ms) = .ok (l', os)) :
    ((0 < posts k os ↔ l0 + m.un_escape.toNat ≤ ms) ∧ ∃ m' ∈ l', m'.key = k ∧
      m'.un_times = endless) ↔
      Spares l0 m.un_escape ms := by
  obtain ⟨hentry, hposts⟩ := handle_poll hs h k
  have hzero : m.un_times ≠ 0 := by
    rw [htimes]
    decide
  have hdif := nDifTime_eq htime ms
  have hsign := i32_nonpos_iff (l0 + m.un_escape.toNat - ms)
  have hmem : ∀ m1, entry k l' = some m1 →
      ((∃ m' ∈ l', m'.key = k ∧ m'.un_times = endless) ↔ m1.un_times = endless) := by
    intro m1 hm1
    constructor
    · rintro ⟨m', hm', rfl, hend⟩
      have := entry_of_mem (single_handle hs h) hm'
      rw [hm1] at this
      exact Option.some.inj this ▸ hend
    · intro hend
      exact ⟨m1, (mem_of_entry hm1).1, (mem_of_entry hm1).2, hend⟩
  rw [hm, Option.bind_some, MsgTimer.next, if_neg hzero] at hentry
  rw [hm, Option.any_some] at hposts
  rw [hmem _ hentry]
  by_cases hover : m.nDifTime (currentTick ms) ≤ 0
  · have hdue : m.due (currentTick ms) = true := by simp [MsgTimer.due, hzero, hover]
    have hfire : (m.fire (currentTick ms)).un_times = currentTick ms := by
      simp [MsgTimer.fire, htimes]
    rw [hdif] at hover
    rw [hposts, hdue, if_pos rfl, if_pos rfl, hfire]
    unfold Spares endless
    dsimp only
    constructor
    · rintro ⟨hiff, htick⟩
      have hle := hiff.mp Nat.one_pos
      exact ⟨fun hpos => by omega, fun _ => ⟨by omega, htick⟩⟩
    · rintro ⟨hpos, hneg⟩
      have hle : l0 + m.un_escape.toNat - ms ≤ 0 := by
        by_contra hgt
        exact hsign.mp hover (hpos (by omega))
      exact ⟨⟨fun _ => by omega, fun _ => Nat.one_pos⟩, (hneg hle).2⟩
  · have hdue : m.due (currentTick ms) = false := by simp [MsgTimer.due, hover]
    rw [hdif] at hover
    have hview := not_not.mp (mt hsign.mpr hover)
    rw [hposts, hdue, if_neg Bool.false_ne_true, if_neg Bool.false_ne_true]
    unfold Spares
    dsimp only
    constructor
    · rintro ⟨hiff, _⟩
      have hgt : ¬ l0 + m.un_escape.toNat ≤ ms := fun hle => absurd (hiff.mpr hle) (Nat.lt_irrefl 0)
      exact ⟨fun _ => hview, fun hle => by omega⟩
    · rintro ⟨_, hneg⟩
      refine ⟨⟨fun h0 => absurd h0 (Nat.lt_irrefl 0), fun hle => ?_⟩, htimes⟩
      have := (hneg (by omega)).1
      omega

theorem endless_set {es : List (Event × List Out)} {l l' : List MsgTimer} {os : List Out} {ms : Int}
    {id escape : UInt32} {obj : UInt64} (hten : 10 ≤ escape)
    (h : handle l (.set ms id escape endless obj) = .ok (l', os)) :
    Endless (id, obj) escape ((.set ms id escape endless obj, os) :: es) l' := by
  have hsets : (Event.set ms id escape endless obj).sets (id, obj) = true := by
    simp [Event.sets, hten]
  have hentry := (handle_set h (id, obj)).2
  rw [if_pos hsets] at hentry
  exact ⟨ms, _, by rw [start, if_pos hsets], hentry, rfl, rfl, rfl⟩

theorem endless_step {es : List (Event × List Out)} {l l' : List MsgTimer} {e : Event}
    {os : List Out} {k : Key} {escape : UInt32} (hs : Single l) (hend : Endless k escape es l)
    (hq : e.touches k = false) (hspared : Spared k escape ((e, os) :: es))
    (h : handle l e = .ok (l', os)) :
    Endless k escape ((e, os) :: es) l' := by
  obtain ⟨l0, m, hl0, hm, rfl, htimes, htime⟩ := hend
  rw [Event.touches, Bool.or_eq_false_iff] at hq
  obtain ⟨hsets, hkills⟩ := hq
  cases e with
  | set ms id escape' times' obj =>
    have hnot : ¬ (Event.set ms id escape' times' obj).sets k = true := Bool.eq_false_iff.mp hsets
    have hentry := (handle_set h k).2
    rw [if_neg hnot] at hentry
    exact ⟨l0, m, by rw [start, if_neg hnot, hl0], hentry.trans hm, rfl, htimes, htime⟩
  | kill ms id obj =>
    have hentry := (handle_kill h k).2
    rw [hkills, if_neg Bool.false_ne_true] at hentry
    exact ⟨l0, m, hl0, hentry.trans hm, rfl, htimes, htime⟩
  | poll ms =>
    obtain ⟨_, m', hm', hkey, hend⟩ := (spares_iff hs hm htimes htime h).mpr (hspared.2 l0 hl0)
    have hentry : entry k l' = some m' := hkey ▸ entry_of_mem (single_handle hs h) hm'
    obtain ⟨m1, hm1, _, ⟨_, rfl, hposts⟩ | ⟨_, rfl, hposts⟩⟩ := poll_cases hs h hentry
    · rw [hm] at hm1
      cases hm1
      exact ⟨ms, _, by rw [start, if_pos (by omega)], hentry, rfl, hend, rfl⟩
    · rw [hm] at hm1
      cases hm1
      exact ⟨l0, _, by rw [start, if_neg (by omega), hl0], hentry, rfl, hend, htime⟩

theorem Spared.tail {k : Key} {escape : UInt32} {e : Event} {os : List Out}
    {es : List (Event × List Out)} (hq : e.touches k = false)
    (h : Spared k escape ((e, os) :: es)) : Spared k escape es := by
  rw [Event.touches, Bool.or_eq_false_iff] at hq
  cases e with
  | set ms id escape' times obj =>
    rw [Spared, hq.1] at h
    exact h
  | kill ms id obj => exact h
  | poll ms => exact h.1

/-- In a run whose polls all spare it, an endless timer stays in the list with its count, and every
further poll fires it just when its period is over and leaves it endless, just when that poll spares
it too. -/
theorem a_spared_endless_timer_never_expires {es : List (Event × List Out)} {s : List MsgTimer}
    (hrun : Run handle Any [] es s) {id escape : UInt32} {obj : UInt64} (hten : 10 ≤ escape)
    (hset : SetSince id escape endless obj es) (hspared : Spared (id, obj) escape es) :
    (∃ m ∈ s, m.key = (id, obj) ∧ m.un_escape = escape ∧ m.un_times = 0xFFFFFFFF) ∧
      ∃ l, start (id, obj) es = some l ∧ ∀ ms s' os, handle s (.poll ms) = .ok (s', os) →
        (((0 < posts (id, obj) os ↔ l + escape.toNat ≤ ms) ∧
          ∃ m ∈ s', m.key = (id, obj) ∧ m.un_times = 0xFFFFFFFF) ↔ Spares l escape ms) := by
  have hnil : Single [] ∧ (SetSince id escape endless obj [] → Spared (id, obj) escape [] →
      Endless (id, obj) escape [] []) := ⟨single_nil, fun hset => absurd hset (since_nil _ _)⟩
  have hinv : ∀ {es s}, Run handle Any [] es s → Single s ∧ (SetSince id escape endless obj es →
      Spared (id, obj) escape es → Endless (id, obj) escape es s) := by
    intro es s hrun
    refine Run.invariant (I := fun es s => Single s ∧ (SetSince id escape endless obj es →
      Spared (id, obj) escape es → Endless (id, obj) escape es s)) hnil ?_ hrun
    intro es l e l' os hI _ hstep
    refine ⟨single_handle hI.1 hstep, fun hset hspared => ?_⟩
    rcases since_cons.mp hset with ⟨ms, rfl⟩ | ⟨hq, hold⟩
    · exact endless_set hten hstep
    · have hq : e.touches (id, obj) = false := by simpa using hq
      exact endless_step hI.1 (hI.2 hold (hspared.tail hq)) hq hspared hstep
  obtain ⟨hs, hend⟩ := hinv hrun
  obtain ⟨l, m, hl, hm, rfl, htimes, htime⟩ := hend hset hspared
  refine ⟨⟨m, (mem_of_entry hm).1, (mem_of_entry hm).2, rfl, htimes⟩, l, hl,
    fun ms s' os hstep => ?_⟩
  exact spares_iff hs hm htimes htime hstep

/-- The run of an endless timer set a period before the wrap of the clock. -/
def heartbeat : List (Event × List Out) := [(.set 4294966295 1 1000 endless 7, [])]

/-- A poll at the last tick before the wrap leaves it endless. -/
theorem an_endless_timer_spared_at_the_wrap :
    ∃ m ∈ (procTimer (currentTick 4294967295) [⟨1, 1000, 4294966295, endless, 7⟩]).lst_mt,
      m.key = (1, 7) ∧ m.un_times = 0xFFFFFFFF := by
  have hrun : Run handle Any [] heartbeat [⟨1, 1000, 4294966295, endless, 7⟩] :=
    .next .start trivial rfl
  have hset : SetSince 1 1000 endless 7 heartbeat := since_cons.mpr (Or.inl ⟨_, rfl⟩)
  obtain ⟨_, l, hl, hpoll⟩ := a_spared_endless_timer_never_expires hrun (by decide) hset trivial
  cases hl
  exact ((hpoll 4294967295 _ _ rfl).mpr (by unfold Spares; decide)).2

/-- At any other tick the first post of an endless timer writes the tick over its count. -/
theorem an_endless_timer_gets_a_count :
    ¬ ∀ (es : List (Event × List Out)) (s : List MsgTimer), Run handle Any [] es s →
      SetSince 1 1000 endless 7 es → ∃ m ∈ s, m.key = (1, 7) ∧ m.un_times = 0xFFFFFFFF := by
  intro hall
  have hset : Run handle Any [] [(.set 0 1 1000 endless 7, [])] [⟨1, 1000, 0, endless, 7⟩] :=
    .next .start trivial rfl
  have hpoll : Run handle Any [] [(.poll 1000, [.on_timer ⟨1, 1000, 0, endless, 7⟩, .sleep 1000]),
      (.set 0 1 1000 endless 7, [])] [⟨1, 1000, 1000, 1000, 7⟩] := .next hset trivial rfl
  have hsince : SetSince 1 1000 endless 7
      [(.poll 1000, [.on_timer ⟨1, 1000, 0, endless, 7⟩, .sleep 1000]),
      (.set 0 1 1000 endless 7, [])] :=
    since_cons.mpr (Or.inr ⟨Bool.false_ne_true, since_cons.mpr (Or.inl ⟨0, rfl⟩)⟩)
  obtain ⟨m, hm, _, htimes⟩ := hall _ _ hpoll hsince
  cases List.mem_singleton.mp hm
  exact absurd htimes (by decide)

end util.module_timers
