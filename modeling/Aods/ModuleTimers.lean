-- The timers of `CModule`: `SetTimer` and `KillTimer`, what the module does with their messages,
-- and `ProcTimer`, which walks over the list at every round. The clock is a counter of milliseconds
-- that wraps. The laws say when timers fire, how often, and how long the module may sleep.
import Aods.Machine
import Aods.Runs

open machine runs

namespace util.module_timers

/-! ## The model -/

/-- `MSG_TIMER`: the data of the messages, and an entry of the list. -/
structure MsgTimer where
  un_timer_id : UInt32
  un_escape : UInt32
  un_time : UInt32
  un_times : UInt32
  p_mt : UInt64
  deriving DecidableEq

/-- `CAoTime::CurrentTick` at a time of the monotonic clock, read as an `unsigned int`. -/
def currentTick (ms : Int) : UInt32 := UInt32.ofNat (u32 ms)

/-- The count without an end. -/
def endless : UInt32 := 0xFFFFFFFF

/-- What `SetTimer` posts. A period below ten milliseconds is refused. -/
def setTimer (ms : Int) (un_timer_id un_escape un_times : UInt32) (p_timer_obj : UInt64) :
    Option MsgTimer :=
  if un_escape < 10 then none
  else some ⟨un_timer_id, un_escape, currentTick ms, un_times, p_timer_obj⟩

/-- What `KillTimer` posts. -/
def killTimer (ms : Int) (un_timer_id : UInt32) (p_timer_obj : UInt64) : MsgTimer :=
  ⟨un_timer_id, 0, currentTick ms, 0, p_timer_obj⟩

def onSetTimer (p_mt : MsgTimer) : List MsgTimer → List MsgTimer
  | [] => [p_mt]
  | p_om :: rest =>
    if p_om.p_mt = p_mt.p_mt ∧ p_mt.un_timer_id = p_om.un_timer_id then
      { p_om with
        un_escape := p_mt.un_escape, un_time := p_mt.un_time, un_times := p_mt.un_times } :: rest
    else p_om :: onSetTimer p_mt rest

def onKillTimer (p_mt : MsgTimer) (lst_mt : List MsgTimer) : List MsgTimer :=
  lst_mt.filter (fun p_om =>
    p_om.p_mt ≠ p_mt.p_mt || (0xFFFFFFFF ≠ p_mt.un_timer_id && p_mt.un_timer_id ≠ p_om.un_timer_id))

/-- The signed view of the time left. -/
def MsgTimer.nDifTime (un_cur_time : UInt32) (p_mt : MsgTimer) : Int :=
  i32 (p_mt.un_time + p_mt.un_escape - un_cur_time).toNat

/-- What a timer that fires becomes. -/
def MsgTimer.fire (un_cur_time : UInt32) (p_mt : MsgTimer) : MsgTimer :=
  { p_mt with
    un_time := un_cur_time
    -- the last branch writes the time, which is the tick by now, where it means the count
    un_times := if endless ≠ p_mt.un_times then p_mt.un_times - 1 else un_cur_time }

/-- What the loop of `ProcTimer` has come to: the list so far, what it posted, and the least
sleep. -/
structure Walk where
  lst_mt : List MsgTimer
  posted : List MsgTimer
  un_min_sleep_time : Nat

/-- One turn of the loop. -/
def turn (un_cur_time : UInt32) (w : Walk) (p_mt : MsgTimer) : Walk :=
  if p_mt.un_times = 0 then w
  else
    let n_dif_time := p_mt.nDifTime un_cur_time
    if n_dif_time ≤ 0 then
      let n_dif_time := i32 p_mt.un_escape.toNat
      ⟨w.lst_mt ++ [p_mt.fire un_cur_time], w.posted ++ [p_mt],
        if w.un_min_sleep_time < u32 n_dif_time then w.un_min_sleep_time else u32 n_dif_time⟩
    else
      ⟨w.lst_mt ++ [p_mt], w.posted,
        if w.un_min_sleep_time < u32 n_dif_time then w.un_min_sleep_time else u32 n_dif_time⟩

def procTimer (un_cur_time : UInt32) (lst_mt : List MsgTimer) : Walk :=
  lst_mt.foldl (turn un_cur_time) ⟨[], [], 100000⟩

/-- A call of `SetTimer` or `KillTimer` whose message the module has come to, or a call of
`ProcTimer`. Times are those of the monotonic clock, in milliseconds. -/
inductive Event where
  | set (ms : Int) (un_timer_id un_escape un_times : UInt32) (p_timer_obj : UInt64)
  | kill (ms : Int) (un_timer_id : UInt32) (p_timer_obj : UInt64)
  | poll (ms : Int)

/-- A post of `EN_AO_MSG_ONTIMER`, or what `ProcTimer` returns. -/
inductive Out where
  | on_timer (p_mt : MsgTimer)
  | sleep (un_min : Nat)

/-- The list behind a call of `SetTimer`, which may not have posted. -/
def behindSet (posted : Option MsgTimer) (lst_mt : List MsgTimer) : List MsgTimer :=
  match posted with
  | none => lst_mt
  | some mt => onSetTimer mt lst_mt

def handle : Handler (List MsgTimer) Event Out Fault
  | lst_mt, .set ms un_timer_id un_escape un_times p_timer_obj =>
    .ok (behindSet (setTimer ms un_timer_id un_escape un_times p_timer_obj) lst_mt, [])
  | lst_mt, .kill ms un_timer_id p_timer_obj =>
    .ok (onKillTimer (killTimer ms un_timer_id p_timer_obj) lst_mt, [])
  | lst_mt, .poll ms =>
    let w := procTimer (currentTick ms) lst_mt
    .ok (w.lst_mt, w.posted.map .on_timer ++ [.sleep w.un_min_sleep_time])

/-! ## Keys -/

/-- What the module tells timers apart by. -/
abbrev Key := UInt32 × UInt64

def MsgTimer.key (m : MsgTimer) : Key := (m.un_timer_id, m.p_mt)

/-- The entry of a key. -/
def entry (k : Key) (lst_mt : List MsgTimer) : Option MsgTimer := lst_mt.find? (fun m => m.key = k)

/-- No two entries have one key. -/
def Single (lst_mt : List MsgTimer) : Prop := (lst_mt.map MsgTimer.key).Nodup

def Event.sets (k : Key) : Event → Bool
  | .set _ un_timer_id un_escape _ p_timer_obj => (un_timer_id, p_timer_obj) = k && 10 ≤ un_escape
  | _ => false

def Event.kills (k : Key) : Event → Bool
  | .kill _ un_timer_id p_timer_obj =>
    p_timer_obj = k.2 && (un_timer_id = 0xFFFFFFFF || un_timer_id = k.1)
  | _ => false

/-- A set or a kill of the timer. -/
def Event.touches (k : Key) (e : Event) : Bool := e.sets k || e.kills k

/-- How often a timer was posted. -/
def posts (k : Key) (os : List Out) : Nat :=
  os.countP (fun o => match o with
    | .on_timer p_mt => p_mt.key = k
    | _ => false)

/-! ## What a step does to the entry of a key -/

/-- The timer is posted at this tick. -/
def MsgTimer.due (un_cur_time : UInt32) (m : MsgTimer) : Bool :=
  m.un_times ≠ 0 && m.nDifTime un_cur_time ≤ 0

/-- What a poll leaves of an entry. -/
def MsgTimer.next (un_cur_time : UInt32) (m : MsgTimer) : Option MsgTimer :=
  if m.un_times = 0 then none else some (if m.due un_cur_time then m.fire un_cur_time else m)

theorem key_next {un_cur_time : UInt32} {m m' : MsgTimer} (h : m.next un_cur_time = some m') :
    m'.key = m.key := by
  unfold MsgTimer.next at h
  split at h
  · cases h
  · cases h
    split
    · rfl
    · rfl

/-- How long a timer lets the module sleep. -/
def MsgTimer.rest (un_cur_time : UInt32) (m : MsgTimer) : Nat :=
  if m.due un_cur_time then m.un_escape.toNat else u32 (m.nDifTime un_cur_time)

/-- A turn keeps what is left of the entry, posts it when it is due, and sleeps no longer than it
allows. -/
theorem turn_eq (un_cur_time : UInt32) (w : Walk) (m : MsgTimer) :
    (turn un_cur_time w m).lst_mt = w.lst_mt ++ (m.next un_cur_time).toList ∧
      (turn un_cur_time w m).posted = w.posted ++ [m].filter (MsgTimer.due un_cur_time) ∧
      (turn un_cur_time w m).un_min_sleep_time ≤ w.un_min_sleep_time ∧
      (m.un_times ≠ 0 → (turn un_cur_time w m).un_min_sleep_time ≤ m.rest un_cur_time) := by
  unfold turn MsgTimer.rest MsgTimer.next
  by_cases hzero : m.un_times = 0
  · simp [hzero, MsgTimer.due]
  · by_cases hdif : m.nDifTime un_cur_time ≤ 0
    · have hdue : m.due un_cur_time = true := by simp [MsgTimer.due, hzero, hdif]
      have hescape : u32 (i32 m.un_escape.toNat) = m.un_escape.toNat := by
        have := m.un_escape.toNat_lt
        unfold i32 u32
        omega
      simp only [hzero, if_false, hdif, if_true, hdue, hescape, List.filter_cons, List.filter_nil,
        Option.toList]
      refine ⟨trivial, trivial, ?_, fun _ => ?_⟩
      · split <;> omega
      · split <;> omega
    · have hdue : m.due un_cur_time = false := by simp [MsgTimer.due, hdif]
      simp only [hzero, if_false, hdif, hdue, List.filter_cons, List.filter_nil, Option.toList,
        Bool.false_eq_true, List.append_nil]
      refine ⟨trivial, trivial, ?_, fun _ => ?_⟩
      · split <;> omega
      · split <;> omega

/-- The walk from where it has come to. -/
theorem foldl_turn (un_cur_time : UInt32) (l : List MsgTimer) (w : Walk) :
    (l.foldl (turn un_cur_time) w).lst_mt = w.lst_mt ++ l.filterMap (MsgTimer.next un_cur_time) ∧
      (l.foldl (turn un_cur_time) w).posted = w.posted ++ l.filter (MsgTimer.due un_cur_time) ∧
      (l.foldl (turn un_cur_time) w).un_min_sleep_time ≤ w.un_min_sleep_time ∧
      ∀ m ∈ l, m.un_times ≠ 0 →
        (l.foldl (turn un_cur_time) w).un_min_sleep_time ≤ m.rest un_cur_time := by
  induction l generalizing w with
  | nil => simp
  | cons m l ih =>
    obtain ⟨hlst, hposted, hmin, hrest⟩ := turn_eq un_cur_time w m
    obtain ⟨ihlst, ihposted, ihmin, ihrest⟩ := ih (turn un_cur_time w m)
    rw [List.foldl_cons]
    refine ⟨?_, ?_, ihmin.trans hmin, ?_⟩
    · rw [ihlst, hlst, List.append_assoc]
      cases hn : m.next un_cur_time with
      | none => simp [hn]
      | some m' => simp [hn]
    · rw [ihposted, hposted, List.append_assoc, ← List.filter_append, List.singleton_append]
    · intro x hx hzero
      rcases List.mem_cons.mp hx with rfl | hx
      · exact ihmin.trans (hrest hzero)
      · exact ihrest x hx hzero

theorem lst_procTimer (un_cur_time : UInt32) (l : List MsgTimer) :
    (procTimer un_cur_time l).lst_mt = l.filterMap (MsgTimer.next un_cur_time) :=
  (foldl_turn un_cur_time l ⟨[], [], 100000⟩).1

theorem posted_procTimer (un_cur_time : UInt32) (l : List MsgTimer) :
    (procTimer un_cur_time l).posted = l.filter (MsgTimer.due un_cur_time) :=
  (foldl_turn un_cur_time l ⟨[], [], 100000⟩).2.1

theorem procTimer_le (un_cur_time : UInt32) (l : List MsgTimer) :
    (procTimer un_cur_time l).un_min_sleep_time ≤ 100000 :=
  (foldl_turn un_cur_time l ⟨[], [], 100000⟩).2.2.1

theorem procTimer_le_rest (un_cur_time : UInt32) {l : List MsgTimer} {m : MsgTimer} (hm : m ∈ l)
    (h : m.un_times ≠ 0) : (procTimer un_cur_time l).un_min_sleep_time ≤ m.rest un_cur_time :=
  (foldl_turn un_cur_time l ⟨[], [], 100000⟩).2.2.2 m hm h

/-- `OnSetTimer` leaves one entry of the key, with the data of the message. -/
theorem entry_onSetTimer (m : MsgTimer) (l : List MsgTimer) (k : Key) :
    entry k (onSetTimer m l) = if m.key = k then some m else entry k l := by
  induction l with
  | nil => by_cases hk : m.key = k <;> simp [onSetTimer, entry, hk]
  | cons om l ih =>
    unfold onSetTimer
    by_cases hsame : om.p_mt = m.p_mt ∧ m.un_timer_id = om.un_timer_id
    · have hom : { om with
          un_escape := m.un_escape, un_time := m.un_time, un_times := m.un_times } = m := by
        obtain ⟨hp, hid⟩ := hsame
        obtain ⟨id, escape, time, times, obj⟩ := m
        simp_all
      have hkey : om.key = m.key := by simp [MsgTimer.key, hsame.1, hsame.2]
      rw [if_pos hsame, hom]
      by_cases hk : m.key = k
      · simp [entry, hk]
      · simp [entry, hk, hkey]
    · rw [if_neg hsame]
      by_cases hk : om.key = k
      · have hne : m.key ≠ k := by
          intro h
          have hkey : m.key = om.key := h.trans hk.symm
          exact hsame ⟨(congrArg Prod.snd hkey).symm, congrArg Prod.fst hkey⟩
        simp [entry, hk, hne]
      · have hcons : ∀ l', entry k (om :: l') = entry k l' := fun l' => by simp [entry, hk]
        rw [hcons, hcons, ih]

theorem keys_onSetTimer (m : MsgTimer) (l : List MsgTimer) :
    (onSetTimer m l).map MsgTimer.key =
      l.map MsgTimer.key ++ (if m.key ∈ l.map MsgTimer.key then [] else [m.key]) := by
  induction l with
  | nil => simp [onSetTimer]
  | cons om l ih =>
    unfold onSetTimer
    by_cases hsame : om.p_mt = m.p_mt ∧ m.un_timer_id = om.un_timer_id
    · have hkey : m.key = om.key := by simp [MsgTimer.key, hsame.1, hsame.2]
      rw [if_pos hsame, List.map_cons, List.map_cons,
        if_pos (by rw [hkey]; exact List.mem_cons_self), List.append_nil]
      rfl
    · have hne : m.key ≠ om.key := by
        intro hkey
        exact hsame ⟨(congrArg Prod.snd hkey).symm, congrArg Prod.fst hkey⟩
      rw [if_neg hsame, List.map_cons, List.map_cons, ih, List.cons_append]
      simp only [List.mem_cons, hne, false_or]

theorem single_onSetTimer (m : MsgTimer) {l : List MsgTimer} (h : Single l) :
    Single (onSetTimer m l) := by
  unfold Single at h ⊢
  rw [keys_onSetTimer]
  split
  · rw [List.append_nil]
    exact h
  · rename_i hnew
    refine List.nodup_append.mpr ⟨h, by simp, fun a ha b hb => ?_⟩
    rw [List.mem_singleton] at hb
    rintro rfl
    exact hnew (hb ▸ ha)

theorem entry_filter {p : MsgTimer → Bool} {k : Key} {b : Bool}
    (hp : ∀ m : MsgTimer, m.key = k → p m = b) (l : List MsgTimer) :
    entry k (l.filter p) = if b then entry k l else none := by
  unfold entry
  induction l with
  | nil => simp
  | cons m l ih =>
    by_cases hk : m.key = k
    · cases b with
      | true => simp [hp m hk, hk]
      | false =>
        rw [List.filter_cons_of_neg (by rw [hp m hk]; exact Bool.false_ne_true), ih]
        rfl
    · have hcons : (m :: l).find? (fun m => decide (m.key = k)) =
          l.find? (fun m => decide (m.key = k)) := by
        simp [hk]
      rw [hcons, ← ih, List.filter_cons]
      split
      · simp [hk]
      · rfl

/-- `OnKillTimer` removes the entries of the object that the number names, which may be all. -/
theorem entry_onKillTimer (ms : Int) (id : UInt32) (obj : UInt64) (l : List MsgTimer) (k : Key) :
    entry k (onKillTimer (killTimer ms id obj) l) = if (Event.kill ms id obj).kills k then none else
      entry k l := by
  have hstay : ∀ m : MsgTimer, m.key = k →
      (decide (m.p_mt ≠ obj) || (decide (0xFFFFFFFF ≠ id) && decide (id ≠ m.un_timer_id))) =
        !(Event.kill ms id obj).kills k := by
    rintro m rfl
    rw [Bool.eq_iff_iff]
    simp only [Event.kills, MsgTimer.key, Bool.or_eq_true, Bool.and_eq_true, decide_eq_true_eq,
      Bool.not_eq_true', Bool.and_eq_false_iff, Bool.or_eq_false_iff, decide_eq_false_iff_not]
    grind
  refine (entry_filter hstay l).trans ?_
  cases (Event.kill ms id obj).kills k with
  | true => rfl
  | false => rfl

theorem single_filterMap {f : MsgTimer → Option MsgTimer}
    (hf : ∀ {m m'}, f m = some m' → m'.key = m.key) {l : List MsgTimer} (h : Single l) :
    Single (l.filterMap f) := by
  have hsub : ((l.filterMap f).map MsgTimer.key).Sublist (l.map MsgTimer.key) := by
    clear h
    induction l with
    | nil => exact List.Sublist.slnil
    | cons m l ih =>
      cases hm : f m with
      | none =>
        rw [List.filterMap_cons_none hm]
        exact ih.cons _
      | some m' =>
        rw [List.filterMap_cons_some hm, List.map_cons, List.map_cons, hf hm]
        exact ih.cons_cons _
  exact hsub.nodup h

theorem single_onKillTimer (m : MsgTimer) {l : List MsgTimer} (h : Single l) :
    Single (onKillTimer m l) :=
  (List.filter_sublist.map MsgTimer.key).nodup h

theorem entry_of_single {m : MsgTimer} {l : List MsgTimer} (h : Single (m :: l)) :
    entry m.key l = none := by
  have hnew := (List.nodup_cons.mp h).1
  refine List.find?_eq_none.mpr (fun x hx hk => hnew ?_)
  rw [decide_eq_true_eq] at hk
  rw [← hk]
  exact List.mem_map_of_mem hx

theorem entry_of_mem {m : MsgTimer} {l : List MsgTimer} (h : Single l) (hm : m ∈ l) :
    entry m.key l = some m := by
  induction l with
  | nil => cases hm
  | cons x l ih =>
    rcases List.mem_cons.mp hm with rfl | hm
    · simp [entry]
    · have hne : x.key ≠ m.key := fun hk => (List.nodup_cons.mp h).1 (hk ▸ List.mem_map_of_mem hm)
      rw [← ih (List.nodup_cons.mp h).2 hm]
      simp [entry, hne]

theorem mem_of_entry {k : Key} {m : MsgTimer} {l : List MsgTimer} (h : entry k l = some m) :
    m ∈ l ∧ m.key = k :=
  ⟨List.mem_of_find?_eq_some h, by simpa using List.find?_some h⟩

/-- A poll does to the entry of a key what it does to a timer, and posts it when it is due. -/
theorem entry_filterMap {f : MsgTimer → Option MsgTimer}
    (hf : ∀ {m m'}, f m = some m' → m'.key = m.key) {l : List MsgTimer} (h : Single l) (k : Key) :
    entry k (l.filterMap f) = (entry k l).bind f := by
  induction l with
  | nil => rfl
  | cons m l ih =>
    have htail := ih (List.nodup_cons.mp h).2
    by_cases hk : m.key = k
    · have hhead : entry k (m :: l) = some m := by simp [entry, hk]
      have hnone : entry k l = none := hk ▸ entry_of_single h
      rw [hhead, Option.bind_some]
      cases hm : f m with
      | none =>
        rw [List.filterMap_cons_none hm, htail, hnone]
        rfl
      | some m' =>
        rw [List.filterMap_cons_some hm]
        simp [entry, hf hm, hk]
    · have hcons : ∀ {x : MsgTimer} (l' : List MsgTimer), x.key ≠ k →
          entry k (x :: l') = entry k l' := by
        intro x l' hx
        simp [entry, hx]
      rw [hcons l hk]
      cases hm : f m with
      | none => rw [List.filterMap_cons_none hm, htail]
      | some m' => rw [List.filterMap_cons_some hm, hcons _ (by rw [hf hm]; exact hk), htail]

theorem countP_filter {p : MsgTimer → Bool} {l : List MsgTimer} (h : Single l) (k : Key) :
    (l.filter p).countP (fun m => m.key = k) = if (entry k l).any p then 1 else 0 := by
  induction l with
  | nil => rfl
  | cons m l ih =>
    have htail := ih (List.nodup_cons.mp h).2
    rw [List.filter_cons]
    by_cases hk : m.key = k
    · have hhead : entry k (m :: l) = some m := by simp [entry, hk]
      have hnone : entry k l = none := hk ▸ entry_of_single h
      rw [hnone] at htail
      rw [hhead, Option.any_some]
      split
      · rw [List.countP_cons_of_pos (by simpa using hk), htail]
        rfl
      · exact htail
    · have hcons : entry k (m :: l) = entry k l := by simp [entry, hk]
      rw [hcons, ← htail]
      split
      · exact List.countP_cons_of_neg (by simpa using hk)
      · rfl

/-! ## What an event does -/

theorem handle_set {l l' : List MsgTimer} {os : List Out} {ms : Int} {id escape times : UInt32}
    {obj : UInt64} (h : handle l (.set ms id escape times obj) = .ok (l', os)) (k : Key) :
    os = [] ∧ entry k l' =
      if (Event.set ms id escape times obj).sets k then
        some ⟨id, escape, currentTick ms, times, obj⟩
      else entry k l := by
  cases h
  refine ⟨rfl, ?_⟩
  unfold setTimer
  by_cases hten : escape < 10
  · have hnot : ¬ 10 ≤ escape := UInt32.not_le.mpr hten
    simp [behindSet, Event.sets, hten, hnot]
  · have hle : 10 ≤ escape := UInt32.not_lt.mp hten
    rw [if_neg hten, behindSet, entry_onSetTimer]
    by_cases hk : (id, obj) = k
    · simp [Event.sets, MsgTimer.key, hle, hk]
    · simp [Event.sets, MsgTimer.key, hk]

theorem handle_kill {l l' : List MsgTimer} {os : List Out} {ms : Int} {id : UInt32} {obj : UInt64}
    (h : handle l (.kill ms id obj) = .ok (l', os)) (k : Key) :
    os = [] ∧ entry k l' = if (Event.kill ms id obj).kills k then none else entry k l := by
  cases h
  exact ⟨rfl, entry_onKillTimer ms id obj l k⟩

theorem posts_poll (k : Key) (ms : List MsgTimer) (n : Nat) :
    posts k (ms.map .on_timer ++ [.sleep n]) = ms.countP (fun m => m.key = k) := by
  unfold posts
  rw [List.countP_append, List.countP_map]
  rfl

theorem handle_poll {l l' : List MsgTimer} {os : List Out} {ms : Int} (hs : Single l)
    (h : handle l (.poll ms) = .ok (l', os)) (k : Key) :
    entry k l' = (entry k l).bind (MsgTimer.next (currentTick ms)) ∧
      posts k os = if (entry k l).any (MsgTimer.due (currentTick ms)) then 1 else 0 := by
  cases h
  refine ⟨?_, ?_⟩
  · rw [lst_procTimer]
    exact entry_filterMap key_next hs k
  · rw [posts_poll, posted_procTimer]
    exact countP_filter hs k

theorem single_handle {l l' : List MsgTimer} {e : Event} {os : List Out} (hs : Single l)
    (h : handle l e = .ok (l', os)) : Single l' := by
  cases e with
  | set ms id escape times obj =>
    cases h
    unfold behindSet
    split
    · exact hs
    · exact single_onSetTimer _ hs
  | kill ms id obj =>
    cases h
    exact single_onKillTimer _ hs
  | poll ms =>
    cases h
    rw [lst_procTimer]
    exact single_filterMap key_next hs

end util.module_timers
