-- `CAoEvent::Wait` and what `CModule::Run` passes to it: at first a count without an end, and after
-- that what `ProcTimer` returned. The law says for which times of the real-time clock the deadline
-- that `sem_timedwait` gets is one that it takes.
import Aods.TimerRuns

open machine runs
open util.module_timers

namespace util.wait_deadlines

/-! ## The model -/

/-- `struct timespec`. -/
structure Timespec where
  tv_sec : Int
  tv_nsec : Int

/-- What `sem_timedwait` takes; the kernel refuses any other deadline with `EINVAL`. -/
def Timespec.Valid (ts : Timespec) : Prop := 0 ≤ ts.tv_nsec ∧ ts.tv_nsec < 1000000000

/-- The time it denotes, in nanoseconds. -/
def Timespec.denotes (ts : Timespec) : Int := ts.tv_sec * 1000000000 + ts.tv_nsec

/-- `Wait`: the deadline, from what `clock_gettime` read. Division and remainder truncate. -/
def wait (ts : Timespec) (n_mil_sec : Int) : Timespec where
  tv_sec := ts.tv_sec + n_mil_sec.tdiv 1000
  tv_nsec := ts.tv_nsec + n_mil_sec.tmod 1000 * 1000000

/-- What a round of `Run` makes of `unMin`. -/
def keep (un_min : Nat) : Out → Nat
  | .sleep returned => returned
  | .on_timer _ => un_min

/-- `unMin` in `Run`: what the newest `ProcTimer` returned. -/
def unMin : List (Event × List Out) → Nat
  | [] => 0xFFFFFFFF
  | (_, os) :: es => os.foldl keep (unMin es)

/-- What `Run` passes to `Wait`: the parameter is an `int`. -/
def passed (es : List (Event × List Out)) : Int := i32 (unMin es)

/-! ## What is passed -/

theorem foldl_keep (ms : List MsgTimer) (n : Nat) : (ms.map Out.on_timer).foldl keep n = n := by
  induction ms generalizing n with
  | nil => rfl
  | cons m ms ih => exact ih n

/-- Before the first poll the count has no end; after it, it is one that `ProcTimer` returned. -/
theorem unMin_of_run {Ok : List (Event × List Out) → List MsgTimer → Event → Prop}
    {es : List (Event × List Out)} {l : List MsgTimer} (h : Run handle Ok [] es l) :
    unMin es = 0xFFFFFFFF ∨ unMin es ≤ 100000 := by
  refine Run.invariant (I := fun es _ => unMin es = 0xFFFFFFFF ∨ unMin es ≤ 100000)
    (Or.inl rfl) ?_ h
  intro es l e l' os ih _ hstep
  cases e with
  | set ms id escape times obj =>
    cases hstep
    exact ih
  | kill ms id obj =>
    cases hstep
    exact ih
  | poll ms =>
    cases hstep
    right
    rw [unMin, List.foldl_append, foldl_keep]
    exact procTimer_le _ l

/-- The count without an end becomes a wait of minus one, and the others stay what they are. -/
theorem passed_of_run {Ok : List (Event × List Out) → List MsgTimer → Event → Prop}
    {es : List (Event × List Out)} {l : List MsgTimer} (h : Run handle Ok [] es l) :
    passed es = -1 ∨ 0 ≤ passed es ∧ passed es ≤ 100000 := by
  unfold passed
  rcases unMin_of_run h with he | hle
  · rw [he]
    exact Or.inl rfl
  · right
    unfold i32 u32
    omega

/-! ## Deadlines -/

/-- Seconds and the rest make the time, whatever sign it has. -/
theorem denotes_wait (ts : Timespec) (n_mil_sec : Int) :
    (wait ts n_mil_sec).denotes = ts.denotes + n_mil_sec * 1000000 := by
  have hdiv := Int.mul_tdiv_add_tmod n_mil_sec 1000
  unfold wait Timespec.denotes
  dsimp only
  omega

/-- A wait does not change the second: one of minus one millisecond comes at least a millisecond
after its beginning, and the rest of any other ends before the next. -/
def SameSecond (ts : Timespec) (n_mil_sec : Int) : Prop :=
  if n_mil_sec < 0 then 1000000 ≤ ts.tv_nsec
  else ts.tv_nsec + n_mil_sec % 1000 * 1000000 < 1000000000

theorem valid_wait_iff {ts : Timespec} (h : ts.Valid) {n_mil_sec : Int}
    (hn : n_mil_sec = -1 ∨ 0 ≤ n_mil_sec ∧ n_mil_sec ≤ 100000) :
    (wait ts n_mil_sec).Valid ↔ SameSecond ts n_mil_sec := by
  unfold Timespec.Valid SameSecond wait at *
  rcases hn with rfl | ⟨hpos, _⟩
  · have hmod : (-1 : Int).tmod 1000 = -1 := rfl
    rw [if_pos (by decide)]
    dsimp only
    rw [hmod]
    omega
  · rw [if_neg (by omega)]
    dsimp only
    rw [Int.tmod_eq_emod_of_nonneg hpos]
    omega

theorem a_deadline_is_valid_within_the_second
    {Ok : List (Event × List Out) → List MsgTimer → Event → Prop}
    {es : List (Event × List Out)} {l : List MsgTimer} (hrun : Run handle Ok [] es l)
    {ts : Timespec} (h : ts.Valid) :
    ((wait ts (passed es)).Valid ∧
      (wait ts (passed es)).denotes = ts.denotes + passed es * 1000000) ↔
      SameSecond ts (passed es) := by
  rw [and_iff_left (denotes_wait ts (passed es))]
  exact valid_wait_iff h (passed_of_run hrun)

/-- A timer of ten milliseconds was set, and `ProcTimer` has run. -/
def tenLeft : List (Event × List Out) := [(.poll 0, [.sleep 10]), (.set 0 1 10 endless 7, [])]

theorem tenLeft_run : Run handle Any [] tenLeft [⟨1, 10, 0, endless, 7⟩] :=
  .next (.next .start trivial rfl) trivial rfl

theorem a_deadline_early_in_the_second : (wait ⟨0, 5⟩ (passed tenLeft)).Valid :=
  ((a_deadline_is_valid_within_the_second tenLeft_run (by unfold Timespec.Valid; decide)).mpr
    (by unfold SameSecond; decide)).1

/-- Late in a second the nanoseconds pass the second, and nothing carries. -/
theorem a_deadline_late_in_the_second :
    ¬ ∀ (es : List (Event × List Out)) (l : List MsgTimer) (ts : Timespec), Run handle Any [] es l →
      ts.Valid →
      (wait ts (passed es)).Valid ∧
        (wait ts (passed es)).denotes = ts.denotes + passed es * 1000000 := by
  intro hall
  have hvalid : (⟨0, 995000000⟩ : Timespec).Valid := by
    unfold Timespec.Valid
    decide
  have hlate := (hall tenLeft _ ⟨0, 995000000⟩ tenLeft_run hvalid).1.2
  exact absurd hlate (by decide)

end util.wait_deadlines
