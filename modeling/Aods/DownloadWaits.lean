-- The thread of the downloads with its waits: `CDownloadThread::Run` looks for tasks before it
-- sleeps, and the callers signal behind their appends. The thread is a mailbox of tasks, and the
-- law says that no task needs the timeout of the wait, or another task, to be done.
import Aods.AoEvent
import Aods.DownloadOrder

open machine runs mailboxes
open util.ao_event
open aods.download_thread aods.download_order
open aods.update_module_mgr (DownloadItem)

namespace aods.download_waits

/-! ## The model -/

/-- Where the thread is: before the lock, at `Wait`, or in the loop over the tasks that it took
over. -/
inductive Place where
  | fetch
  | sleep
  | work
  deriving DecidableEq

/-- The thread with its event, and the callers between `Unlock` and `Signal`. -/
structure Worker where
  thread : Thread
  ev_signal : CAoEvent
  unsignalled : Nat
  place : Place

/-- A call of `AppendDownloadTask` up to `Unlock`, a `Signal` behind one, a wait that ends without a
signal, the next thing that the thread does, or others change the files. -/
inductive Event where
  | append (di : DownloadItem)
  | signal
  | timeout
  | run (three : Three) (temp_deleted : Bool)
  | files (files : Bytes → Option Bytes)

def Worker.start (files : Bytes → Option Bytes) (ev_signal : CAoEvent) : Worker :=
  ⟨.start files, ev_signal, 0, .fetch⟩

/-- The part under the lock, and the look at what was taken over. -/
def Worker.fetch (n : Worker) : Worker :=
  { n with
    thread := { n.thread with lst_temp_di := n.thread.lst_di, lst_di := [] }
    place := match n.thread.lst_di with
      | [] => .sleep
      | _ :: _ => .work }

def Worker.run (n : Worker) (three : Three) (temp_deleted : Bool) :
    Except Fault (Worker × List Bytes) :=
  match n.place with
  | .fetch => .ok (n.fetch, [])
  | .sleep =>
    match n.ev_signal.wait with
    | none => .ok (n, [])
    | some ev_signal => .ok ({ n with ev_signal, place := .fetch }, [])
  | .work =>
    match n.thread.lst_temp_di with
    | [] => .ok ({ n with place := .fetch }, [])
    | _ :: _ => do
      let (thread, os) ← download_order.step n.thread (.run three temp_deleted)
      .ok ({ n with thread }, os)

def step : Handler Worker Event Bytes Fault
  | n, .append di => .ok ({ n with
      thread := { n.thread with lst_di := n.thread.lst_di ++ [di] }
      unsignalled := n.unsignalled + 1 }, [])
  | n, .signal =>
    if n.unsignalled = 0 then .ok (n, [])
    else .ok ({ n with ev_signal := n.ev_signal.signal, unsignalled := n.unsignalled - 1 }, [])
  | n, .timeout => .ok (if n.place = .sleep then { n with place := .fetch } else n, [])
  | n, .run three temp_deleted => n.run three temp_deleted
  | n, .files files =>
    .ok ({ n with thread := { n.thread with vars := { n.thread.vars with files } } }, [])

/-! ## Histories -/

def appendOf : Event × List Bytes → Option DownloadItem
  | (.append di, _) => some di
  | _ => none

def postsOf : Event × List Bytes → List (Three × Bytes)
  | (.run three _, os) => os.map (fun msg => (three, msg))
  | _ => []

/-- The tasks appended, the first one first. -/
def appended (es : List (Event × List Bytes)) : List DownloadItem := es.reverse.filterMap appendOf

/-- The messages posted, the first one first, each with the tries that the thread made before it. -/
def posted (es : List (Event × List Bytes)) : List (Three × Bytes) := es.reverse.flatMap postsOf

/-- The texts of every task fit the array of a result. -/
def Fitting (_ : List (Event × List Bytes)) (_ : Worker) : Event → Prop
  | .append di => (msg_def.names (resultTexts di)).length < 5120
  | _ => True

/-- The thread is in its wait, and no signal lets it go on. -/
def Sleeps (n : Worker) : Prop := n.place = .sleep ∧ n.ev_signal.wait = none

variable {es : List (Event × List Bytes)} {n n' : Worker} {e : Event} {os : List Bytes}
  {x x' : Box DownloadItem CAoEvent}

theorem appended_cons (y : Event × List Bytes) (es : List (Event × List Bytes)) :
    appended (y :: es) = appended es ++ (appendOf y).toList := by
  unfold appended
  rw [List.reverse_cons, List.filterMap_append]
  cases h : appendOf y with
  | none => simp [h]
  | some di => simp [h]

theorem posted_cons (y : Event × List Bytes) (es : List (Event × List Bytes)) :
    posted (y :: es) = posted es ++ postsOf y := by
  unfold posted
  rw [List.reverse_cons, List.flatMap_append, List.flatMap_singleton]

/-! ## The mailbox -/

def Place.pc : Place → Pc
  | .fetch => .fetch
  | .sleep => .sleep
  | .work => .handle

/-- The thread is a mailbox of tasks, which all fit. -/
structure Refines (es : List (Event × List Bytes)) (n : Worker) (x : Box DownloadItem CAoEvent) :
    Prop where
  later : x.later = n.thread.lst_di
  now : x.now = n.thread.lst_temp_di
  fits : ∀ di ∈ x.now ++ x.later, (msg_def.names (resultTexts di)).length < 5120
  bell : x.bell = n.ev_signal
  unrung : x.unrung = n.unsignalled
  pc : x.pc = n.place.pc
  came : x.came = appended es
  handled : List.Forall₂ ResultOf (posted es) x.handled

theorem Refines.quiet (h : Refines es n x) (happend : appendOf (e, os) = none)
    (hpost : postsOf (e, os) = []) :
    Refines ((e, os) :: es) n x where
  later := h.later
  now := h.now
  fits := h.fits
  bell := h.bell
  unrung := h.unrung
  pc := h.pc
  came := by
    rw [appended_cons, happend]
    exact h.came.trans (List.append_nil _).symm
  handled := by
    rw [posted_cons, hpost, List.append_nil]
    exact h.handled

theorem refines_start (files : Bytes → Option Bytes) (ev_signal : CAoEvent) :
    Refines [] (.start files ev_signal) (Box.start ev_signal .fetch) where
  later := rfl
  now := rfl
  fits := fun _ hdi => absurd hdi List.not_mem_nil
  bell := rfl
  unrung := rfl
  pc := rfl
  came := rfl
  handled := .nil

theorem Refines.append (h : Refines es n x) {di : DownloadItem}
    (hfits : (msg_def.names (resultTexts di)).length < 5120) :
    Refines ((.append di, []) :: es)
      { n with
        thread := { n.thread with lst_di := n.thread.lst_di ++ [di] }
        unsignalled := n.unsignalled + 1 } (x.put (some di)) where
  later := congrArg (· ++ [di]) h.later
  now := h.now
  fits := by
    intro di' hdi'
    unfold Box.put at hdi'
    dsimp only at hdi'
    rw [← List.append_assoc] at hdi'
    rcases List.mem_append.mp hdi' with hdi' | hdi'
    · exact h.fits di' hdi'
    · rw [List.mem_singleton.mp hdi']
      exact hfits
  bell := h.bell
  unrung := congrArg Nat.succ h.unrung
  pc := h.pc
  came := by
    rw [appended_cons, ← h.came]
    rfl
  handled := by
    rw [posted_cons]
    exact (List.append_nil (posted es)).symm ▸ h.handled

/-- What the thread does is the next step of the receiver. -/
theorem Refines.run (h : Refines es n x) (hsound : Sound CAoEvent.bell x) (three : Three)
    (temp_deleted : Bool) :
    ∃ n' os, step n (.run three temp_deleted) = .ok (n', os) ∧
      match x.next CAoEvent.bell true with
      | none => n' = n ∧ os = []
      | some x' => Refines ((.run three temp_deleted, os) :: es) n' x' := by
  have hquiet : Refines ((.run three temp_deleted, []) :: es) n x := h.quiet rfl rfl
  have hpc := h.pc
  simp only [step, Worker.run, Box.next]
  cases hplace : n.place with
  | fetch =>
    rw [hplace] at hpc
    have hnow : x.now = [] := hsound.taken (by rw [hpc]; exact Pc.noConfusion)
    have hfits := h.fits
    rw [hnow, List.nil_append] at hfits
    rw [hpc]
    refine ⟨_, _, rfl, rfl, h.later, ?_, h.bell, h.unrung, ?_, hquiet.came, hquiet.handled⟩
    · rw [List.append_nil]
      exact hfits
    · dsimp only [Worker.fetch]
      cases hlater : n.thread.lst_di with
      | nil => simp [h.later, hlater, Place.pc]
      | cons di dis => simp [h.later, hlater, Place.pc]
  | sleep =>
    rw [hplace] at hpc
    rw [hpc, h.bell]
    have hanswer : CAoEvent.bell.answer n.ev_signal = n.ev_signal.wait := rfl
    simp only [Place.pc, hanswer]
    cases hwait : n.ev_signal.wait with
    | none => exact ⟨n, [], rfl, rfl, rfl⟩
    | some ev_signal =>
      exact ⟨_, _, rfl, h.later, h.now, h.fits, rfl, h.unrung, rfl, hquiet.came, hquiet.handled⟩
  | work =>
    rw [hplace] at hpc
    rw [hpc]
    simp only [Place.pc]
    cases hnow : x.now with
    | nil =>
      have htemp : n.thread.lst_temp_di = [] := h.now.symm.trans hnow
      rw [htemp]
      refine ⟨_, _, rfl, h.later, ?_, ?_, h.bell, h.unrung, rfl, hquiet.came, hquiet.handled⟩
      · exact htemp.symm
      · have hfits := h.fits
        rw [hnow] at hfits
        exact hfits
    | cons di rest =>
      have htemp : n.thread.lst_temp_di = di :: rest := h.now.symm.trans hnow
      have hfits := h.fits
      rw [hnow] at hfits
      obtain ⟨thread, os, hstep⟩ := step_fits three temp_deleted htemp (hfits di List.mem_cons_self)
      obtain ⟨msg, rfl, hresult, hrest, hdi⟩ := step_task htemp hstep
      rw [htemp, hstep]
      refine ⟨_, _, rfl, ?_, hrest.symm, ?_, h.bell, h.unrung, ?_, ?_, ?_⟩
      · exact h.later.trans hdi.symm
      · intro di' hdi'
        exact hfits di' (List.mem_cons_of_mem di hdi')
      · rfl
      · rw [appended_cons]
        exact h.came.trans (List.append_nil _).symm
      · rw [posted_cons]
        exact List.rel_append h.handled (.cons hresult .nil)

/-! ## Runs -/

/-- The thread is a sound mailbox. -/
def Kept (es : List (Event × List Bytes)) (n : Worker) : Prop :=
  ∃ x, Refines es n x ∧ Sound CAoEvent.bell x

theorem kept_step (h : Kept es n) (hok : Fitting es n e) (hstep : step n e = .ok (n', os)) :
    Kept ((e, os) :: es) n' := by
  obtain ⟨x, href, hsound⟩ := h
  cases e with
  | append di =>
    cases hstep
    exact ⟨_, href.append hok, hsound.put (some di)⟩
  | signal =>
    have hquiet : Refines ((.signal, []) :: es) n x := href.quiet rfl rfl
    simp only [step] at hstep
    split at hstep
    · cases hstep
      exact ⟨x, hquiet, hsound⟩
    · rename_i hne
      cases hstep
      have hpos : 0 < x.unrung := by
        rw [href.unrung]
        omega
      have hring : Step CAoEvent.bell true x
          { x with bell := x.bell.signal, unrung := x.unrung - 1 } := .ring hpos
      refine ⟨{ x with bell := x.bell.signal, unrung := x.unrung - 1 },
        ⟨href.later, href.now, href.fits, ?_, ?_, href.pc,
        hquiet.came, hquiet.handled⟩, hsound.step hring⟩
      · exact congrArg CAoEvent.signal href.bell
      · exact congrArg (· - 1) href.unrung
  | timeout =>
    have hquiet : Refines ((.timeout, []) :: es) n x := href.quiet rfl rfl
    cases hstep
    by_cases hsleep : n.place = .sleep
    · have hpc : x.pc = .sleep := by
        rw [href.pc, hsleep]
        rfl
      have hend : Step CAoEvent.bell true x { x with pc := .fetch } := .timeout hpc
      rw [if_pos hsleep]
      exact ⟨{ x with pc := .fetch },
        ⟨href.later, href.now, href.fits, href.bell, href.unrung, rfl, hquiet.came,
        hquiet.handled⟩, hsound.step hend⟩
    · rw [if_neg hsleep]
      exact ⟨x, hquiet, hsound⟩
  | run three temp_deleted =>
    obtain ⟨n₁, os₁, hstep₁, hnext⟩ := href.run hsound three temp_deleted
    rw [hstep] at hstep₁
    cases hstep₁
    cases hx : x.next CAoEvent.bell true with
    | none =>
      rw [hx] at hnext
      obtain ⟨rfl, rfl⟩ := hnext
      exact ⟨x, href.quiet rfl rfl, hsound⟩
    | some x' =>
      rw [hx] at hnext
      exact ⟨x', hnext, hsound.next hx⟩
  | files files =>
    cases hstep
    have hquiet : Refines ((.files files, []) :: es) n x := href.quiet rfl rfl
    exact ⟨x, ⟨href.later, href.now, href.fits, href.bell, href.unrung, href.pc, hquiet.came,
      hquiet.handled⟩, hsound⟩

theorem Kept.of_run {files : Bytes → Option Bytes} {ev_signal : CAoEvent}
    (h : Run step Fitting (.start files ev_signal) es n) : Kept es n := by
  apply h.invariant (I := Kept)
    ⟨_, refines_start files ev_signal, sound_start CAoEvent.bell ev_signal .fetch⟩
  intro es n e n' os hkept hok hstep
  exact kept_step hkept hok hstep

/-- The thread has gone on by steps of its own behind a history, with tries that each depend on how
far it was, and is a sound mailbox. -/
def Follows (pick : Worker → Three × Bool) (init : Worker) (es : List (Event × List Bytes))
    (k : Nat) (n : List (Event × List Bytes) × Worker) (x : Box DownloadItem CAoEvent) : Prop :=
  Run step Fitting init (n.1 ++ es) n.2 ∧ (∀ y ∈ n.1, ∃ m, y.1 = .run (pick m).1 (pick m).2) ∧
    n.1.length = k ∧
    Refines (n.1 ++ es) n.2 x ∧ Sound CAoEvent.bell x

theorem Follows.next {pick : Worker → Three × Bool} {init : Worker} {k : Nat}
    {m : List (Event × List Bytes) × Worker} (h : Follows pick init es k m x)
    (hx : x.next CAoEvent.bell true = some x') :
    ∃ m', Follows pick init es (k + 1) m' x' := by
  obtain ⟨hrun, hown, hlen, href, hsound⟩ := h
  obtain ⟨n₁, os₁, hstep, hnext⟩ := href.run hsound (pick m.2).1 (pick m.2).2
  rw [hx] at hnext
  refine ⟨((.run (pick m.2).1 (pick m.2).2, os₁) :: m.1, n₁), hrun.next trivial hstep, ?_,
    congrArg Nat.succ hlen, hnext,
    hsound.next hx⟩
  intro y hy
  rcases List.mem_cons.mp hy with rfl | hy
  · exact ⟨m.2, rfl⟩
  · exact hown y hy

/-! ## The law -/

/-- In any order of appends, signals, timeouts and steps of the thread: a thread that sleeps, when
every caller has signalled, has posted a result for each task, in their order. From any other place
of its loop it comes to this by steps of its own, whatever its tries give, no more than three for
each task and each signal that it has not taken, and two. -/
theorem no_task_needs_the_timeout {files : Bytes → Option Bytes} {ev_signal : CAoEvent}
    (h : Run step Fitting (.start files ev_signal) es n) (hsignalled : n.unsignalled = 0) :
    (Sleeps n → List.Forall₂ ResultOf (posted es) (appended es)) ∧
    ∀ pick : Worker → Three × Bool, ∃ more n', Run step Fitting (.start files ev_signal)
      (more ++ es) n' ∧
      (∀ y ∈ more, ∃ m, y.1 = .run (pick m).1 (pick m).2) ∧
      more.length ≤ 3 * (n.ev_signal.waits + ((appended es).length - (posted es).length)) + 2 ∧
      Sleeps n' ∧ List.Forall₂ ResultOf (posted (more ++ es)) (appended es) := by
  obtain ⟨x, href, hsound⟩ := Kept.of_run h
  have hunrung : x.unrung = 0 := href.unrung.trans hsignalled
  constructor
  · rintro ⟨hplace, hwait⟩
    have hasleep : Asleep CAoEvent.bell x := by
      unfold Asleep
      rw [href.pc, hplace, href.bell]
      exact ⟨rfl, hwait⟩
    rw [← href.came, ← hsound.asleep hasleep hunrung]
    exact href.handled
  · intro pick
    have hfollows : Follows pick (.start files ev_signal) es 0 ([], n) x :=
      ⟨h, fun y hy => absurd hy List.not_mem_nil, rfl, href, hsound⟩
    obtain ⟨k, ⟨more, n'⟩, x', hle, ⟨hrun', hmore, hlen, href', _⟩, hsound', ⟨hpc, hanswer⟩,
        hunrung', hcame⟩ :=
      hsound.comes_to_sleep (fun _ _ _ _ => Follows.next) hfollows
    rw [Nat.zero_add, ← hlen] at hle
    refine ⟨more, n', hrun', hmore, Nat.le_trans hle ?_, ⟨?_, ?_⟩, ?_⟩
    · have hlen := congrArg List.length hsound.order
      rw [List.length_append, List.length_append, ← href.handled.length_eq] at hlen
      have hrings : CAoEvent.bell.rings x.bell = n.ev_signal.waits :=
        congrArg CAoEvent.waits href.bell
      have hweight : x.pc.weight true ≤ 2 := by
        cases x.pc <;> decide
      unfold Box.work
      rw [hrings, ← href.came]
      omega
    · have hplace := href'.pc
      rw [hpc] at hplace
      cases hn : n'.place with
      | fetch => rw [hn] at hplace; cases hplace
      | sleep => rfl
      | work => rw [hn] at hplace; cases hplace
    · rw [← href'.bell]
      exact hanswer
    · rw [← href.came, ← hcame, ← hsound'.asleep ⟨hpc, hanswer⟩ (hunrung'.trans hunrung)]
      exact href'.handled

/-- A try that opens nothing. -/
def noTry : Three := ⟨List.replicate 3 { downloads.emptyTry false with temp_opens := false }, rfl⟩

theorem an_empty_task_needs_no_timeout :
    ∃ es n, Run step Fitting (.start (fun _ => none) .createEvent) es n ∧
    Sleeps n ∧ List.Forall₂ ResultOf (posted es) [downloads.emptyTask] := by
  have h0 : Run step Fitting (.start (fun _ => none) .createEvent) []
      (.start (fun _ => none) .createEvent) := .start
  have h1 := Run.next (e := Event.append downloads.emptyTask) h0 downloads.resultTexts_emptyTask rfl
  have h2 := Run.next (e := Event.signal) h1 trivial rfl
  obtain ⟨more, n, hrun, _, _, hsleeps, hposted⟩ :=
    (no_task_needs_the_timeout h2 rfl).2 (fun _ => (noTry, false))
  exact ⟨_, n, hrun, hsleeps, hposted⟩

end aods.download_waits
