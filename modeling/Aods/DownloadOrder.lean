-- The tasks of `CDownloadThread`: any number of callers append to one list under the lock, and the
-- thread takes over the whole list when it has come to the end of the one before. The law says that
-- results are posted for the tasks one by one in their order, each with a code of its own.
import Aods.Downloads
import Mathlib.Data.List.Forall2

open machine runs
open msg_def
open aods.download_thread aods.downloads aods.package_hash
open aods.update_module_mgr (DownloadItem)

namespace aods.download_order

/-! ## The model -/

/-- The shared list, what is left of the list that the thread took over, and its variables. -/
structure Thread where
  lst_di : List DownloadItem
  lst_temp_di : List DownloadItem
  vars : State

/-- Three tries of one task. -/
abbrev Three := { xs : List Try // xs.length = 3 }

/-- A call of `AppendDownloadTask`, or the next thing that the thread does: it takes over the list,
or comes to the end of a task. Or others change the files. -/
inductive Turn where
  | append (di : DownloadItem)
  | run (three : Three) (temp_deleted : Bool)
  | files (files : Bytes → Option Bytes)

def Thread.run (t : Thread) (three : Three) (temp_deleted : Bool) :
    Except Fault (Thread × List Bytes) :=
  match t.lst_temp_di with
  | [] => .ok ({ t with lst_temp_di := t.lst_di, lst_di := [] }, [])
  | di :: rest => do
    let (vars, uc_result) ← handle t.vars (.task di three temp_deleted)
    .ok ({ t with lst_temp_di := rest, vars }, uc_result)

def step : Handler Thread Turn Bytes Fault
  | t, .append di => .ok ({ t with lst_di := t.lst_di ++ [di] }, [])
  | t, .run three temp_deleted => t.run three temp_deleted
  | t, .files files => .ok ({ t with vars := { t.vars with files } }, [])

def Thread.start (files : Bytes → Option Bytes) : Thread := ⟨[], [], .start files⟩

/-! ## Histories -/

/-- The tasks appended, the first one first. -/
def appended : List (Turn × List Bytes) → List DownloadItem
  | [] => []
  | (.append di, _) :: es => appended es ++ [di]
  | (_, _) :: es => appended es

/-- The messages posted, the first one first, each with the tries that the thread made before it. -/
def posted : List (Turn × List Bytes) → List (Three × Bytes)
  | [] => []
  | (.run three _, os) :: es => posted es ++ os.map (fun msg => (three, msg))
  | (_, _) :: es => posted es

/-- A message with the texts of a task and a code that its tries set, whatever the code was
before. -/
def ResultOf (p : Three × Bytes) (di : DownloadItem) : Prop :=
  ∃ vars : State, ∀ stale : UInt8,
    p.2 = (tries di p.1.1 { vars with uc_rlt := stale }).uc_rlt :: names (resultTexts di)

/-! ## One task -/

theorem check_stale (x : Try) (di : DownloadItem) (s : State) (stale : UInt8) :
    check x di { s with uc_rlt := stale } = check x di s := by
  have hsaved : saved x di { s with uc_rlt := stale } = saved x di s := rfl
  have hcrcs : crcsOf x di { s with uc_rlt := stale } = crcsOf x di s := rfl
  unfold check
  by_cases hhash : hashOf (crcsOf x di s) = cstr di.str_file_hash
  · simp [hsaved, hcrcs, hhash, State.write]
  · by_cases hdeleted : x.save_deleted = true
    · simp [hsaved, hcrcs, hhash, hdeleted, State.write]
    · simp [hsaved, hcrcs, hhash, hdeleted, State.write]

theorem tries_stale (di : DownloadItem) {xs : List Try} (h : xs ≠ []) (s : State) (stale : UInt8) :
    tries di xs { s with uc_rlt := stale } = tries di xs s := by
  cases xs with
  | nil => exact absurd rfl h
  | cons x xs =>
    unfold tries
    split
    · rfl
    · split
      · rfl
      · exact check_stale x di (s.write (tempFile di) (some x.received)) stale

theorem three_ne_nil (three : Three) : three.1 ≠ [] :=
  List.ne_nil_of_length_pos (by rw [three.2]; decide)

theorem step_task {t t' : Thread} {three : Three} {temp_deleted : Bool} {os : List Bytes}
    {di : DownloadItem} {rest : List DownloadItem} (htemp : t.lst_temp_di = di :: rest)
    (h : step t (.run three temp_deleted) = .ok (t', os)) :
    ∃ msg, os = [msg] ∧ ResultOf (three, msg) di ∧ t'.lst_temp_di = rest ∧
      t'.lst_di = t.lst_di := by
  simp only [step, Thread.run, htemp] at h
  obtain ⟨⟨vars, uc_result⟩, hhandle, hend⟩ := bind_ok h
  cases hend
  refine ⟨_, (handle_task hhandle).1, ⟨t.vars, fun stale => ?_⟩, rfl, rfl⟩
  dsimp only
  rw [tries_stale di (three_ne_nil three) t.vars stale]

theorem step_fits {t : Thread} (three : Three) (temp_deleted : Bool) {di : DownloadItem}
    {rest : List DownloadItem} (htemp : t.lst_temp_di = di :: rest)
    (hfits : (names (resultTexts di)).length < 5120) :
    ∃ t' os, step t (.run three temp_deleted) = .ok (t', os) := by
  obtain ⟨vars, hhandle, _⟩ := handle_fits t.vars three temp_deleted hfits
  simp only [step, Thread.run, htemp, hhandle]
  exact ⟨_, _, rfl⟩

/-! ## Runs -/

/-- What is posted answers the first of the tasks, and the others are left, in their order. -/
def InOrder (es : List (Turn × List Bytes)) (t : Thread) : Prop :=
  ∃ done, List.Forall₂ ResultOf (posted es) done ∧ appended es = done ++ t.lst_temp_di ++ t.lst_di

/-- Every message that was put out counts as posted. -/
def AllPosted (es : List (Turn × List Bytes)) : Prop :=
  (posted es).map Prod.snd = es.reverse.flatMap Prod.snd

theorem inOrder_run {es : List (Turn × List Bytes)} {t t' : Thread} {three : Three}
    {temp_deleted : Bool} {os : List Bytes} (hin : InOrder es t)
    (h : step t (.run three temp_deleted) = .ok (t', os)) :
    InOrder ((.run three temp_deleted, os) :: es) t' := by
  obtain ⟨done, hposted, happended⟩ := hin
  cases htemp : t.lst_temp_di with
  | nil =>
    simp only [step, Thread.run, htemp] at h
    cases h
    rw [htemp, List.append_nil] at happended
    refine ⟨done, ?_, ?_⟩
    · simpa [posted] using hposted
    · simpa [appended] using happended
  | cons di rest =>
    obtain ⟨msg, rfl, hresult, hrest, hdi⟩ := step_task htemp h
    refine ⟨done ++ [di], ?_, ?_⟩
    · rw [posted]
      exact List.rel_append hposted (List.Forall₂.cons hresult List.Forall₂.nil)
    · have hsame : appended ((.run three temp_deleted, [msg]) :: es) = appended es := rfl
      rw [hsame, happended, htemp, hrest, hdi]
      simp

theorem inOrder_step {es : List (Turn × List Bytes)} {t t' : Thread} {e : Turn} {os : List Bytes}
    (hin : InOrder es t) (h : step t e = .ok (t', os)) : InOrder ((e, os) :: es) t' := by
  cases e with
  | append di =>
    obtain ⟨done, hposted, happended⟩ := hin
    cases h
    refine ⟨done, hposted, ?_⟩
    simp [appended, happended]
  | run three temp_deleted => exact inOrder_run hin h
  | files files =>
    obtain ⟨done, hposted, happended⟩ := hin
    cases h
    exact ⟨done, hposted, happended⟩

theorem allPosted_step {es : List (Turn × List Bytes)} {t t' : Thread} {e : Turn} {os : List Bytes}
    (hall : AllPosted es) (h : step t e = .ok (t', os)) : AllPosted ((e, os) :: es) := by
  unfold AllPosted at hall ⊢
  rw [List.reverse_cons, List.flatMap_append, ← hall]
  cases e with
  | append di =>
    cases h
    simp [posted]
  | run three temp_deleted => simp [posted]
  | files files =>
    cases h
    simp [posted]

theorem inOrder_of_run {files : Bytes → Option Bytes} {es : List (Turn × List Bytes)} {t : Thread}
    (h : Run step Any (.start files) es t) : InOrder es t ∧ AllPosted es := by
  have hstart : InOrder [] (Thread.start files) ∧ AllPosted [] := ⟨⟨[], List.Forall₂.nil, rfl⟩, rfl⟩
  exact Run.invariant (I := fun es t => InOrder es t ∧ AllPosted es) hstart
    (fun hI _ hstep => ⟨inOrder_step hI.1 hstep, allPosted_step hI.2 hstep⟩) h

/-- The thread can come to the end of the list that it took over. -/
theorem runs_temp {files : Bytes → Option Bytes} {es : List (Turn × List Bytes)} {t : Thread}
    (three : Three) (h : Run step Any (.start files) es t)
    (hfits : ∀ di ∈ t.lst_temp_di, (names (resultTexts di)).length < 5120) :
    ∃ more t', Run step Any (.start files) (more ++ es) t' ∧ (∀ x ∈ more, x.1 = .run three true) ∧
      t'.lst_temp_di = [] ∧ t'.lst_di = t.lst_di := by
  generalize htemp : t.lst_temp_di = temp at hfits
  induction temp generalizing es t with
  | nil => exact ⟨[], t, h, fun x hx => absurd hx List.not_mem_nil, htemp, rfl⟩
  | cons di rest ih =>
    obtain ⟨t₁, os, hstep⟩ := step_fits three true htemp (hfits di List.mem_cons_self)
    obtain ⟨_, _, _, hrest, hdi⟩ := step_task htemp hstep
    obtain ⟨more, t', hrun, hmore, hnil, hsame⟩ :=
      ih (h.next trivial hstep) hrest (fun d hd => hfits d (List.mem_cons_of_mem di hd))
    refine ⟨more ++ [(.run three true, os)],
      t', by simpa using hrun, fun x hx => ?_, hnil, hsame.trans hdi⟩
    rcases List.mem_append.mp hx with hx | hx
    · exact hmore x hx
    · rw [List.mem_singleton.mp hx]

/-- The thread can come to the end of all that was appended. -/
theorem runs_all {files : Bytes → Option Bytes} {es : List (Turn × List Bytes)} {t : Thread}
    (three : Three) (h : Run step Any (.start files) es t)
    (hfits : ∀ di ∈ appended es, (names (resultTexts di)).length < 5120) :
    ∃ more t', Run step Any (.start files) (more ++ es) t' ∧ (∀ x ∈ more, x.1 = .run three true) ∧
      t'.lst_temp_di = [] ∧ t'.lst_di = [] := by
  obtain ⟨⟨done, _, happended⟩, _⟩ := inOrder_of_run h
  rw [happended] at hfits
  obtain ⟨first, t₁, hrun₁, hfirst, htemp₁, hdi₁⟩ := runs_temp three h
    (fun di hdi => hfits di (List.mem_append_left _ (List.mem_append_right _ hdi)))
  have hswap : step t₁ (.run three true) =
      .ok ({ t₁ with lst_temp_di := t₁.lst_di, lst_di := [] }, []) := by
    simp only [step, Thread.run, htemp₁]
  obtain ⟨second, t₂, hrun₂, hsecond, htemp₂, hdi₂⟩ := runs_temp three (hrun₁.next trivial hswap)
    (fun di hdi => hfits di (List.mem_append_right _ (hdi₁ ▸ hdi)))
  refine ⟨second ++ (.run three true, []) :: first,
    t₂, by simpa using hrun₂, fun x hx => ?_, htemp₂, hdi₂⟩
  rcases List.mem_append.mp hx with hx | hx
  · exact hsecond x hx
  · rcases List.mem_cons.mp hx with rfl | hx
    · rfl
    · exact hfirst x hx

theorem appended_runs {three : Three} {more es : List (Turn × List Bytes)}
    (h : ∀ x ∈ more, x.1 = .run three true) :
    appended (more ++ es) = appended es := by
  induction more with
  | nil => rfl
  | cons x more ih =>
    obtain ⟨e, os⟩ := x
    obtain rfl : e = .run three true := h (e, os) List.mem_cons_self
    exact ih (fun y hy => h y (List.mem_cons_of_mem _ hy))

/-- In every run the messages answer the first tasks appended, one for each and in their order, and
the tasks behind them are left in the lists. When their texts fit the array, the thread can go on
until each has its message. -/
theorem results_are_posted_for_the_tasks_in_order {files : Bytes → Option Bytes}
    {es : List (Turn × List Bytes)} {t : Thread} (h : Run step Any (.start files) es t) :
    (∃ done, List.Forall₂ ResultOf (posted es) done ∧
      appended es = done ++ t.lst_temp_di ++ t.lst_di) ∧
      (posted es).map Prod.snd = es.reverse.flatMap Prod.snd ∧
      ((∀ di ∈ appended es, (names (resultTexts di)).length < 5120) → ∀ three : Three,
        ∃ more t', Run step Any (.start files) (more ++ es) t' ∧
          (∀ x ∈ more, x.1 = .run three true) ∧
          List.Forall₂ ResultOf (posted (more ++ es)) (appended es)) := by
  obtain ⟨hin, hall⟩ := inOrder_of_run h
  refine ⟨hin, hall, fun hfits three => ?_⟩
  obtain ⟨more, t', hrun, hmore, htemp, hdi⟩ := runs_all three h hfits
  obtain ⟨⟨done, hposted, happended⟩, _⟩ := inOrder_of_run hrun
  rw [appended_runs hmore, htemp, hdi, List.append_nil, List.append_nil] at happended
  exact ⟨more, t', hrun, hmore, happended ▸ hposted⟩

theorem an_empty_package_gets_its_result :
    ∃ more t', Run step Any (.start fun _ => none) (more ++ [(.append emptyTask, [])]) t' ∧
      List.Forall₂ ResultOf (posted (more ++ [(.append emptyTask, [])])) [emptyTask] := by
  have hrun : Run step Any (.start fun _ => none) [(.append emptyTask, [])]
      ⟨[emptyTask], [], .start fun _ => none⟩ :=
    .next .start trivial rfl
  have hfits : ∀ di ∈ appended [(.append emptyTask, [])],
      (names (resultTexts di)).length < 5120 := by
    intro di hdi
    rw [List.mem_singleton.mp hdi]
    exact resultTexts_emptyTask
  obtain ⟨more, t', hmore, _, hall⟩ := (results_are_posted_for_the_tasks_in_order hrun).2.2 hfits
    ⟨[emptyTry true, emptyTry true, emptyTry true], rfl⟩
  exact ⟨more, t', hmore, hall⟩

end aods.download_order
