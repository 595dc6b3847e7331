-- What a download result is worth. The laws say that a package is posted as good only when
-- the saved file exists and has the hash of its task, while no task has the hash that
-- the check makes up for a file that it cannot open.
import Aods.DownloadThread

open machine runs
open msg_def
open util.ao_file util.ao_file_control publish
open aods.package_hash aods.download_thread
open aods.update_module_mgr (DownloadItem)

namespace aods.downloads

/-- The string that the check makes of a file when it reads the whole of it. -/
def Hashed (file hash : Bytes) : Prop :=
  ∃ sizes c, Whole 10240 sizes file ∧ hashOf (calcFileCrc32_3 (some file) sizes c).2 = hash

/-- The try of a task that comes to its check. -/
def deciding (xs : List Try) : Option Try := xs.find? (fun x => x.temp_opens && x.http_runs)

/-- The check of a try opens a saved file: it opens what exists, and the file was there or is
made. -/
def Opened (s : State) (di : DownloadItem) (x : Try) : Prop :=
  x.check_opens = true ∧ (x.decryption.dst_opens = true ∨ s.files di.str_save_file_name ≠ none)

/-- The string of three zero checksums and the length that a thread has kept. -/
def keptHash (s : State) : Bytes := hashOf ⟨0, 0, 0, s.un_file_len⟩

/-- A task whose check opens no file does not have the string of the kept length for its hash. -/
def Careful (_ : List (Event × List Bytes)) (s : State) (e : Event) : Prop :=
  ∀ di three temp_deleted, e = .task di three temp_deleted →
    ∀ x, deciding three.1 = some x → Opened s di x ∨ cstr di.str_file_hash ≠ keptHash s

/-- When the last entry of a history posted a good package, the saved file exists and has the hash
of the task. -/
def Good (es : List (Event × List Bytes)) (s : State) : Prop :=
  ∀ di three temp_deleted uc_result older,
    es = (.task di three temp_deleted, [enDrSuc :: uc_result]) :: older →
    ∃ file, s.files di.str_save_file_name = some file ∧ Hashed file (cstr di.str_file_hash) ∧
      (file.length < 2147483648 → cstr di.str_file_hash = fileHash file)

/-! ## Files -/

theorem tempFile_ne (di : DownloadItem) : di.str_save_file_name ≠ tempFile di := by
  intro h
  have hlen := congrArg List.length h
  have htemp : (util.json.text ".temp").length = 5 := by decide
  rw [tempFile, List.length_append, htemp] at hlen
  omega

theorem write_temp (s : State) (di : DownloadItem) (file : Option Bytes) :
    (s.write (tempFile di) file).files di.str_save_file_name = s.files di.str_save_file_name :=
  Function.update_of_ne (tempFile_ne di) _ _

theorem write_save (s : State) (name : Bytes) (file : Option Bytes) :
    (s.write name file).files name = file :=
  Function.update_self _ _ _

/-- A destination that opens exists behind it, and another is left as it is. -/
theorem decryptFile_ne_none {x : Decryption} {src dst : Option Bytes} {pwd : Bytes} :
    decryptFile x src dst pwd ≠ none ↔ x.dst_opens = true ∨ dst ≠ none := by
  unfold decryptFile
  cases hdst : x.dst_opens with
  | false => simp
  | true =>
    cases src with
    | none => simp
    | some src =>
      by_cases hsrc : x.src_opens = true
      · simp [hsrc]
      · simp [hsrc]

theorem hashed_fileHash {file hash : Bytes} (h : Hashed file hash)
    (hlen : file.length < 2147483648) :
    hash = fileHash file := by
  obtain ⟨sizes, c, hwhole, rfl⟩ := h
  exact hashOf_whole hwhole hlen c

/-! ## Tries -/

/-- No try before the check posts a good package. -/
theorem tries_failed {di : DownloadItem} {xs : List Try} (hnone : deciding xs = none) {s : State}
    (h : xs ≠ [] ∨ s.uc_rlt ≠ enDrSuc) : (tries di xs s).uc_rlt ≠ enDrSuc := by
  induction xs generalizing s with
  | nil =>
    rcases h with h | h
    · exact absurd rfl h
    · exact h
  | cons x xs ih =>
    unfold deciding at hnone ih
    rw [List.find?_cons] at hnone
    unfold tries
    cases htemp : x.temp_opens with
    | false =>
      simp only [htemp, Bool.false_and] at hnone
      exact ih hnone (Or.inr (by simp [enDrSfa, enDrSuc]))
    | true =>
      cases hhttp : x.http_runs with
      | false =>
        simp only [htemp, hhttp, Bool.and_false] at hnone
        exact ih hnone (Or.inr (by simp [enDrDfa, enDrSuc]))
      | true =>
        simp only [htemp, hhttp, Bool.and_true] at hnone
        cases hnone

/-- The try that comes to its check finds the saved file and the kept length as they were. -/
theorem tries_deciding (di : DownloadItem) {xs : List Try} {x : Try}
    (h : deciding xs = some x) (s : State) :
    ∃ s₁, tries di xs s = check x di s₁ ∧ s₁.un_file_len = s.un_file_len ∧
      s₁.files (tempFile di) = some x.received ∧
      s₁.files di.str_save_file_name = s.files di.str_save_file_name := by
  induction xs generalizing s with
  | nil => cases h
  | cons y xs ih =>
    unfold deciding at h ih
    rw [List.find?_cons] at h
    unfold tries
    cases htemp : y.temp_opens with
    | false =>
      simp only [htemp, Bool.false_and] at h
      exact ih h { s with uc_rlt := enDrSfa }
    | true =>
      cases hhttp : y.http_runs with
      | false =>
        simp only [htemp, hhttp, Bool.and_false] at h
        obtain ⟨s₁, htries, hlen, htemp, hfiles⟩ :=
          ih h { s.write (tempFile di) (some y.received) with uc_rlt := enDrDfa }
        exact ⟨s₁, htries, hlen, htemp, hfiles.trans (write_temp s di _)⟩
      | true =>
        simp only [htemp, hhttp, Bool.and_true] at h
        cases h
        simp only [not_true_eq_false, if_false]
        exact ⟨s.write (tempFile di) (some x.received), rfl, rfl, write_save s _ _,
          write_temp s di _⟩

/-! ## The check -/

theorem check_rlt (x : Try) (di : DownloadItem) (s : State) :
    (check x di s).uc_rlt = enDrSuc ↔ hashOf (crcsOf x di s) = cstr di.str_file_hash := by
  unfold check
  dsimp only
  split
  · rename_i h
    exact iff_of_true rfl h
  · rename_i h
    refine iff_of_false ?_ h
    split
    · simp [enDrCfa, enDrSuc]
    · simp [enDrCfa, enDrSuc]

theorem check_files {x : Try} {di : DownloadItem} {s : State}
    (h : (check x di s).uc_rlt = enDrSuc) :
    (check x di s).files di.str_save_file_name = saved x di s := by
  have hhash := (check_rlt x di s).mp h
  unfold check
  dsimp only
  rw [if_pos hhash]
  exact write_save s _ _

theorem crcsOf_opened {x : Try} {di : DownloadItem} {s : State} (h : Opened s di x) :
    ∃ file, saved x di s = some file ∧ Hashed file (hashOf (crcsOf x di s)) := by
  obtain ⟨hopens, hexists⟩ := h
  obtain ⟨file, hfile⟩ := Option.ne_none_iff_exists'.mp (decryptFile_ne_none.mpr hexists)
  refine ⟨file, hfile, x.check_sizes file, ⟨0, 0, 0, s.un_file_len⟩, x.whole file, ?_⟩
  have hsaved : saved x di s = some file := hfile
  simp only [crcsOf, hopens, if_true, hsaved, Option.getD_some]

/-- A check that opens no file leaves its variables as they were. -/
theorem crcsOf_unopened {x : Try} {di : DownloadItem} {s : State} (h : ¬ Opened s di x) :
    crcsOf x di s = ⟨0, 0, 0, s.un_file_len⟩ := by
  have hfile : (if x.check_opens then saved x di s else none) = none := by
    split
    · rename_i hopens
      by_contra hne
      exact h ⟨hopens, decryptFile_ne_none.mp hne⟩
    · rfl
  simp only [crcsOf, hfile]
  rfl

/-! ## A task -/

theorem downloadResult_ok {uc_rlt : UInt8} {di : DownloadItem} {uc_result : Bytes}
    (h : downloadResult uc_rlt di = .ok uc_result) :
    uc_result = uc_rlt :: names (resultTexts di) := by
  unfold downloadResult at h
  split at h
  · cases h
  · cases h
    rfl

theorem handle_task {s s' : State} {di : DownloadItem} {three : { xs : List Try // xs.length = 3 }}
    {temp_deleted : Bool} {os : List Bytes}
    (h : handle s (.task di three temp_deleted) = .ok (s', os)) :
    os = [(tries di three.1 s).uc_rlt :: names (resultTexts di)] ∧
      s'.files di.str_save_file_name = (tries di three.1 s).files di.str_save_file_name := by
  obtain ⟨uc_result, hresult, hs⟩ := bind_ok h
  cases hs
  rw [downloadResult_ok hresult]
  cases temp_deleted with
  | false => exact ⟨rfl, rfl⟩
  | true => exact ⟨rfl, write_temp _ di none⟩

theorem handle_fits (s : State) {di : DownloadItem} (three : { xs : List Try // xs.length = 3 })
    (temp_deleted : Bool) (h : (names (resultTexts di)).length < 5120) :
    ∃ s', handle s (.task di three temp_deleted) =
        .ok (s', [(tries di three.1 s).uc_rlt :: names (resultTexts di)]) ∧
      s'.files di.str_save_file_name = (tries di three.1 s).files di.str_save_file_name := by
  have hresult : ∀ uc_rlt, downloadResult uc_rlt di = .ok (uc_rlt :: names (resultTexts di)) := by
    intro uc_rlt
    unfold downloadResult
    rw [if_neg (by rw [List.length_cons]; omega)]
  have hs : ∃ s', handle s (.task di three temp_deleted) =
      .ok (s', [(tries di three.1 s).uc_rlt :: names (resultTexts di)]) := by
    simp only [handle, hresult, bind, Except.bind]
    cases temp_deleted with
    | false => exact ⟨_, rfl⟩
    | true => exact ⟨_, rfl⟩
  obtain ⟨s', hs⟩ := hs
  exact ⟨s', hs, (handle_task hs).2⟩

theorem good_task {s s' : State} {di : DownloadItem} {three : { xs : List Try // xs.length = 3 }}
    {temp_deleted : Bool} {uc_result : Bytes} (es : List (Event × List Bytes))
    (hok : Careful es s (.task di three temp_deleted))
    (h : handle s (.task di three temp_deleted) = .ok (s', [enDrSuc :: uc_result])) :
    ∃ file, s'.files di.str_save_file_name = some file ∧ Hashed file (cstr di.str_file_hash) := by
  obtain ⟨hos, hfiles⟩ := handle_task h
  have hgood : (tries di three.1 s).uc_rlt = enDrSuc := by
    simp only [List.cons.injEq] at hos
    exact hos.1.1.symm
  have hne : three.1 ≠ [] := List.ne_nil_of_length_pos (by rw [three.2]; decide)
  cases hx : deciding three.1 with
  | none => exact absurd hgood (tries_failed hx (Or.inl hne))
  | some x =>
    obtain ⟨s₁, htries, hlen, _, hsame⟩ := tries_deciding di hx s
    rw [htries] at hgood hfiles
    have hhash := (check_rlt x di s₁).mp hgood
    rw [hfiles, check_files hgood]
    have hopened : Opened s₁ di x := by
      rcases hok di three temp_deleted rfl x hx with hopened | hother
      · unfold Opened
        rw [hsame]
        exact hopened
      · by_contra hnot
        rw [crcsOf_unopened hnot, hlen] at hhash
        exact hother hhash.symm
    obtain ⟨file, hfile, hhashed⟩ := crcsOf_opened hopened
    rw [hhash] at hhashed
    exact ⟨file, hfile, hhashed⟩

/-- A task that is not careful is posted as good, whatever was saved. -/
theorem careless_task {s s' : State} {di : DownloadItem}
    {three : { xs : List Try // xs.length = 3 }} {temp_deleted : Bool} {os : List Bytes}
    (es : List (Event × List Bytes)) (hok : ¬ Careful es s (.task di three temp_deleted))
    (h : handle s (.task di three temp_deleted) = .ok (s', os)) :
    os = [enDrSuc :: names (resultTexts di)] := by
  obtain ⟨hos, _⟩ := handle_task h
  rw [hos]
  simp only [Careful, not_forall] at hok
  obtain ⟨di', three', temp_deleted', he, x, hx, hcare⟩ := hok
  cases he
  rw [not_or, not_not] at hcare
  obtain ⟨hopened, hhash⟩ := hcare
  obtain ⟨s₁, htries, hlen, _, hsame⟩ := tries_deciding di hx s
  have hgood : (check x di s₁).uc_rlt = enDrSuc := by
    rw [check_rlt, crcsOf_unopened, hlen]
    · exact hhash.symm
    · unfold Opened at hopened ⊢
      rw [hsame]
      exact hopened
  rw [htries, hgood]

theorem Good.of_run {files : Bytes → Option Bytes} {es : List (Event × List Bytes)} {s : State}
    (h : Run handle Careful (.start files) es s) : Good es s := by
  intro di three temp_deleted uc_result older hes
  cases h with
  | start => cases hes
  | next before ok step =>
    cases hes
    obtain ⟨file, hfile, hhashed⟩ := good_task older ok step
    exact ⟨file, hfile, hhashed, hashed_fileHash hhashed⟩

/-! ## Two tasks -/

/-- A try in which all goes well, but for the destination of the decryption. -/
def emptyTry (dst_opens : Bool) : Try where
  temp_opens := true
  received := []
  http_runs := true
  decryption := ⟨dst_opens, true, [], fun n => n, []⟩
  check_opens := true
  check_sizes := fun file => List.replicate file.length 1
  save_deleted := true
  whole := fun file => ⟨fun n hn => by rw [List.eq_of_mem_replicate hn]; decide, by simp⟩

/-- The task of an empty package, of which all checksums are zero. -/
def emptyTask : DownloadItem := ⟨[117], [107], [102], [112], [109], [118], fileHash []⟩

/-- The event of this task. -/
def downloading (dst_opens : Bool) : Event :=
  .task emptyTask ⟨[emptyTry dst_opens, emptyTry dst_opens, emptyTry dst_opens], rfl⟩ true

theorem fileHash_nil : fileHash [] = List.replicate 32 48 := by decide

theorem resultTexts_emptyTask : (names (resultTexts emptyTask)).length < 5120 := by decide

/-- The decryption of nothing is nothing, where it finds its files. -/
theorem saved_emptyTry (dst_opens : Bool) {s : State} (hfiles : s.files [102] = none)
    (htemp : s.files (tempFile emptyTask) = some []) :
    saved (emptyTry dst_opens) emptyTask s = if dst_opens then some [] else none := by
  unfold saved
  rw [htemp, show s.files emptyTask.str_save_file_name = none from hfiles]
  cases dst_opens with
  | false => rfl
  | true => rfl

theorem crcsOf_emptyTry (dst_opens : Bool) {s : State} (hfiles : s.files [102] = none)
    (htemp : s.files (tempFile emptyTask) = some []) (hlen : s.un_file_len = 0) :
    crcsOf (emptyTry dst_opens) emptyTask s = ⟨0, 0, 0, 0⟩ := by
  unfold crcsOf
  rw [saved_emptyTry dst_opens hfiles htemp, hlen]
  cases dst_opens with
  | false => rfl
  | true => rfl

theorem handle_downloading (dst_opens : Bool) :
    ∃ s', handle (.start (fun _ => none)) (downloading dst_opens) =
      .ok (s', [enDrSuc :: names (resultTexts emptyTask)]) ∧
    s'.files [102] = if dst_opens then some [] else none := by
  have hdeciding : deciding [emptyTry dst_opens, emptyTry dst_opens, emptyTry dst_opens] =
      some (emptyTry dst_opens) := rfl
  obtain ⟨s₁, htries, hlen, htemp, hsame⟩ :=
    tries_deciding emptyTask hdeciding (.start (fun _ => none))
  have hcrcs := crcsOf_emptyTry dst_opens hsame htemp hlen
  have hgood : (check (emptyTry dst_opens) emptyTask s₁).uc_rlt = enDrSuc := by
    rw [check_rlt, hcrcs]
    decide
  obtain ⟨s', hs, hfiles⟩ := handle_fits (.start (fun _ => none))
    ⟨[emptyTry dst_opens, emptyTry dst_opens, emptyTry dst_opens], rfl⟩ true resultTexts_emptyTask
  dsimp only at hs hfiles
  rw [htries, hgood] at hs
  rw [htries, check_files hgood, saved_emptyTry dst_opens hsame htemp] at hfiles
  exact ⟨s', hs, hfiles⟩

/-! ## The law -/

/-- In every run in which no check is left without a file while the hash of its task is the
string of the kept length, a package that is posted as good is saved and has its hash. A
task that is not so is posted as good, whatever was saved. -/
theorem a_package_that_is_posted_as_good_is_saved_with_its_hash {files : Bytes → Option Bytes}
    {es : List (Event × List Bytes)} {s : State} (h : Run handle Careful (.start files) es s) :
    Good es s ∧
    ∀ di three temp_deleted s' os, ¬ Careful es s (.task di three temp_deleted) →
      handle s (.task di three temp_deleted) = .ok (s', os) →
        os = [enDrSuc :: names (resultTexts di)] :=
  ⟨Good.of_run h, fun _ _ _ _ _ hok hs => careless_task es hok hs⟩

/-- An empty package is saved and posted as good. -/
theorem an_empty_package_is_posted_as_good :
    ∃ s', Run handle Careful (.start (fun _ => none))
        [(downloading true, [enDrSuc :: names (resultTexts emptyTask)])] s' ∧
      ∃ file, s'.files [102] = some file ∧ Hashed file (fileHash []) := by
  obtain ⟨s', hs, _⟩ := handle_downloading true
  have hok : Careful [] (.start (fun _ => none)) (downloading true) := by
    intro di three temp_deleted he x hx
    cases he
    cases hx
    exact Or.inl ⟨rfl, Or.inl rfl⟩
  have hrun := Run.start.next hok hs
  obtain ⟨file, hfile, hhashed, _⟩ :=
    (a_package_that_is_posted_as_good_is_saved_with_its_hash hrun).1 _ _ _ _ _ rfl
  have hcstr : cstr (fileHash []) = fileHash [] := cstr_of_notMem (by rw [fileHash_nil]; decide)
  rw [show cstr emptyTask.str_file_hash = cstr (fileHash []) from rfl, hcstr] at hhashed
  exact ⟨s', hrun, file, hfile, hhashed⟩

/-- The first task of a thread is to download an empty package, and the saved file does not open
for its decryption. It is posted as good, and there is no file. -/
theorem a_package_that_was_never_saved_is_posted_as_good :
    ∃ s', Run handle Any (.start (fun _ => none))
        [(downloading false, [enDrSuc :: names (resultTexts emptyTask)])] s' ∧
      s'.files emptyTask.str_save_file_name = none ∧
      ¬ Good [(downloading false, [enDrSuc :: names (resultTexts emptyTask)])] s' := by
  obtain ⟨s', hs, hnone⟩ := handle_downloading false
  refine ⟨s', Run.start.next trivial hs, hnone, fun hgood => ?_⟩
  obtain ⟨file, hfile, _⟩ := hgood _ _ _ _ _ rfl
  rw [show s'.files emptyTask.str_save_file_name = none from hnone] at hfile
  cases hfile

end aods.downloads
