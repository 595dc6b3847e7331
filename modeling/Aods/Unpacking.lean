-- The loop of `OnDownloadResult` over an archive: which entries it comes to, when it ends
-- without an overrun, what its result is, and what it does for the entries.
import Aods.PackageUpdate

open machine traced
open util.ao_file util.ao_file_control
open aods.download_thread (enDrSuc)

namespace aods.update_module_mgr

/-! ## The pure model -/

/-- A text that an array of `EN_MAX_PATH_LEN` can hold. -/
def Fits (b : Bytes) : Prop := b.length < enMaxPathLen

instance (b : Bytes) : Decidable (Fits b) := inferInstanceAs (Decidable (b.length < enMaxPathLen))

/-- The file of an entry opens, and the calls around its reads succeed. -/
def Visit.takes (v : Visit) : Bool := v.opens ∧ v.open_current = 0 ∧ v.close_current = 0

/-- The two breaks that set `EN_DR_UFA`. -/
def fails (e : ZipEntry) (v : Visit) : Bool := v.info = 0 ∧ ¬ e.isDir ∧ ¬ v.takes

/-- The loop goes on behind an entry. -/
def goesOn (e : ZipEntry) (v : Visit) : Bool := v.info = 0 ∧ (e.isDir ∨ v.takes) ∧ v.next = 0

/-- The entries that the loop comes to. -/
def visited : Archive → Archive
  | [] => []
  | (e, v) :: archive => (e, v) :: if goesOn e v then visited archive else []

/-- The paths of a file of the archive fit their arrays. -/
def FileFits (dir prj module : Bytes) (e : ZipEntry) (v : Visit) : Prop :=
  Fits (bakPath dir prj module e) ∧
    (v.takes → executable (standPath dir e) → Fits (chmodCmd (standPath dir e)))

instance (dir prj module : Bytes) (e : ZipEntry) (v : Visit) :
    Decidable (FileFits dir prj module e v) :=
  inferInstanceAs (Decidable (_ ∧ _))

def EntryFits (dir prj module : Bytes) (e : ZipEntry) (v : Visit) : Prop :=
  v.info = 0 → Fits (filePath dir e) ∧ (e.isDir = false → FileFits dir prj module e v)

instance (dir prj module : Bytes) (e : ZipEntry) (v : Visit) :
    Decidable (EntryFits dir prj module e v) :=
  inferInstanceAs (Decidable (_ → _))

/-- The paths of all entries that the loop comes to fit their arrays. -/
def ArchiveFits (dir prj module : Bytes) (archive : Archive) : Prop :=
  ∀ ev ∈ visited archive, EntryFits dir prj module ev.1 ev.2

instance (dir prj module : Bytes) (archive : Archive) :
    Decidable (ArchiveFits dir prj module archive) :=
  inferInstanceAs (Decidable (∀ ev ∈ visited archive, EntryFits dir prj module ev.1 ev.2))

/-- Some entry sets `EN_DR_UFA`. -/
def Broken (archive : Archive) : Prop := ∃ ev ∈ visited archive, fails ev.1 ev.2

instance (archive : Archive) : Decidable (Broken archive) :=
  inferInstanceAs (Decidable (∃ ev ∈ visited archive, fails ev.1 ev.2))

/-- The number of the entry that something is done for. -/
def Effect.entry : Effect → Option Nat
  | .made_dirs n _ => some n
  | .opened n _ _ => some n
  | _ => none

/-- What a trace does for entries. -/
def marks (trace : List Effect) : List Effect := trace.filter (fun f => f.entry.isSome)

/-- `ucRlt` behind the loop. -/
def unpackRlt (archive : Archive) : UInt8 := if Broken archive then enDrUfa else enDrSuc

/-- The result that an entry breaks the loop with, if it does. -/
def entryRlt (e : ZipEntry) (v : Visit) : Option UInt8 :=
  if v.info ≠ 0 then some enDrSuc else if e.isDir ∨ v.takes then none else some enDrUfa

/-! ## One entry -/

theorem sprintfPath_eq {b b' : Bytes} (h : sprintfPath b = .ok b') : b' = b ∧ Fits b := by
  unfold sprintfPath at h
  split at h
  · rename_i hfits
    cases h
    exact ⟨rfl, hfits⟩
  · cases h

theorem sprintfPath_fits {b : Bytes} (h : Fits b) : sprintfPath b = .ok b := sprintfPath_ok h

theorem sprintfPath_overrun {b : Bytes} (h : ¬ Fits b) : sprintfPath b = .error .overrun :=
  sprintfPath_error h

/-- `UnzipCurentFile` succeeds when its calls do, whatever the reads gave. -/
theorem unzipCurentFile_ok (e : ZipEntry) (v : Visit) :
    (unzipCurentFile e v).1 = 0 ↔ v.open_current = 0 ∧ v.close_current = 0 := by
  unfold unzipCurentFile
  split
  · rename_i h
    simp [h]
  · rename_i h
    simp only [not_not] at h
    simp [h]

theorem backUp_result (v : Visit) (stand bak : Bytes) : (backUp v stand bak).result = .ok () := by
  unfold backUp
  split
  · rfl
  · rfl

theorem makeExecutable_fits {path : Bytes} (h : executable path → Fits (chmodCmd path)) :
    (makeExecutable path).result = .ok () := by
  unfold makeExecutable
  split
  · rename_i hexe
    rw [sprintfPath_fits (h hexe)]
    rfl
  · rfl

theorem makeExecutable_overrun {path : Bytes} (hexe : executable path)
    (h : ¬ Fits (chmodCmd path)) :
    (makeExecutable path).result = .error .overrun := by
  unfold makeExecutable
  rw [if_pos hexe, sprintfPath_overrun h]
  rfl

theorem makeExecutable_entry (path : Bytes) :
    Leaves (fun f : Effect => f.entry = none) (makeExecutable path) := by
  unfold makeExecutable
  split
  · exact Leaves.bind (Leaves.attempt _) (fun cmd _ => Leaves.emit rfl)
  · exact Leaves.pure ()

@[simp] theorem marks_nil : marks [] = [] := rfl

@[simp] theorem marks_append (trace trace' : List Effect) :
    marks (trace ++ trace') = marks trace ++ marks trace' :=
  List.filter_append ..

@[simp] theorem marks_cons (f : Effect) (trace : List Effect) :
    marks (f :: trace) = if f.entry.isSome then f :: marks trace else marks trace :=
  List.filter_cons

theorem marks_of_leaves {α : Type} {x : Traced Effect Fault α}
    (h : Leaves (fun f => f.entry = none) x) :
    marks x.trace = [] := by
  apply List.filter_eq_nil_iff.mpr
  intro f hf
  simp [h f hf]

theorem backUp_entry (v : Visit) (stand bak : Bytes) :
    Leaves (fun f : Effect => f.entry = none) (backUp v stand bak) := by
  unfold backUp
  split
  · exact Leaves.emit rfl
  · exact Leaves.pure ()

theorem takes_iff (e : ZipEntry) (v : Visit) : v.takes ↔ v.opens ∧ (unzipCurentFile e v).1 = 0 := by
  rw [unzipCurentFile_ok]
  simp [Visit.takes]

/-- What is done for a file that fits: its backup and its directories, and then it is opened. -/
theorem unpackFile_fits {dir prj module : Bytes} (n : Nat) {e : ZipEntry} {v : Visit}
    (h : FileFits dir prj module e v) :
    (unpackFile dir prj module n e v).result = .ok (if v.takes then none else some enDrUfa) ∧
      marks (unpackFile dir prj module n e v).trace =
        [.opened n (standPath dir e) (if v.opens then some (unzipCurentFile e v).2 else none)] := by
  obtain ⟨hbak, hchmod⟩ := h
  have hback := marks_of_leaves (backUp_entry v (standPath dir e) (bakPath dir prj module e))
  have hrights := marks_of_leaves (makeExecutable_entry (standPath dir e))
  have hbackOk := backUp_result v (standPath dir e) (bakPath dir prj module e)
  unfold unpackFile
  cases hopens : v.opens with
  | false =>
    have htakes : v.takes = false := by simp [Visit.takes, hopens]
    simp [sprintfPath_fits hbak, hbackOk, hback, htakes, Effect.entry, Except.bind]
  | true =>
    by_cases hok : (unzipCurentFile e v).1 = 0
    · have htakes : v.takes = true := (takes_iff e v).mpr ⟨hopens, hok⟩
      have hrightsOk := makeExecutable_fits (hchmod htakes)
      simp [sprintfPath_fits hbak, hbackOk, hback, htakes, hok, hrights, hrightsOk, Effect.entry,
        Except.bind]
    · have htakes : ¬ v.takes := fun h => hok ((takes_iff e v).mp h).2
      simp [sprintfPath_fits hbak, hbackOk, hback, htakes, hok, Effect.entry, Except.bind]

theorem unpackFile_overrun {dir prj module : Bytes} (n : Nat) {e : ZipEntry} {v : Visit}
    (h : ¬ FileFits dir prj module e v) :
    (unpackFile dir prj module n e v).result = .error .overrun := by
  have hbackOk := backUp_result v (standPath dir e) (bakPath dir prj module e)
  unfold unpackFile
  by_cases hbak : Fits (bakPath dir prj module e)
  · have hchmod : v.takes ∧ executable (standPath dir e) ∧ ¬ Fits (chmodCmd (standPath dir e)) := by
      simpa [FileFits, hbak] using h
    obtain ⟨htakes, hexe, hlong⟩ := hchmod
    obtain ⟨hopens, hok⟩ := (takes_iff e v).mp htakes
    simp [sprintfPath_fits hbak, hbackOk, hopens, hok, makeExecutable_overrun hexe hlong,
      Except.bind]
  · simp [sprintfPath_overrun hbak, Except.bind]

/-- What is done for an entry under its number. -/
def markOf (dir : Bytes) (n : Nat) (e : ZipEntry) (v : Visit) : List Effect :=
  if v.info ≠ 0 then []
  else if e.isDir then [.made_dirs n (standPath dir e)]
  else [.opened n (standPath dir e) (if v.opens then some (unzipCurentFile e v).2 else none)]

theorem unpackEntry_fits {dir prj module : Bytes} (n : Nat) {e : ZipEntry} {v : Visit}
    (h : EntryFits dir prj module e v) :
    (unpackEntry dir prj module n e v).result = .ok (entryRlt e v) ∧
      marks (unpackEntry dir prj module n e v).trace = markOf dir n e v := by
  unfold unpackEntry markOf entryRlt
  by_cases hinfo : v.info = 0
  · obtain ⟨hpath, hfile⟩ := h hinfo
    cases hdir : e.isDir with
    | true => simp [hinfo, sprintfPath_fits hpath, Effect.entry, Except.bind]
    | false =>
      obtain ⟨hresult, hmarks⟩ := unpackFile_fits n (hfile hdir)
      simp [hinfo, sprintfPath_fits hpath, hresult, hmarks, Except.bind]
  · simp [hinfo]

theorem unpackEntry_overrun {dir prj module : Bytes} (n : Nat) {e : ZipEntry} {v : Visit}
    (h : ¬ EntryFits dir prj module e v) :
    (unpackEntry dir prj module n e v).result = .error .overrun := by
  simp only [EntryFits, Classical.not_imp] at h
  obtain ⟨hinfo, h⟩ := h
  unfold unpackEntry
  by_cases hpath : Fits (filePath dir e)
  · have hfile : e.isDir = false ∧ ¬ FileFits dir prj module e v := by simpa [hpath] using h
    simp [hinfo, sprintfPath_fits hpath, hfile.1, unpackFile_overrun n hfile.2, Except.bind]
  · simp [hinfo, sprintfPath_overrun hpath, Except.bind]

/-! ## The loop -/

/-- What is done for the entries that the loop comes to. -/
def marksOf (dir : Bytes) : Nat → Archive → List Effect
  | _, [] => []
  | n, (e, v) :: archive =>
    markOf dir n e v ++ if goesOn e v then marksOf dir (n + 1) archive else []

theorem archiveFits_cons {dir prj module : Bytes} {e : ZipEntry} {v : Visit} {archive : Archive} :
    ArchiveFits dir prj module ((e, v) :: archive) ↔
      EntryFits dir prj module e v ∧ (goesOn e v → ArchiveFits dir prj module archive) := by
  unfold ArchiveFits
  rw [visited, List.forall_mem_cons]
  cases goesOn e v with
  | true => simp
  | false => simp

theorem broken_cons {e : ZipEntry} {v : Visit} {archive : Archive} :
    Broken ((e, v) :: archive) ↔ fails e v ∨ goesOn e v ∧ Broken archive := by
  unfold Broken
  rw [visited, List.exists_mem_cons_iff]
  cases goesOn e v with
  | true => simp
  | false => simp

/-- The ways out of a turn of the loop. -/
theorem turn_cases (e : ZipEntry) (v : Visit) :
    (entryRlt e v = some enDrSuc ∧ fails e v = false ∧ goesOn e v = false) ∨
      (entryRlt e v = some enDrUfa ∧ fails e v = true ∧ goesOn e v = false) ∨
      (entryRlt e v = none ∧ fails e v = false ∧ (goesOn e v ↔ v.next = 0)) := by
  unfold entryRlt fails goesOn
  by_cases hinfo : v.info = 0
  · cases e.isDir with
    | true => simp [hinfo]
    | false =>
      cases v.takes with
      | true => simp [hinfo]
      | false => simp [hinfo]
  · simp [hinfo]

/-- A loop whose paths fit comes to its end, and does what its entries ask for. -/
theorem unpack_fits {dir prj module : Bytes} {archive : Archive}
    (h : ArchiveFits dir prj module archive) (n : Nat) :
    (unpack dir prj module n archive).result = .ok (unpackRlt archive) ∧
      marks (unpack dir prj module n archive).trace = marksOf dir n archive := by
  induction archive generalizing n with
  | nil => exact ⟨rfl, rfl⟩
  | cons ev archive ih =>
    obtain ⟨e, v⟩ := ev
    obtain ⟨hentry, hrest⟩ := archiveFits_cons.mp h
    obtain ⟨hresult, hmarks⟩ := unpackEntry_fits n hentry
    unfold unpack marksOf unpackRlt
    rcases turn_cases e v with ⟨hrlt, hfails, hgoes⟩ | ⟨hrlt, hfails, hgoes⟩ | ⟨hrlt, hfails, hgoes⟩
    · simp [hresult, hmarks, hrlt, broken_cons, hfails, hgoes, Except.bind]
    · simp [hresult, hmarks, hrlt, broken_cons, hfails, hgoes, Except.bind]
    · by_cases hnext : v.next = 0
      · have hgoes := hgoes.mpr hnext
        obtain ⟨hloop, hloopMarks⟩ := ih (hrest hgoes) (n + 1)
        simp [hresult, hmarks, hrlt, broken_cons, hfails, hgoes, hnext, hloop, hloopMarks,
          unpackRlt, Except.bind]
      · simp [hresult, hmarks, hrlt, broken_cons, hfails, hgoes, hnext, Except.bind]

theorem unpack_overrun {dir prj module : Bytes} {archive : Archive}
    (h : ¬ ArchiveFits dir prj module archive) (n : Nat) :
    (unpack dir prj module n archive).result = .error .overrun := by
  induction archive generalizing n with
  | nil => exact absurd (fun ev hev => by cases hev) h
  | cons ev archive ih =>
    obtain ⟨e, v⟩ := ev
    rw [archiveFits_cons] at h
    unfold unpack
    by_cases hentry : EntryFits dir prj module e v
    · obtain ⟨hresult, _⟩ := unpackEntry_fits n hentry
      have hrest : goesOn e v ∧ ¬ ArchiveFits dir prj module archive := by simpa [hentry] using h
      obtain ⟨hgoes, hrest⟩ := hrest
      rcases turn_cases e v with ⟨_, _, hstops⟩ | ⟨_, _, hstops⟩ | ⟨hrlt, _, hnext⟩
      · rw [hgoes] at hstops
        cases hstops
      · rw [hgoes] at hstops
        cases hstops
      · simp [hresult, hrlt, hnext.mp hgoes, ih hrest (n + 1), Except.bind]
    · simp [unpackEntry_overrun n hentry, Except.bind]

/-! ## What is done at all -/

variable {P : Effect → Prop}

/-- What holds of all that is done for a file holds of the file. -/
theorem unpackFile_leaves {dir prj module : Bytes} (n : Nat) {e : ZipEntry} (v : Visit)
    (hbakDirs : P (.create_dirs (pathName (bakPath dir prj module e))))
    (hcut : v.found → P (.cut_file (toStandardlPath (standPath dir e) [47])
      (toStandardlPath (bakPath dir prj module e) [47])))
    (hdirs : P (.create_dirs (pathName (standPath dir e))))
    (hopened : ∀ file, P (.opened n (standPath dir e) file))
    (hcmd : executable (standPath dir e) → P (.ran_cmd (chmodCmd (standPath dir e)))) :
    Leaves P (unpackFile dir prj module n e v) := by
  unfold unpackFile
  refine Leaves.bind (Leaves.attempt _) (fun bak hbak => ?_)
  have hbak : bak = bakPath dir prj module e := (sprintfPath_eq hbak).1
  subst hbak
  refine Leaves.bind (Leaves.emit hbakDirs) (fun _ _ => Leaves.bind ?_ (fun _ _ => ?_))
  · unfold backUp
    split
    · rename_i hfound
      exact Leaves.emit (hcut hfound)
    · exact Leaves.pure ()
  refine Leaves.bind (Leaves.emit hdirs) (fun _ _ => ?_)
  split
  · exact Leaves.bind (Leaves.emit (hopened none)) (fun _ _ => Leaves.pure _)
  refine Leaves.bind (Leaves.emit (hopened _)) (fun _ _ => ?_)
  split
  · exact Leaves.pure _
  refine Leaves.bind ?_ (fun _ _ => Leaves.pure _)
  unfold makeExecutable
  split
  · rename_i hexe
    refine Leaves.bind (Leaves.attempt _) (fun cmd hcmd' => Leaves.emit ?_)
    rw [(sprintfPath_eq hcmd').1]
    exact hcmd hexe
  · exact Leaves.pure ()

/-- What holds of all that is done for an entry holds of its turn. -/
theorem unpackEntry_leaves {dir prj module : Bytes} (n : Nat) {e : ZipEntry} (v : Visit)
    (hdir : e.isDir → P (.made_dirs n (standPath dir e)))
    (hfile : e.isDir = false →
      P (.create_dirs (pathName (bakPath dir prj module e))) ∧
      P (.cut_file (toStandardlPath (standPath dir e) [47])
        (toStandardlPath (bakPath dir prj module e) [47])) ∧
      P (.create_dirs (pathName (standPath dir e))) ∧
      (∀ file, P (.opened n (standPath dir e) file)) ∧
      (executable (standPath dir e) → P (.ran_cmd (chmodCmd (standPath dir e))))) :
    Leaves P (unpackEntry dir prj module n e v) := by
  unfold unpackEntry
  split
  · exact Leaves.pure _
  refine Leaves.bind (Leaves.attempt _) (fun _ _ => ?_)
  cases hd : e.isDir with
  | true => exact Leaves.bind (Leaves.emit (hdir hd)) (fun _ _ => Leaves.pure _)
  | false =>
    obtain ⟨hbakDirs, hcut, hdirs, hopened, hcmd⟩ := hfile hd
    exact unpackFile_leaves n v hbakDirs (fun _ => hcut) hdirs hopened hcmd

/-- What holds of the turns of all entries holds of the loop. -/
theorem unpack_leaves {dir prj module : Bytes} {archive : Archive}
    (h : ∀ n, ∀ ev ∈ archive, Leaves P (unpackEntry dir prj module n ev.1 ev.2)) (n : Nat) :
    Leaves P (unpack dir prj module n archive) := by
  induction archive generalizing n with
  | nil => exact Leaves.pure _
  | cons ev archive ih =>
    obtain ⟨e, v⟩ := ev
    have hrest := fun n ev hev => h n ev (List.mem_cons_of_mem _ hev)
    unfold unpack
    refine Leaves.bind (h n (e, v) List.mem_cons_self) (fun rlt _ => ?_)
    cases rlt with
    | some rlt => exact Leaves.pure rlt
    | none =>
      dsimp only
      split
      · exact ih hrest (n + 1)
      · exact Leaves.pure _

/-- Effects that have nothing to do with the archive. -/
structure Outside (P : Effect → Prop) : Prop where
  del_file : ∀ path, P (.del_file path)
  save_cfg : ∀ s, P (.save_cfg s)
  send_out : ∀ data, P (.send_out data)

theorem reportResult_leaves (h : Outside P) (r : DownloadResult) : Leaves P (reportResult r) :=
  Leaves.bind (Leaves.attempt _) (fun data _ => Leaves.emit (h.send_out data))

theorem saveCfg_leaves (h : Outside P) (app_path : AppPath) (s : State) :
    Leaves P (saveCfg app_path s) :=
  Leaves.bind (Leaves.attempt _) (fun _ _ => Leaves.emit (h.save_cfg s))

theorem settle_leaves (h : Outside P) (app_path : AppPath) (s : State) (r : DownloadResult) :
    Leaves P (settle app_path s r) := by
  unfold settle
  split
  · refine Leaves.bind (saveCfg_leaves h app_path _) (fun _ _ => ?_)
    exact Leaves.bind (reportResult_leaves h r) (fun _ _ => Leaves.pure _)
  · exact Leaves.bind (reportResult_leaves h r) (fun _ _ => Leaves.pure _)

/-- The command of the module is its own. -/
theorem restart_leaves (h : Outside P) (app_path : AppPath) (x : Script) (s : State)
    {mi : ModuleInfo} (hcmd : P (.ran_cmd mi.str_cmd)) (r : DownloadResult) :
    Leaves P (restart app_path x s mi r) := by
  unfold restart
  split
  · split
    · refine Leaves.bind (saveCfg_leaves h app_path _) (fun _ _ => ?_)
      refine Leaves.bind (reportResult_leaves h r) (fun _ _ => ?_)
      exact Leaves.bind (Leaves.emit hcmd) (fun _ _ => Leaves.pure _)
    · exact Leaves.bind (Leaves.emit hcmd) (fun _ _ => settle_leaves h app_path s _)
  · exact settle_leaves h app_path s r

/-- What holds of all that is done for an archive, and of all that is not about it, holds of all
that is done. -/
theorem onDownloadResult_leaves (h : Outside P) {app_path : AppPath} {x : Script} {s : State}
    {r : DownloadResult}
    (hunpack : ∀ mi, s.find r.prj r.module = some mi → P (.ran_cmd mi.str_cmd) ∧
      Leaves P (unpack (workDir app_path mi) r.prj r.module 0 x.archive)) :
    Leaves P (onDownloadResult app_path x s r) := by
  unfold onDownloadResult
  split
  · exact Leaves.bind (reportResult_leaves h r) (fun _ _ => Leaves.pure _)
  cases hfind : s.find r.prj r.module with
  | none => exact Leaves.pure _
  | some mi =>
    dsimp only
    split
    · exact Leaves.pure _
    refine Leaves.bind (Leaves.attempt _) (fun dir hdir => ?_)
    have hdir : dir = workDir app_path mi := (sprintfPath_eq hdir).1
    subst hdir
    obtain ⟨hcmd, hloop⟩ := hunpack mi hfind
    refine Leaves.bind hloop (fun uc_rlt _ => ?_)
    exact Leaves.bind (Leaves.emit (h.del_file _)) (fun _ _ => restart_leaves h app_path x s hcmd _)

end aods.update_module_mgr
