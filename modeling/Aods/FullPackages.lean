-- A package that is recorded as updated, and what is left of it on the disk. The loop over
-- an archive has breaks and calls that say nothing of a failure. The law says when a
-- recorded version has all of its entries in full at their targets.
import Aods.ResultReports

open machine traced
open util.ao_file util.ao_file_control
open aods.download_thread (enDrSuc)
open aods.update_module_mgr

namespace aods.full_packages

/-! ## The pure model -/

/-- What is to be done for an entry: its directory is made, or its file gets all of the data. -/
def wanted (dir : Bytes) (n : Nat) (e : ZipEntry) : Effect :=
  if e.isDir then .made_dirs n (standPath dir e) else .opened n (standPath dir e) (some e.data)

/-- Every entry is written in full to its target path. -/
def AllWritten (dir : Bytes) (archive : Archive) (trace : List Effect) : Prop :=
  ∀ n e v, archive[n]? = some (e, v) → wanted dir n e ∈ trace

/-- The reads come to the end of an entry, and no write is short. -/
def Complete (e : ZipEntry) (v : Visit) : Prop :=
  e.data.length ≤ given 10240 v.sizes ∧
    ∀ n block, (reads 10240 v.sizes e.data)[n]? = some block → block.length ≤ v.saved n

/-- No call goes wrong without a word: the information of each entry is there, behind each but
the last there is a next one, and each file is read and written to its end. -/
def Unbroken (archive : Archive) : Prop :=
  ∀ n e v, archive[n]? = some (e, v) →
    v.info = 0 ∧ (n + 1 < archive.length → v.next = 0) ∧ (e.isDir = false → Complete e v)

/-! ## What the loop comes to -/

theorem mem_marksOf {dir : Bytes} {n : Nat} {archive : Archive} {f : Effect} :
    f ∈ marksOf dir n archive ↔ ∃ k e v, (visited archive)[k]? = some (e, v) ∧
      f ∈ markOf dir (n + k) e v := by
  induction archive generalizing n with
  | nil => simp [marksOf, visited]
  | cons ev archive ih =>
    obtain ⟨e, v⟩ := ev
    rw [marksOf, visited, List.mem_append]
    constructor
    · rintro (hf | hf)
      · exact ⟨0, e, v, rfl, hf⟩
      · split at hf
        · rename_i hgoes
          obtain ⟨k, e', v', hk, hf⟩ := ih.mp hf
          refine ⟨k + 1, e', v', ?_, ?_⟩
          · rw [if_pos hgoes]
            exact hk
          · rw [show n + (k + 1) = n + 1 + k by omega]
            exact hf
        · cases hf
    · rintro ⟨k, e', v', hk, hf⟩
      cases k with
      | zero =>
        cases hk
        exact Or.inl hf
      | succ k =>
        rw [List.getElem?_cons_succ] at hk
        split at hk
        · rename_i hgoes
          rw [if_pos hgoes]
          refine Or.inr (ih.mpr ⟨k, e', v', hk, ?_⟩)
          rw [show n + 1 + k = n + (k + 1) by omega]
          exact hf
        · simp at hk

/-- The entries that the loop comes to stand at the front of the archive. -/
theorem visited_getElem {archive : Archive} {k : Nat} {ev : ZipEntry × Visit}
    (h : (visited archive)[k]? = some ev) :
    archive[k]? = some ev := by
  induction archive generalizing k with
  | nil => simp [visited] at h
  | cons ev' archive ih =>
    obtain ⟨e, v⟩ := ev'
    rw [visited] at h
    cases k with
    | zero => exact h
    | succ k =>
      rw [List.getElem?_cons_succ] at h ⊢
      split at h
      · exact ih h
      · simp at h

theorem visited_goesOn {archive : Archive} {k : Nat} {e : ZipEntry} {v : Visit}
    {ev : ZipEntry × Visit} (h : (visited archive)[k + 1]? = some ev)
    (hk : archive[k]? = some (e, v)) : goesOn e v := by
  induction archive generalizing k with
  | nil => simp at hk
  | cons ev' archive ih =>
    obtain ⟨e', v'⟩ := ev'
    rw [visited, List.getElem?_cons_succ] at h
    split at h
    · rename_i hgoes
      cases k with
      | zero =>
        cases hk
        exact hgoes
      | succ k => exact ih h hk
    · simp at h

theorem unbroken_tail {ev : ZipEntry × Visit} {archive : Archive} (h : Unbroken (ev :: archive)) :
    Unbroken archive := by
  intro n e v hev
  obtain ⟨hinfo, hnext, hcomplete⟩ := h (n + 1) e v hev
  refine ⟨hinfo, fun hlt => hnext ?_, hcomplete⟩
  rw [List.length_cons]
  omega

theorem visited_unbroken {archive : Archive} (h : Unbroken archive) (hbroken : ¬ Broken archive) :
    visited archive = archive := by
  induction archive with
  | nil => rfl
  | cons ev archive ih =>
    obtain ⟨e, v⟩ := ev
    rw [broken_cons, not_or] at hbroken
    obtain ⟨hfails, hrest⟩ := hbroken
    obtain ⟨hinfo, hnext, _⟩ := h 0 e v rfl
    rw [visited]
    cases archive with
    | nil => simp [visited]
    | cons ev' archive =>
      have hgoes : goesOn e v := by
        simpa [goesOn, hinfo, hnext (by simp), fails, or_iff_not_imp_left] using hfails
      rw [if_pos hgoes, ih (unbroken_tail h) (fun hbroken => hrest ⟨hgoes, hbroken⟩)]

/-! ## What is written -/

theorem entry_markOf {dir : Bytes} {n : Nat} {e : ZipEntry} {v : Visit} {f : Effect}
    (h : f ∈ markOf dir n e v) :
    f.entry = some n := by
  unfold markOf at h
  split at h
  · cases h
  · split at h
    · rw [List.mem_singleton.mp h]
      rfl
    · rw [List.mem_singleton.mp h]
      rfl

theorem entry_wanted (dir : Bytes) (n : Nat) (e : ZipEntry) : (wanted dir n e).entry = some n := by
  unfold wanted
  split
  · rfl
  · rfl

/-- What is wanted of an entry that does not break the loop is done when its information is
there and, for a file, all is read and written. -/
theorem wanted_mem_markOf {dir : Bytes} {n : Nat} {e : ZipEntry} {v : Visit}
    (h : fails e v = false) :
    wanted dir n e ∈ markOf dir n e v ↔ v.info = 0 ∧ (e.isDir = false → Complete e v) := by
  unfold wanted markOf Complete
  by_cases hinfo : v.info = 0
  · cases hdir : e.isDir with
    | true => simp [hinfo]
    | false =>
      have htakes : v.takes = true := by simpa [fails, hinfo, hdir] using h
      have hcalls : v.opens = true ∧ v.open_current = 0 ∧ v.close_current = 0 := by
        simpa [Visit.takes] using htakes
      have hgets : (unzipCurentFile e v).2 = written v.saved (reads 10240 v.sizes e.data) := by
        simp [unzipCurentFile, hcalls.2.1]
      rw [← written_reads_iff (by omega), ← hgets]
      simp [hinfo, hcalls.1, eq_comm]
  · simp [hinfo]

/-- The entries of a loop that nothing breaks are written in full just when no call goes wrong
without a word. -/
theorem wanted_mem_marksOf {dir : Bytes} {archive : Archive} (hbroken : ¬ Broken archive) :
    (∀ n e v, archive[n]? = some (e, v) → wanted dir n e ∈ marksOf dir 0 archive) ↔
      Unbroken archive := by
  have hfails : ∀ {k : Nat} {e : ZipEntry} {v : Visit}, (visited archive)[k]? = some (e, v) →
      fails e v = false := by
    intro k e v hk
    rw [Bool.eq_false_iff]
    exact fun hf => hbroken ⟨(e, v), List.mem_of_getElem? hk, hf⟩
  constructor
  · intro h
    have hvisited : ∀ {n : Nat} {e : ZipEntry} {v : Visit}, archive[n]? = some (e, v) →
        (visited archive)[n]? = some (e, v) ∧ wanted dir n e ∈ markOf dir n e v := by
      intro n e v hev
      obtain ⟨k, e', v', hk, hmem⟩ := mem_marksOf.mp (h n e v hev)
      have hn : n = 0 + k := by
        have hentry := entry_markOf hmem
        rw [entry_wanted] at hentry
        exact Option.some.inj hentry
      rw [Nat.zero_add] at hn
      subst hn
      have hsame := visited_getElem hk
      rw [hev] at hsame
      cases hsame
      rw [Nat.zero_add] at hmem
      exact ⟨hk, hmem⟩
    intro n e v hev
    obtain ⟨hk, hmem⟩ := hvisited hev
    obtain ⟨hinfo, hcomplete⟩ := (wanted_mem_markOf (hfails hk)).mp hmem
    refine ⟨hinfo, fun hlt => ?_, hcomplete⟩
    obtain ⟨hnext, _⟩ := hvisited (List.getElem?_eq_getElem hlt)
    have hgoes := visited_goesOn hnext hev
    simp only [goesOn, decide_eq_true_eq] at hgoes
    exact hgoes.2.2
  · intro h n e v hev
    have hall := visited_unbroken h hbroken
    obtain ⟨hinfo, _, hcomplete⟩ := h n e v hev
    have hk : (visited archive)[n]? = some (e, v) := by rw [hall]; exact hev
    refine mem_marksOf.mpr ⟨n, e, v, hk, ?_⟩
    rw [Nat.zero_add]
    exact (wanted_mem_markOf (hfails hk)).mpr ⟨hinfo, hcomplete⟩

theorem marks_restart (app_path : AppPath) (x : Script) (s : State) (mi : ModuleInfo)
    (r : DownloadResult) :
    marks (restart app_path x s mi r).trace = [] := by
  apply marks_of_leaves
  apply restart_leaves
  · exact ⟨fun _ => rfl, fun _ => rfl, fun _ => rfl⟩
  · rfl

theorem mem_marks {f : Effect} {n : Nat} (hf : f.entry = some n) (trace : List Effect) :
    f ∈ trace ↔ f ∈ marks trace := by
  simp [marks, hf]

/-! ## What is recorded -/

/-- The package of a managed module comes to its record: the archive opens, all paths fit, and
no entry breaks the loop with a failure. -/
def Records (app_path : AppPath) (x : Script) (mi : ModuleInfo) (r : DownloadResult) : Prop :=
  r.uc_rlt = enDrSuc ∧ Unpacks app_path x mi r ∧ ¬ Broken x.archive ∧ Fits (cfgPath app_path) ∧
    ReportFits r.sz_buf

variable {app_path : AppPath} {x : Script} {s : State} {r : DownloadResult}

theorem updates_iff : Updates (onDownloadResult app_path x s r) ↔
    ∃ mi, s.find r.prj r.module = some mi ∧ Records app_path x mi r := by
  unfold Records
  by_cases hsuc : r.uc_rlt = enDrSuc
  · cases hfind : s.find r.prj r.module with
    | none =>
      have hsilent := onDownloadResult_silent app_path x s hsuc (by simp [hfind])
      simp [Updates, hsilent]
    | some mi =>
      obtain ⟨hupdates, _⟩ := onDownloadResult_managed app_path x s hsuc hfind
      rw [hupdates]
      simp [hsuc]
  · have hfailed := (onDownloadResult_failed app_path x s hsuc).1
    simp [hfailed, hsuc]

/-- A package that comes to its record is written in full just when no call fails silently. -/
theorem allWritten_iff {mi : ModuleInfo} (hfind : s.find r.prj r.module = some mi)
    (h : Records app_path x mi r) :
    AllWritten (workDir app_path mi) x.archive (onDownloadResult app_path x s r).trace ↔
      Unbroken x.archive := by
  obtain ⟨hsuc, hun, hbroken, _⟩ := h
  obtain ⟨_, htrace⟩ := onDownloadResult_unpacks app_path x s hsuc hfind hun
  have hmarks : marks (onDownloadResult app_path x s r).trace =
      marksOf (workDir app_path mi) 0 x.archive := by
    rw [htrace, marks_append, (unpack_fits hun.2.2 0).2, marks_cons, marks_restart]
    exact List.append_nil _
  rw [← wanted_mem_marksOf hbroken]
  unfold AllWritten
  refine forall_congr' fun n => forall_congr' fun e => forall_congr' fun v =>
    imp_congr_right fun _ => ?_
  rw [mem_marks (entry_wanted (workDir app_path mi) n e), hmarks]

/-! ## Two archives -/

/-- A file that is opened, and whose reads give what they can give. -/
def fileVisit (sizes : List Nat) (next : Int) : Visit :=
  ⟨0, false, true, 0, sizes, fun n => n + 10240, 0, next⟩

/-- A file of three bytes whose first read fails. -/
def lostRead : Archive := [(⟨[102], 0, [1, 2, 3]⟩, fileVisit [] (-100))]

/-- Two files, of which the second cannot be gone to. -/
def lostNext : Archive :=
  [(⟨[102], 0, [1]⟩, fileVisit [10240] (-103)), (⟨[103], 0, [2]⟩, fileVisit [10240] (-100))]

theorem lostRead_broken : ¬ Unbroken lostRead := by
  intro h
  obtain ⟨_, _, hcomplete⟩ := h 0 _ _ rfl
  exact absurd (hcomplete rfl).1 (by decide)

theorem lostNext_broken : ¬ Unbroken lostNext := by
  intro h
  obtain ⟨_, hnext, _⟩ := h 0 _ _ rfl
  exact absurd (hnext (by decide)) (by decide)

theorem records_letter {archive : Archive} (hfits : ArchiveFits [47, 119] [112] [109] archive)
    (hbroken : ¬ Broken archive) :
    Records letterPath ⟨true, archive, true⟩ letterModule (letterResult 0) := by
  refine ⟨rfl, ⟨rfl, by decide, ?_⟩, hbroken, by decide, letterResult_fits⟩
  exact hfits

/-- An archive that is recorded as an update, and is not written in full. -/
def RecordedInPart (archive : Archive) : Prop :=
  Updates (onDownloadResult letterPath ⟨true, archive, true⟩ letterState (letterResult 0)) ∧
    ¬ ∃ mi, letterState.find (letterResult 0).prj (letterResult 0).module = some mi ∧
      AllWritten (workDir letterPath mi) archive
        (onDownloadResult letterPath ⟨true, archive, true⟩ letterState (letterResult 0)).trace

theorem recordedInPart {archive : Archive} (hfits : ArchiveFits [47, 119] [112] [109] archive)
    (hbroken : ¬ Broken archive) (hun : ¬ Unbroken archive) : RecordedInPart archive := by
  have hfind : letterState.find (letterResult 0).prj (letterResult 0).module = some letterModule :=
    find_letterState
  have hrecords := records_letter hfits hbroken
  refine ⟨updates_iff.mpr ⟨letterModule, hfind, hrecords⟩, ?_⟩
  rintro ⟨mi, hmi, hwritten⟩
  rw [hfind] at hmi
  cases hmi
  exact hun ((allWritten_iff hfind hrecords).mp hwritten)

/-! ## The law -/

/-- A handling ends well and records a version only with all entries of the archive written in
full, if and only if no call goes wrong without a word in an archive that is recorded. -/
theorem a_recorded_package_is_written_in_full_just_when_no_call_fails_silently (app_path : AppPath)
    (x : Script) (s : State) (r : DownloadResult) :
    (Updates (onDownloadResult app_path x s r) → ∃ mi, s.find r.prj r.module = some mi ∧
        AllWritten (workDir app_path mi) x.archive (onDownloadResult app_path x s r).trace) ↔
      ((∃ mi, s.find r.prj r.module = some mi ∧ Records app_path x mi r) → Unbroken x.archive) := by
  rw [updates_iff]
  constructor
  · rintro h ⟨mi, hfind, hrecords⟩
    obtain ⟨mi', hfind', hwritten⟩ := h ⟨mi, hfind, hrecords⟩
    rw [hfind] at hfind'
    cases hfind'
    exact (allWritten_iff hfind hrecords).mp hwritten
  · rintro h ⟨mi, hfind, hrecords⟩
    exact ⟨mi, hfind, (allWritten_iff hfind hrecords).mpr (h ⟨mi, hfind, hrecords⟩)⟩

/-- A file whose first read fails, and an archive whose second entry cannot be gone to: both are
recorded as updates, and not all is written. -/
theorem a_lost_read_and_a_lost_entry_are_recorded :
    RecordedInPart lostRead ∧ RecordedInPart lostNext :=
  ⟨recordedInPart (by decide) (by decide) lostRead_broken,
    recordedInPart (by decide) (by decide) lostNext_broken⟩

end aods.full_packages
