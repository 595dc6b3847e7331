-- The fixed arrays on the way of an order through the client: the file name that `OnRecvUmi` makes,
-- the result of a download thread, the paths of `OnDownloadResult`, and the report to aodc. No
-- length is checked on this way. The law gives the bounds that the lengths have to keep.
import Aods.FileControl
import Aods.UpdateOrders
import Aods.ResultReports

open machine traced
open util.ao_file_control util.json msg_def
open aods.download_thread (enDrSuc downloadResult resultTexts)
open aods.update_module_mgr
open update_orders (appPath managing payload shortest longVersion)

namespace aods.order_buffers

/-! ## The model -/

/-- The arrays. -/
inductive Buffer where
  | sz_file_name
  | uc_result
  | sz_dir
  | sz_file
  | sz_stand_file
  | sz_bak_file
  | uc_data

def Buffer.size : Buffer → Nat
  | .uc_result => 5120
  | .uc_data => 1024
  | _ => enMaxPathLen

/-- Bytes that are put into an array, from its beginning on. -/
structure Write where
  buffer : Buffer
  bytes : Bytes

def Write.Fits (w : Write) : Prop := w.bytes.length ≤ w.buffer.size

/-- `sprintf` or `strcpy`, with the NUL. -/
def sprintf (buffer : Buffer) (b : Bytes) : Write := ⟨buffer, b ++ [0]⟩

/-- The task of an order. -/
def taskOf (app_path : AppPath) (tick : Int) (c : State) (u : Umi) : DownloadItem where
  str_url := u.download_url
  str_pwd := u.password
  str_save_file_name :=
    pubFileName app_path.1 u.prj_name u.module_name u.file_version c.un_update_times (u32 tick)
  str_prj := u.prj_name
  str_module := u.module_name
  str_file_ver := u.file_version
  str_file_hash := u.file_hash

/-- The result that is posted for an order, by its code. -/
def resultOf (app_path : AppPath) (tick : Int) (c : State) (u : Umi) (uc_rlt : UInt8) :
    DownloadResult :=
  ⟨uc_rlt, names (resultTexts (taskOf app_path tick c u))⟩

/-- `OnRecvUmi`, of an order that is forced. -/
def orderWrites (app_path : AppPath) (tick : Int) (c : State) (u : Umi) : List Write :=
  [sprintf .sz_file_name (app_path.1 ++ text "/pub"),
    sprintf .sz_file_name (taskOf app_path tick c u).str_save_file_name]

/-- `Run`, of a result. -/
def resultWrites (r : DownloadResult) : List Write := [⟨.uc_result, r.uc_rlt :: r.sz_buf⟩]

/-- `Report2Aodc`, of a result. -/
def reportWrites (r : DownloadResult) : List Write := [⟨.uc_data, udr r.uc_rlt r.sz_buf⟩]

/-- A file of the archive. -/
def fileWrites (dir prj module : Bytes) (e : ZipEntry) (v : Visit) : List Write :=
  sprintf .sz_bak_file (bakPath dir prj module e) ::
    if v.takes ∧ executable (standPath dir e) then [sprintf .sz_file (chmodCmd (standPath dir e))]
    else []

def entryWrites (dir prj module : Bytes) (e : ZipEntry) (v : Visit) : List Write :=
  if v.info ≠ 0 then []
  else
    sprintf .sz_file (filePath dir e) :: sprintf .sz_stand_file (standPath dir e) ::
      if e.isDir then [] else fileWrites dir prj module e v

/-- The loop over the archive. -/
def unpackWrites (dir prj module : Bytes) : Archive → List Write
  | [] => []
  | (e, v) :: archive =>
    entryWrites dir prj module e v ++ if goesOn e v then unpackWrites dir prj module archive else []

/-- `OnDownloadResult`. Behind the archive the result is reported, whatever its code is then. -/
def handlingWrites (app_path : AppPath) (x : Script) (s : State) (r : DownloadResult) :
    List Write :=
  if r.uc_rlt ≠ enDrSuc then reportWrites r
  else
    match s.find r.prj r.module with
    | none => []
    | some mi =>
      if ¬ x.zip_opens then []
      else
        sprintf .sz_file app_path.1 :: sprintf .sz_dir (workDir app_path mi) ::
          (unpackWrites (workDir app_path mi) r.prj r.module x.archive ++
            reportWrites { r with uc_rlt := unpackRlt x.archive })

/-- All writes on the way of an order: `uc_rlt` is what comes of its download, `s` are the modules
when the result is handled, and `x` is the archive with what happens to it. -/
def writes (app_path : AppPath) (tick : Int) (c : State) (u : Umi) (uc_rlt : UInt8) (s : State)
    (x : Script) :
    List Write :=
  orderWrites app_path tick c u ++
    (resultWrites (resultOf app_path tick c u uc_rlt) ++
      handlingWrites app_path x s (resultOf app_path tick c u uc_rlt))

/-- The functions of the client, one behind the other. -/
def way (app_path : AppPath) (tick : Int) (c : State) (sz_msg : Bytes) (uc_rlt : UInt8) (s : State)
    (x : Script) :
    Except Fault Unit := do
  let (_, task) ← onRecvUmi app_path tick c sz_msg
  match task with
  | none => .ok ()
  | some di =>
    match ← downloadResult uc_rlt di with
    | [] => .ok ()
    | uc_rlt :: sz_buf => do
      let _ ← (onDownloadResult app_path x s ⟨uc_rlt, sz_buf⟩).result
      .ok ()

/-! ## The bounds -/

/-- The length of the file name of a package. -/
def fileNameLen (app_path : AppPath) (tick : Int) (c : State) (u : Umi) : Nat :=
  app_path.1.length + u.prj_name.length + u.module_name.length + u.file_version.length +
    (decimal c.un_update_times).length + (decimal (u32 tick)).length + 13

/-- The lengths of the texts of a result. -/
def textsLen (app_path : AppPath) (tick : Int) (c : State) (u : Umi) : Nat :=
  u.prj_name.length + u.module_name.length + u.file_version.length + u.file_hash.length +
    u.download_url.length +
    fileNameLen app_path tick c u + u.password.length

/-- An entry of an archive with a short name. -/
def ShortEntry (dir : Bytes) (u : Umi) (e : ZipEntry) (v : Visit) : Prop :=
  v.info = 0 → dir.length + 1 + (cstr e.name).length < 256 ∧
    (e.isDir = false →
      dir.length + u.prj_name.length + u.module_name.length + (cstr e.name).length + 7 < 256 ∧
      (v.takes → executable (standPath dir e) → (standPath dir e).length + 9 < 256))

/-- A package whose work directory and entries have short names. -/
def ShortPackage (app_path : AppPath) (u : Umi) (x : Script) (mi : ModuleInfo) : Prop :=
  (workDir app_path mi).length < 256 ∧ ∀ ev ∈ visited x.archive,
    ShortEntry (workDir app_path mi) u ev.1 ev.2

/-- The bounds of an order, and of its package where it is unpacked. Seven texts with their NULs and
the code have to fit the result, and a report has 15 bytes before them. -/
structure Short (app_path : AppPath) (tick : Int) (c : State) (u : Umi) (uc_rlt : UInt8) (s : State)
    (x : Script) :
    Prop where
  file_name : fileNameLen app_path tick c u < 256
  result : textsLen app_path tick c u + 8 ≤ 5120
  package : uc_rlt = enDrSuc → x.zip_opens →
    ∀ mi, s.find u.prj_name u.module_name = some mi → ShortPackage app_path u x mi
  report : (uc_rlt = enDrSuc → x.zip_opens ∧ s.find u.prj_name u.module_name ≠ none) →
    textsLen app_path tick c u + 23 ≤ 1024

/-- A module is unpacked to the end, and its new version is saved. -/
def Saved (u : Umi) (uc_rlt : UInt8) (s : State) (x : Script) : Prop :=
  uc_rlt = enDrSuc ∧ x.zip_opens ∧ s.find u.prj_name u.module_name ≠ none ∧ ¬ Broken x.archive

/-! ## The writes -/

theorem fits_sprintf (buffer : Buffer) (b : Bytes) : (sprintf buffer b).Fits ↔
    b.length < buffer.size := by
  unfold sprintf Write.Fits
  rw [List.length_append, List.length_singleton]
  exact Nat.lt_iff_add_one_le.symm

theorem resultWrites_fit (r : DownloadResult) : (∀ w ∈ resultWrites r, w.Fits) ↔
    r.sz_buf.length + 1 ≤ 5120 := by
  simp [resultWrites, Write.Fits, Buffer.size]

theorem reportWrites_fit (r : DownloadResult) : (∀ w ∈ reportWrites r, w.Fits) ↔
    ReportFits r.sz_buf := by
  unfold ReportFits
  simp only [reportWrites, List.forall_mem_singleton, Write.Fits, Buffer.size, udr, aodsAodcMsg,
    List.length_append, List.length_cons, length_le32, enAodsAodcMsgSize]
  omega

theorem fileWrites_fit (dir prj module : Bytes) (e : ZipEntry) (v : Visit) :
    (∀ w ∈ fileWrites dir prj module e v, w.Fits) ↔ FileFits dir prj module e v := by
  unfold fileWrites FileFits
  rw [List.forall_mem_cons, fits_sprintf]
  by_cases hexe : v.takes ∧ executable (standPath dir e)
  · rw [if_pos hexe, List.forall_mem_singleton, fits_sprintf]
    simp [hexe, Fits, Buffer.size]
  · rw [if_neg hexe]
    have hnone : v.takes → executable (standPath dir e) → Fits (chmodCmd (standPath dir e)) :=
      fun htakes hrun => absurd ⟨htakes, hrun⟩ hexe
    simp only [Fits, Buffer.size, List.not_mem_nil, false_implies, implies_true, and_true]
    exact ⟨fun hbak => ⟨hbak, hnone⟩, And.left⟩

theorem entryWrites_fit (dir prj module : Bytes) (e : ZipEntry) (v : Visit) :
    (∀ w ∈ entryWrites dir prj module e v, w.Fits) ↔ EntryFits dir prj module e v := by
  have hstand : (standPath dir e).length ≤ (filePath dir e).length := length_toStandardlPath_le _
  unfold entryWrites EntryFits
  by_cases hinfo : v.info = 0
  · rw [if_neg (not_not.mpr hinfo), List.forall_mem_cons, List.forall_mem_cons, fits_sprintf,
      fits_sprintf]
    have hpath : (filePath dir e).length < enMaxPathLen →
        (standPath dir e).length < enMaxPathLen := by omega
    cases hdir : e.isDir with
    | true => simpa [hinfo, Fits, Buffer.size] using hpath
    | false =>
      have hfile := fileWrites_fit dir prj module e v
      simp only [hinfo, Fits, Buffer.size, Bool.false_eq_true, if_false, hfile, forall_const]
      tauto
  · simp [hinfo]

theorem unpackWrites_fit (dir prj module : Bytes) (archive : Archive) :
    (∀ w ∈ unpackWrites dir prj module archive, w.Fits) ↔ ArchiveFits dir prj module archive := by
  induction archive with
  | nil => simp [unpackWrites, ArchiveFits, visited]
  | cons ev archive ih =>
    obtain ⟨e, v⟩ := ev
    rw [archiveFits_cons, unpackWrites, List.forall_mem_append, entryWrites_fit]
    cases goesOn e v with
    | true => simp [ih]
    | false => simp

/-- What is written of a result: the paths of its package where it is unpacked, and its report where
it is reported. -/
theorem handlingWrites_fit (app_path : AppPath) (x : Script) (s : State) (r : DownloadResult) :
    (∀ w ∈ handlingWrites app_path x s r, w.Fits) ↔
      (r.uc_rlt = enDrSuc → x.zip_opens → ∀ mi, s.find r.prj r.module = some mi →
        Unpacks app_path x mi r) ∧
      ((r.uc_rlt = enDrSuc → x.zip_opens ∧ s.find r.prj r.module ≠ none) →
        ReportFits r.sz_buf) := by
  unfold handlingWrites
  by_cases hsuc : r.uc_rlt = enDrSuc
  · rw [if_neg (not_not.mpr hsuc)]
    cases hfind : s.find r.prj r.module with
    | none => simp [hsuc]
    | some mi =>
      by_cases hopens : x.zip_opens
      · have happ : app_path.1.length < enMaxPathLen := app_path.2.1
        dsimp only
        rw [if_neg (not_not.mpr hopens), List.forall_mem_cons, List.forall_mem_cons,
          List.forall_mem_append, unpackWrites_fit, reportWrites_fit, fits_sprintf, fits_sprintf]
        simp only [hsuc, hopens, happ, Unpacks, Fits, Buffer.size, Option.some.injEq, forall_eq',
          forall_const, true_and, ne_eq, reduceCtorEq, not_false_eq_true]
        tauto
      · simp [hsuc, hopens]
  · rw [if_pos hsuc, reportWrites_fit]
    simp [hsuc]

/-! ## The end of a handling -/

def Ends {α : Type} (y : Traced Effect Fault α) : Prop := ∃ a, y.result = .ok a

theorem ends_pure {α : Type} (a : α) : Ends (pure a : Traced Effect Fault α) := ⟨a, rfl⟩

theorem ends_emit {α : Type} (f : Effect) (y : Unit → Traced Effect Fault α) :
    Ends (emit f >>= y) ↔ Ends (y ()) := by
  unfold Ends
  rw [result_bind]
  exact Iff.rfl

theorem ends_reportResult {α : Type} (r : DownloadResult) (y : Unit → Traced Effect Fault α) :
    Ends (reportResult r >>= y) ↔ ReportFits r.sz_buf ∧ Ends (y ()) := by
  rw [reportResult_eq]
  by_cases hfits : ReportFits r.sz_buf
  · rw [if_pos hfits, ends_emit]
    simp [hfits]
  · simp [hfits, Ends, Except.bind]

theorem ends_saveCfg {α : Type} (app_path : AppPath) (s : State)
    (y : Unit → Traced Effect Fault α) :
    Ends (saveCfg app_path s >>= y) ↔ Fits (cfgPath app_path) ∧ Ends (y ()) := by
  rw [saveCfg_eq]
  by_cases hfits : Fits (cfgPath app_path)
  · rw [if_pos hfits, ends_emit]
    simp [hfits]
  · simp [hfits, Ends, Except.bind]

theorem ends_settle (app_path : AppPath) (s : State) (r : DownloadResult) :
    Ends (settle app_path s r) ↔
      ReportFits r.sz_buf ∧
        (r.uc_rlt = enDrSuc ∨ r.uc_rlt = enDrRfa → Fits (cfgPath app_path)) := by
  unfold settle
  split
  · rename_i hrlt
    rw [ends_saveCfg, ends_reportResult]
    simp [hrlt, ends_pure, and_comm]
  · rename_i hrlt
    rw [ends_reportResult]
    simp [hrlt, ends_pure]

theorem ends_restart (app_path : AppPath) (x : Script) (s : State) (mi : ModuleInfo)
    {r : DownloadResult} (hrlt : r.uc_rlt = enDrSuc ∨ r.uc_rlt = enDrUfa) :
    Ends (restart app_path x s mi r) ↔
      ReportFits r.sz_buf ∧ (r.uc_rlt = enDrSuc → Fits (cfgPath app_path)) := by
  unfold restart
  by_cases hcmd : mi.str_cmd ≠ [] ∧ r.uc_rlt = enDrSuc
  · rw [if_pos hcmd]
    split
    · rw [ends_saveCfg, ends_reportResult, ends_emit]
      simp [hcmd.2, ends_pure, and_comm]
    · rw [ends_emit, ends_settle]
      simp [ranCmd_cases x, hcmd.2]
  · rw [if_neg hcmd, ends_settle]
    rcases hrlt with hrlt | hrlt
    · simp [hrlt]
    · simp [hrlt, enDrUfa, enDrSuc, enDrRfa]

/-- A handling ends when all that it writes fits, and the path of `SaveCfg` does where the modules
are saved. -/
theorem ends_onDownloadResult (app_path : AppPath) (x : Script) (s : State) (r : DownloadResult) :
    Ends (onDownloadResult app_path x s r) ↔
      (∀ w ∈ handlingWrites app_path x s r, w.Fits) ∧
      (r.uc_rlt = enDrSuc ∧ x.zip_opens ∧ s.find r.prj r.module ≠ none ∧ ¬ Broken x.archive →
        Fits (cfgPath app_path)) := by
  rw [handlingWrites_fit]
  by_cases hsuc : r.uc_rlt = enDrSuc
  · cases hfind : s.find r.prj r.module with
    | none =>
      have hnone : onDownloadResult app_path x s r = pure (s, r.uc_rlt) := by
        unfold onDownloadResult
        rw [if_neg (not_not.mpr hsuc), hfind]
      rw [hnone]
      simp [hsuc, ends_pure]
    | some mi =>
      by_cases hopens : x.zip_opens
      · by_cases hun : Unpacks app_path x mi r
        · have hrestart :=
            ends_restart app_path x s mi (r := { r with uc_rlt := unpackRlt x.archive })
            (unpackRlt_cases x.archive)
          have hresult := (onDownloadResult_unpacks app_path x s hsuc hfind hun).1
          dsimp only at hrestart
          rw [unpackRlt_suc] at hrestart
          unfold Ends at hrestart ⊢
          rw [hresult, hrestart]
          simp [hsuc, hopens, hun]
        · have hresult : (onDownloadResult app_path x s r).result = .error .overrun := by
            unfold onDownloadResult
            by_cases hdir : Fits (workDir app_path mi)
            · have hlong : ¬ ArchiveFits (workDir app_path mi) r.prj r.module x.archive :=
                fun hfits => hun ⟨hopens, hdir, hfits⟩
              simp [hsuc, hfind, hopens, sprintfPath_fits hdir, unpack_overrun hlong 0, Except.bind]
            · simp [hsuc, hfind, hopens, sprintfPath_overrun hdir, Except.bind]
          unfold Ends
          rw [hresult]
          simp [hsuc, hopens, hun]
      · have hnone : onDownloadResult app_path x s r = pure (s, r.uc_rlt) := by
          unfold onDownloadResult
          rw [if_neg (not_not.mpr hsuc), hfind]
          simp [hopens]
        rw [hnone]
        simp [hsuc, hopens, ends_pure]
  · have hreport : onDownloadResult app_path x s r = (do reportResult r; pure (s, r.uc_rlt)) := by
      unfold onDownloadResult
      rw [if_pos hsuc]
    rw [hreport, ends_reportResult]
    simp [hsuc, ends_pure]

/-! ## Lengths -/

variable {app_path : AppPath} {tick : Int} {c : State} {u : Umi}

theorem length_file_name (app_path : AppPath) (tick : Int) (c : State) (u : Umi) :
    (taskOf app_path tick c u).str_save_file_name.length = fileNameLen app_path tick c u := by
  have hpub : (text "/pub/").length = 5 := by decide
  have hdot : (text ".").length = 1 := by decide
  have hzip : (text ".zip").length = 4 := by decide
  unfold taskOf pubFileName fileNameLen
  simp only [List.length_append, hpub, hdot, hzip]
  omega

theorem length_resultOf (app_path : AppPath) (tick : Int) (c : State) (u : Umi) (uc_rlt : UInt8) :
    (resultOf app_path tick c u uc_rlt).sz_buf.length = textsLen app_path tick c u + 7 := by
  have hname := length_file_name app_path tick c u
  unfold resultOf resultTexts textsLen
  simp only [names, List.flatMap_cons, List.flatMap_nil, List.length_append, List.length_singleton,
    List.length_nil, hname]
  simp only [taskOf]
  omega

theorem resultOf_texts (app_path : AppPath) (tick : Int) {sz_msg : Bytes}
    (hread : readUmi c sz_msg = some u) (uc_rlt : UInt8) :
    (resultOf app_path tick c u uc_rlt).prj = u.prj_name ∧
      (resultOf app_path tick c u uc_rlt).module = u.module_name := by
  obtain ⟨_, hprj, hmodule, hversion, hhash⟩ := readUmi_some hread
  obtain ⟨_, ht1, ht2, _⟩ := cstrs_names hprj hmodule hversion hhash
    [u.download_url, (taskOf app_path tick c u).str_save_file_name, u.password]
  exact ⟨ht1, ht2⟩

theorem orderWrites_fit (app_path : AppPath) (tick : Int) (c : State) (u : Umi) :
    (∀ w ∈ orderWrites app_path tick c u, w.Fits) ↔ fileNameLen app_path tick c u < 256 := by
  have hpub : (text "/pub").length = 4 := by decide
  unfold orderWrites
  rw [List.forall_mem_cons, List.forall_mem_singleton, fits_sprintf, fits_sprintf, length_file_name,
    List.length_append, hpub]
  unfold fileNameLen
  simp only [Buffer.size, enMaxPathLen]
  omega

theorem entryFits_iff (dir : Bytes) (u : Umi) (e : ZipEntry) (v : Visit) :
    EntryFits dir u.prj_name u.module_name e v ↔ ShortEntry dir u e v := by
  have hbak : (text "bak").length = 3 := by decide
  have hchmod : (text "chmod +x ").length = 9 := by decide
  have hfile : Fits (filePath dir e) ↔ dir.length + 1 + (cstr e.name).length < 256 := by
    unfold Fits filePath
    simp only [List.length_append, List.length_cons, enMaxPathLen]
    omega
  have hlong : Fits (bakPath dir u.prj_name u.module_name e) ↔
      dir.length + u.prj_name.length + u.module_name.length + (cstr e.name).length + 7 < 256 := by
    unfold Fits bakPath
    simp only [List.length_append, List.length_cons, enMaxPathLen, hbak]
    omega
  have hcmd : Fits (chmodCmd (standPath dir e)) ↔ (standPath dir e).length + 9 < 256 := by
    unfold Fits chmodCmd
    simp only [List.length_append, enMaxPathLen, hchmod]
    omega
  unfold EntryFits FileFits ShortEntry
  rw [hfile, hlong, hcmd]

theorem reportFits_iff (app_path : AppPath) (tick : Int) (c : State) (u : Umi) (uc_rlt : UInt8) :
    ReportFits (resultOf app_path tick c u uc_rlt).sz_buf ↔
      textsLen app_path tick c u + 23 ≤ 1024 := by
  have hclient : aodcClientName.length = 10 := by decide
  unfold ReportFits
  rw [length_resultOf, hclient]
  simp only [enAodsAodcMsgSize]
  omega

theorem unpacks_iff {sz_msg : Bytes} (hread : readUmi c sz_msg = some u) {x : Script}
    (hopens : x.zip_opens) (mi : ModuleInfo) (uc_rlt : UInt8) :
    Unpacks app_path x mi (resultOf app_path tick c u uc_rlt) ↔ ShortPackage app_path u x mi := by
  obtain ⟨hprj, hmodule⟩ := resultOf_texts app_path tick hread uc_rlt
  unfold Unpacks ShortPackage ArchiveFits
  rw [hprj, hmodule]
  simp only [hopens, entryFits_iff, true_and, Fits, enMaxPathLen]

/-! ## The way -/

theorem onRecvUmi_accepted {sz_msg : Bytes} (hread : readUmi c sz_msg = some u)
    (hforce : u.c_force_update = 1) :
    onRecvUmi app_path tick c sz_msg =
      if fileNameLen app_path tick c u < 256 then
        .ok ({ c with un_update_times := u32 (c.un_update_times + 1) },
          some (taskOf app_path tick c u))
      else .error .overrun := by
  have hname := length_file_name app_path tick c u
  unfold taskOf at hname
  rw [onRecvUmi_forced hread hforce, hname]
  rfl

theorem downloadResult_accepted (app_path : AppPath) (tick : Int) (c : State) (u : Umi)
    (uc_rlt : UInt8) :
    downloadResult uc_rlt (taskOf app_path tick c u) =
      if textsLen app_path tick c u + 8 ≤ 5120 then
        .ok (uc_rlt :: (resultOf app_path tick c u uc_rlt).sz_buf)
      else .error .overrun := by
  have hlen := length_resultOf app_path tick c u uc_rlt
  unfold downloadResult
  rw [List.length_cons, show names (resultTexts (taskOf app_path tick c u)) =
    (resultOf app_path tick c u uc_rlt).sz_buf from rfl, hlen]
  split
  · rw [if_neg (by omega)]
  · rw [if_pos (by omega)]

/-- The functions come to their end one after the other. -/
theorem way_ends {sz_msg : Bytes} (hread : readUmi c sz_msg = some u)
    (hforce : u.c_force_update = 1) (uc_rlt : UInt8) (s : State) (x : Script) :
    way app_path tick c sz_msg uc_rlt s x = .ok () ↔
      fileNameLen app_path tick c u < 256 ∧ textsLen app_path tick c u + 8 ≤ 5120 ∧
        Ends (onDownloadResult app_path x s (resultOf app_path tick c u uc_rlt)) := by
  unfold way
  rw [onRecvUmi_accepted hread hforce]
  by_cases hname : fileNameLen app_path tick c u < 256
  · rw [if_pos hname]
    simp only [bind, Except.bind]
    rw [downloadResult_accepted]
    by_cases htexts : textsLen app_path tick c u + 8 ≤ 5120
    · rw [if_pos htexts]
      dsimp only
      have hsame : (⟨uc_rlt, (resultOf app_path tick c u uc_rlt).sz_buf⟩ : DownloadResult) =
          resultOf app_path tick c u uc_rlt := rfl
      rw [hsame]
      unfold Ends
      cases hend : (onDownloadResult app_path x s (resultOf app_path tick c u uc_rlt)).result with
      | ok a => simp [hname, htexts]
      | error e => simp
    · rw [if_neg htexts]
      simp [htexts]
  · rw [if_neg hname]
    simp [hname, bind, Except.bind]

theorem writes_fit (app_path : AppPath) (tick : Int) {sz_msg : Bytes}
    (hread : readUmi c sz_msg = some u) (uc_rlt : UInt8) (s : State) (x : Script) :
    (∀ w ∈ writes app_path tick c u uc_rlt s x, w.Fits) ↔ Short app_path tick c u uc_rlt s x := by
  obtain ⟨hprj, hmodule⟩ := resultOf_texts app_path tick hread uc_rlt
  have hrlt : (resultOf app_path tick c u uc_rlt).uc_rlt = uc_rlt := rfl
  unfold writes
  rw [List.forall_mem_append, List.forall_mem_append, orderWrites_fit, resultWrites_fit,
    length_resultOf, handlingWrites_fit, hprj, hmodule, hrlt, reportFits_iff]
  constructor
  · rintro ⟨hname, htexts, hpackage, hreport⟩
    refine ⟨hname, htexts, fun hsuc hopens mi hfind => ?_, hreport⟩
    exact (unpacks_iff hread hopens mi uc_rlt).mp (hpackage hsuc hopens mi hfind)
  · rintro ⟨hname, htexts, hpackage, hreport⟩
    refine ⟨hname, htexts, fun hsuc hopens mi hfind => ?_, hreport⟩
    exact (unpacks_iff hread hopens mi uc_rlt).mpr (hpackage hsuc hopens mi hfind)

/-! ## Three orders -/

/-- What a forced order says. -/
def forced (o : update_orders.Order) : Umi :=
  ⟨o.project, o.module, o.version, o.hash, o.url, o.code, 1⟩

/-- An order with a download address of 5120 bytes. -/
def longUrl : update_orders.Order := { shortest with url := List.replicate 5120 117 }

/-- An archive that opens, without entries. -/
def emptyArchive : Script := ⟨true, [], true⟩

theorem readUmi_forced {o : update_orders.Order} (hzero : ∀ t ∈ o.texts, 0 ∉ t)
    (hmodule : o.project = [112] ∧ o.module = [109]) :
    readUmi managing (payload o 1) = some (forced o) := by
  have hmi : managing.find o.project o.module = some ⟨[], [], [], []⟩ := by
    rw [hmodule.1, hmodule.2]
    exact update_orders.find_managing
  exact update_orders.readUmi_payload hzero hmi 1

/-! ## The law -/

/-- What the client writes for an order that it accepts fits its arrays just when the texts of the
order, the work directory of its module and the names in its archive are short. And then no function
of the client overruns, where the path of its own file is short as well. -/
theorem what_an_order_writes_fits_just_when_it_is_short (app_path : AppPath) (tick : Int)
    {sz_msg : Bytes} (hread : readUmi c sz_msg = some u) (hforce : u.c_force_update = 1)
    (uc_rlt : UInt8) (s : State) (x : Script) :
    ((∀ w ∈ writes app_path tick c u uc_rlt s x, w.Fits) ↔ Short app_path tick c u uc_rlt s x) ∧
      (way app_path tick c sz_msg uc_rlt s x = .ok () ↔
        Short app_path tick c u uc_rlt s x ∧ (Saved u uc_rlt s x → Fits (cfgPath app_path))) := by
  have hfit := writes_fit app_path tick hread uc_rlt s x
  obtain ⟨hprj, hmodule⟩ := resultOf_texts app_path tick hread uc_rlt
  have hrlt : (resultOf app_path tick c u uc_rlt).uc_rlt = uc_rlt := rfl
  have hsaved : Saved u uc_rlt s x ↔
      (resultOf app_path tick c u uc_rlt).uc_rlt = enDrSuc ∧ x.zip_opens ∧
      s.find (resultOf app_path tick c u uc_rlt).prj (resultOf app_path tick c u uc_rlt).module ≠
        none ∧
      ¬ Broken x.archive := by
    rw [hprj, hmodule, hrlt]
    exact Iff.rfl
  refine ⟨hfit, ?_⟩
  rw [way_ends hread hforce, ends_onDownloadResult, ← hfit, hsaved]
  unfold writes
  rw [List.forall_mem_append, List.forall_mem_append, orderWrites_fit, resultWrites_fit,
    length_resultOf]
  tauto

/-- The shortest order, with an archive without entries, writes nothing that does not fit. -/
theorem the_shortest_order_fits :
    (∀ w ∈ writes appPath 0 managing (forced shortest) enDrSuc
        managing emptyArchive, w.Fits) ∧
      way appPath 0 managing (payload shortest 1) enDrSuc
        managing emptyArchive = .ok () := by
  have hread : readUmi managing (payload shortest 1) =
      some (forced shortest) := readUmi_forced (by decide) ⟨rfl, rfl⟩
  obtain ⟨hwrites, hway⟩ :=
    what_an_order_writes_fits_just_when_it_is_short appPath 0 hread rfl enDrSuc
    managing emptyArchive
  have hshort : Short appPath 0 managing (forced shortest) enDrSuc
      managing emptyArchive := by
    refine ⟨by decide, by decide, fun _ _ mi hfind => ?_, fun _ => by decide⟩
    have hmi : mi = ⟨[], [], [], []⟩ :=
      Option.some.inj (hfind.symm.trans update_orders.find_managing)
    subst hmi
    exact ⟨by decide, fun ev hev => absurd hev List.not_mem_nil⟩
  exact ⟨hwrites.mpr hshort, hway.mpr ⟨hshort, fun _ => by decide⟩⟩

/-- An order with a version of 256 bytes is accepted, and its file name overruns. An order with a
download address of 5120 bytes is accepted, its file name fits, and its result overruns. -/
theorem a_long_version_and_a_long_url_do_not_fit :
    (readUmi managing (payload longVersion 1) =
        some (forced longVersion) ∧
      (payload longVersion 1).length ≤ 1048576 ∧
      onRecvUmi appPath 0 managing (payload longVersion 1) =
        .error .overrun ∧
      ∃ w ∈ orderWrites appPath 0 managing (forced longVersion), ¬ w.Fits) ∧
    readUmi managing (payload longUrl 1) = some (forced longUrl) ∧
      (payload longUrl 1).length ≤ 1048576 ∧
      (∀ w ∈ orderWrites appPath 0 managing (forced longUrl), w.Fits) ∧
      downloadResult enDrSuc (taskOf appPath 0 managing (forced longUrl)) =
        .error .overrun ∧
      ∃ w ∈ resultWrites (resultOf appPath 0 managing (forced longUrl) enDrSuc),
        ¬ w.Fits := by
  have hread : readUmi managing (payload longVersion 1) = some (forced longVersion) :=
    readUmi_forced update_orders.longVersion_fits.zero_notMem ⟨rfl, rfl⟩
  have hname : ¬ fileNameLen appPath 0 managing (forced longVersion) < 256 := by
    unfold fileNameLen forced longVersion
    simp only [List.length_replicate]
    omega
  have hreadUrl : readUmi managing (payload longUrl 1) = some (forced longUrl) := by
    refine readUmi_forced ?_ ⟨rfl, rfl⟩
    have hurl : 0 ∉ longUrl.url := fun h => absurd (List.eq_of_mem_replicate h) (by decide)
    simp only [update_orders.Order.texts, List.forall_mem_cons]
    exact ⟨by decide, by decide, by decide, by decide, hurl, by decide, by simp⟩
  have htexts : ¬ textsLen appPath 0 managing (forced longUrl) + 8 ≤ 5120 := by
    unfold textsLen forced longUrl
    simp only [List.length_replicate]
    omega
  refine ⟨⟨hread, ?_, ?_, ?_⟩, hreadUrl, ?_, ?_, ?_, ?_⟩
  · simp only [payload, names, update_orders.Order.texts, longVersion, List.flatMap_cons,
      List.flatMap_nil, List.length_append, List.length_replicate]
    decide
  · rw [onRecvUmi_accepted hread rfl, if_neg hname]
  · rw [← orderWrites_fit] at hname
    simpa using hname
  · simp only [payload, names, update_orders.Order.texts, longUrl, List.flatMap_cons,
      List.flatMap_nil, List.length_append, List.length_replicate]
    decide
  · rw [orderWrites_fit]
    decide
  · rw [downloadResult_accepted, if_neg htexts]
  · have hlong : ¬ ∀ w ∈ resultWrites (resultOf appPath 0 managing (forced longUrl) enDrSuc),
        w.Fits := by
      rw [resultWrites_fit, length_resultOf]
      exact htexts
    simpa using hlong

end aods.order_buffers
