-- What `OnDownloadResult` saves and reports of a result, and the law of its reports: a result
-- that a download thread posts is reported to aodc just when the texts and the report fit
-- their arrays and, for a package that came through, the module is still managed and the
-- archive opens.
import Aods.DownloadThread
import Aods.Unpacking

open machine traced std_map
open util.ao_file_control msg_def
open aods.download_thread (enDrSuc downloadResult resultTexts)

namespace aods.update_module_mgr

/-! ## The pure model -/

def Effect.report : Effect → Option Bytes
  | .send_out data => some data
  | _ => none

def Effect.saved : Effect → Option State
  | .save_cfg s => some s
  | _ => none

def reports (trace : List Effect) : List Bytes := trace.filterMap Effect.report

def saves (trace : List Effect) : List State := trace.filterMap Effect.saved

/-- A report of a result. -/
def udr (uc_rlt : UInt8) (sz_buf : Bytes) : Bytes :=
  aodcClientName ++ 0 :: aodsAodcMsg enAodsAodcUdr (uc_rlt :: sz_buf)

/-- A result whose report fits the array of `Report2Aodc`. -/
def ReportFits (sz_buf : Bytes) : Prop :=
  aodcClientName.length + 1 + enAodsAodcMsgSize + 1 + sz_buf.length ≤ 1024

instance (sz_buf : Bytes) : Decidable (ReportFits sz_buf) := inferInstanceAs (Decidable (_ ≤ 1024))

/-- One report, with the texts of a result. -/
def Reported (sz_buf : Bytes) (trace : List Effect) : Prop :=
  ∃ uc_rlt, reports trace = [udr uc_rlt sz_buf]

/-- A handling that ends well, and has saved the modules as it leaves them. -/
def Updates (y : Traced Effect Fault (State × UInt8)) : Prop :=
  ∃ s uc_rlt, y.result = .ok (s, uc_rlt) ∧ (uc_rlt = enDrSuc ∨ uc_rlt = enDrRfa) ∧ s ∈ saves y.trace

/-- The archive of a module opens, and all paths fit up to the end of the loop. -/
def Unpacks (app_path : AppPath) (x : Script) (mi : ModuleInfo) (r : DownloadResult) : Prop :=
  x.zip_opens ∧ Fits (workDir app_path mi) ∧
    ArchiveFits (workDir app_path mi) r.prj r.module x.archive

/-! ## The specs -/

theorem report2Aodc_udr {sz_buf : Bytes} (h : ReportFits sz_buf) (uc_rlt : UInt8) :
    report2Aodc enAodsAodcUdr (uc_rlt :: sz_buf) = .ok (udr uc_rlt sz_buf) := by
  unfold ReportFits at h
  unfold report2Aodc
  rw [if_neg]
  · rfl
  · simp only [aodsAodcMsg, List.length_append, List.length_cons, length_le32,
      enAodsAodcMsgSize] at h ⊢
    omega

theorem report2Aodc_overrun {sz_buf : Bytes} (h : ¬ ReportFits sz_buf) (uc_rlt : UInt8) :
    report2Aodc enAodsAodcUdr (uc_rlt :: sz_buf) = .error .overrun := by
  unfold ReportFits at h
  unfold report2Aodc
  rw [if_pos]
  simp only [aodsAodcMsg, List.length_append, List.length_cons, length_le32,
    enAodsAodcMsgSize] at h ⊢
  omega

@[simp] theorem reports_nil : reports [] = [] := rfl

@[simp] theorem saves_nil : saves [] = [] := rfl

@[simp] theorem reports_cons (f : Effect) (trace : List Effect) :
    reports (f :: trace) = f.report.toList ++ reports trace := by
  unfold reports
  rw [List.filterMap_cons]
  cases f.report with
  | none => rfl
  | some data => rfl

@[simp] theorem saves_cons (f : Effect) (trace : List Effect) :
    saves (f :: trace) = f.saved.toList ++ saves trace := by
  unfold saves
  rw [List.filterMap_cons]
  cases f.saved with
  | none => rfl
  | some s => rfl

@[simp] theorem reports_append (trace trace' : List Effect) :
    reports (trace ++ trace') = reports trace ++ reports trace' :=
  List.filterMap_append ..

@[simp] theorem saves_append (trace trace' : List Effect) :
    saves (trace ++ trace') = saves trace ++ saves trace' :=
  List.filterMap_append ..

theorem updates_emit {f : Effect} (hf : f.saved = none)
    (y : Unit → Traced Effect Fault (State × UInt8)) :
    Updates (emit f >>= y) ↔ Updates (y ()) := by
  unfold Updates
  simp [hf, Except.bind]

theorem reported_emit {f : Effect} (hf : f.report = none) {sz_buf : Bytes}
    (y : Unit → Traced Effect Fault (State × UInt8)) :
    Reported sz_buf (emit f >>= y).trace ↔ Reported sz_buf (y ()).trace := by
  unfold Reported
  simp [hf]

theorem reportResult_eq (r : DownloadResult) :
    reportResult r = if ReportFits r.sz_buf then emit (.send_out (udr r.uc_rlt r.sz_buf)) else
      attempt (.error .overrun) := by
  unfold reportResult
  split
  · rename_i h
    rw [report2Aodc_udr h]
    rfl
  · rename_i h
    rw [report2Aodc_overrun h]
    rfl

theorem saveCfg_eq (app_path : AppPath) (s : State) :
    saveCfg app_path s = if Fits (cfgPath app_path) then emit (.save_cfg s) else attempt
      (.error .overrun) := by
  unfold saveCfg
  split
  · rename_i h
    rw [sprintfPath_fits h]
    rfl
  · rename_i h
    rw [sprintfPath_overrun h]
    rfl

theorem ranCmd_cases (x : Script) : ranCmd x = enDrSuc ∨ ranCmd x = enDrRfa := by
  unfold ranCmd
  cases x.cmd_runs with
  | true => exact Or.inl rfl
  | false => exact Or.inr rfl

/-- The end of a handling saves the modules when the update came through, and reports. -/
theorem settle_ends (app_path : AppPath) (s : State) (r : DownloadResult) :
    (Updates (settle app_path s r) ↔
        (r.uc_rlt = enDrSuc ∨ r.uc_rlt = enDrRfa) ∧ Fits (cfgPath app_path) ∧ ReportFits r.sz_buf) ∧
      (Reported r.sz_buf (settle app_path s r).trace ↔
        ReportFits r.sz_buf ∧
          (r.uc_rlt = enDrSuc ∨ r.uc_rlt = enDrRfa → Fits (cfgPath app_path))) := by
  unfold settle Updates Reported
  rw [reportResult_eq, saveCfg_eq]
  by_cases hrlt : r.uc_rlt = enDrSuc ∨ r.uc_rlt = enDrRfa
  · by_cases hcfg : Fits (cfgPath app_path)
    · by_cases hreport : ReportFits r.sz_buf
      · simp [hrlt, hcfg, hreport, Effect.saved, Effect.report, Except.bind]
        exact ⟨_, rfl⟩
      · simp [hrlt, hcfg, hreport, Effect.saved, Effect.report, Except.bind]
    · simp [hrlt, hcfg, Except.bind]
  · by_cases hreport : ReportFits r.sz_buf
    · simp [hrlt, hreport, Effect.saved, Effect.report, Except.bind]
      exact ⟨_, rfl⟩
    · simp [hrlt, hreport, Except.bind]

/-- Behind the archive, the modules are saved and the result is reported. -/
theorem restart_ends (app_path : AppPath) (x : Script) (s : State) (mi : ModuleInfo)
    {r : DownloadResult} (hrlt : r.uc_rlt = enDrSuc ∨ r.uc_rlt = enDrUfa) :
    (Updates (restart app_path x s mi r) ↔
      r.uc_rlt = enDrSuc ∧ Fits (cfgPath app_path) ∧ ReportFits r.sz_buf) ∧
      (Reported r.sz_buf (restart app_path x s mi r).trace ↔
        ReportFits r.sz_buf ∧ (r.uc_rlt = enDrSuc → Fits (cfgPath app_path))) := by
  unfold restart
  by_cases hcmd : mi.str_cmd ≠ [] ∧ r.uc_rlt = enDrSuc
  · rw [if_pos hcmd]
    have hran := ranCmd_cases x
    by_cases hself : isSelf r
    · unfold Updates Reported
      rw [if_pos hself, saveCfg_eq, reportResult_eq]
      by_cases hcfg : Fits (cfgPath app_path)
      · by_cases hreport : ReportFits r.sz_buf
        · simp [hcmd.2, hcfg, hreport, hran, Effect.saved, Effect.report, Except.bind]
          exact ⟨_, rfl⟩
        · simp [hcmd.2, hcfg, hreport, Effect.saved, Effect.report, Except.bind]
      · simp [hcmd.2, hcfg, Except.bind]
    · rw [if_neg hself]
      obtain ⟨hupdates, hreported⟩ := settle_ends app_path s { r with uc_rlt := ranCmd x }
      rw [updates_emit rfl, reported_emit rfl, hupdates, hreported]
      simp [hran, hcmd.2]
  · rw [if_neg hcmd]
    obtain ⟨hupdates, hreported⟩ := settle_ends app_path s r
    rw [hupdates, hreported]
    rcases hrlt with hrlt | hrlt
    · simp [hrlt]
    · simp [hrlt, enDrUfa, enDrSuc, enDrRfa]

theorem unpack_quiet (dir prj module : Bytes) (n : Nat) (archive : Archive) :
    saves (unpack dir prj module n archive).trace = [] ∧
      reports (unpack dir prj module n archive).trace = [] := by
  have hleaves : Leaves (fun f : Effect => f.saved = none ∧ f.report = none)
      (unpack dir prj module n archive) := by
    apply unpack_leaves
    intro n ev _
    apply unpackEntry_leaves
    · intro _
      exact ⟨rfl, rfl⟩
    · intro _
      exact ⟨⟨rfl, rfl⟩, ⟨rfl, rfl⟩, ⟨rfl, rfl⟩, fun _ => ⟨rfl, rfl⟩, fun _ => ⟨rfl, rfl⟩⟩
  constructor
  · exact List.filterMap_eq_nil_iff.mpr (fun f hf => (hleaves f hf).1)
  · exact List.filterMap_eq_nil_iff.mpr (fun f hf => (hleaves f hf).2)

theorem unpackRlt_cases (archive : Archive) :
    unpackRlt archive = enDrSuc ∨ unpackRlt archive = enDrUfa := by
  unfold unpackRlt
  split
  · exact Or.inr rfl
  · exact Or.inl rfl

variable (app_path : AppPath) (x : Script) (s : State) {r : DownloadResult}

theorem onDownloadResult_failed (h : r.uc_rlt ≠ enDrSuc) :
    ¬ Updates (onDownloadResult app_path x s r) ∧
      (Reported r.sz_buf (onDownloadResult app_path x s r).trace ↔ ReportFits r.sz_buf) := by
  unfold onDownloadResult Updates Reported
  rw [if_pos h, reportResult_eq]
  by_cases hreport : ReportFits r.sz_buf
  · simp [hreport, Effect.saved, Effect.report, Except.bind]
    exact ⟨_, rfl⟩
  · simp [hreport, Except.bind]

theorem onDownloadResult_silent (hsuc : r.uc_rlt = enDrSuc)
    (h : ∀ mi, s.find r.prj r.module = some mi → ¬ x.zip_opens) :
    (onDownloadResult app_path x s r).trace = [] := by
  unfold onDownloadResult
  rw [if_neg (not_not.mpr hsuc)]
  cases hfind : s.find r.prj r.module with
  | none => rfl
  | some mi => simp [h mi hfind]

variable {mi : ModuleInfo}

/-- A package that is unpacked to the end of the loop. -/
theorem onDownloadResult_unpacks (hsuc : r.uc_rlt = enDrSuc)
    (hfind : s.find r.prj r.module = some mi) (h : Unpacks app_path x mi r) :
    (onDownloadResult app_path x s r).result =
        (restart app_path x s mi { r with uc_rlt := unpackRlt x.archive }).result ∧
      (onDownloadResult app_path x s r).trace =
        (unpack (workDir app_path mi) r.prj r.module 0 x.archive).trace ++
          .del_file r.saveFile ::
            (restart app_path x s mi { r with uc_rlt := unpackRlt x.archive }).trace := by
  obtain ⟨hopens, hdir, hfits⟩ := h
  obtain ⟨hresult, _⟩ := unpack_fits hfits 0
  unfold onDownloadResult
  simp [hsuc, hfind, hopens, sprintfPath_fits hdir, hresult, Except.bind]

/-- An overrun before the end of the loop. -/
theorem onDownloadResult_overrun (hsuc : r.uc_rlt = enDrSuc)
    (hfind : s.find r.prj r.module = some mi) (h : ¬ Unpacks app_path x mi r) :
    saves (onDownloadResult app_path x s r).trace = [] ∧
      reports (onDownloadResult app_path x s r).trace = [] := by
  obtain ⟨hsaves, hreports⟩ := unpack_quiet (workDir app_path mi) r.prj r.module 0 x.archive
  unfold onDownloadResult
  by_cases hopens : x.zip_opens
  · by_cases hdir : Fits (workDir app_path mi)
    · have hlong : ¬ ArchiveFits (workDir app_path mi) r.prj r.module x.archive :=
        fun hfits => h ⟨hopens, hdir, hfits⟩
      have hresult := unpack_overrun hlong 0
      simp [hsuc, hfind, hopens, sprintfPath_fits hdir, hresult, hsaves, hreports]
    · simp [hsuc, hfind, hopens, sprintfPath_overrun hdir]
  · simp [hsuc, hfind, hopens]

theorem unpackRlt_suc (archive : Archive) : unpackRlt archive = enDrSuc ↔ ¬ Broken archive := by
  unfold unpackRlt
  split
  · rename_i hbroken
    simp [hbroken, enDrUfa, enDrSuc]
  · rename_i hbroken
    simp [hbroken]

/-- What is saved and reported of a package that came through. -/
theorem onDownloadResult_managed (hsuc : r.uc_rlt = enDrSuc)
    (hfind : s.find r.prj r.module = some mi) :
    (Updates (onDownloadResult app_path x s r) ↔
        Unpacks app_path x mi r ∧ ¬ Broken x.archive ∧ Fits (cfgPath app_path) ∧
          ReportFits r.sz_buf) ∧
      (Reported r.sz_buf (onDownloadResult app_path x s r).trace ↔
        Unpacks app_path x mi r ∧ ReportFits r.sz_buf ∧
          (¬ Broken x.archive → Fits (cfgPath app_path))) := by
  by_cases hun : Unpacks app_path x mi r
  · obtain ⟨hsaves, hreports⟩ := unpack_quiet (workDir app_path mi) r.prj r.module 0 x.archive
    obtain ⟨hresult, htrace⟩ := onDownloadResult_unpacks app_path x s hsuc hfind hun
    obtain ⟨hupdates, hreported⟩ := restart_ends app_path x s mi
      (r := { r with uc_rlt := unpackRlt x.archive }) (unpackRlt_cases x.archive)
    dsimp only at hupdates hreported
    rw [unpackRlt_suc] at hupdates hreported
    unfold Updates at hupdates ⊢
    unfold Reported at hreported ⊢
    rw [hresult, htrace]
    simp only [saves_append, saves_cons, reports_append, reports_cons, hsaves, hreports,
      List.nil_append]
    constructor
    · rw [show (Effect.del_file r.saveFile).saved = none from rfl, Option.toList_none,
        List.nil_append, hupdates]
      simp [hun]
    · rw [show (Effect.del_file r.saveFile).report = none from rfl, Option.toList_none,
        List.nil_append, hreported]
      simp [hun]
  · obtain ⟨hsaves, hreports⟩ := onDownloadResult_overrun app_path x s hsuc hfind hun
    unfold Updates Reported
    rw [hsaves, hreports]
    simp [hun]

end aods.update_module_mgr

/-! ## A client with one module -/

namespace aods.update_module_mgr

/-- The task of a module, with texts of one letter. -/
def letterTask : DownloadItem := ⟨[117], [107], [102], [112], [109], [118], [104]⟩

/-- The result of this task. -/
def letterResult (uc_rlt : UInt8) : DownloadResult := ⟨uc_rlt, names (resultTexts letterTask)⟩

/-- Its module, with the work directory "/w" and no command. -/
def letterModule : ModuleInfo := ⟨[], [], [47, 119], []⟩

/-- The state with one module of one project. -/
def clientOf (prj module : Bytes) (mi : ModuleInfo) : State :=
  ⟨(∅ : StdMap (StdMap ModuleInfo)).insert prj ((∅ : StdMap ModuleInfo).insert module mi), 0⟩

def letterState : State := clientOf [112] [109] letterModule

/-- The program lies at "/a". -/
def letterPath : AppPath := ⟨[47, 97], by decide, by decide⟩

theorem find_clientOf (prj module : Bytes) (mi : ModuleInfo) :
    (clientOf prj module mi).find prj module = some mi := by
  unfold clientOf State.find
  dsimp only
  rw [find_insert, if_pos rfl, Option.bind_some, find_insert, if_pos rfl]

theorem find_letterState : letterState.find [112] [109] = some letterModule := find_clientOf ..

theorem letterTask_posted (uc_rlt : UInt8) :
    (∀ t ∈ resultTexts letterTask, 0 ∉ t) ∧
      downloadResult uc_rlt letterTask =
        .ok ((letterResult uc_rlt).uc_rlt :: (letterResult uc_rlt).sz_buf) := by
  refine ⟨by decide, ?_⟩
  unfold downloadResult
  rw [if_neg]
  · rfl
  · rw [List.length_cons]
    decide

theorem letterResult_fits : ReportFits (names (resultTexts letterTask)) := by decide

end aods.update_module_mgr

namespace aods.result_reports

open aods.update_module_mgr

/-- A result of a download that failed, or of a package whose module is still managed, whose
archive opens, and whose paths fit to the end. -/
def Settles (app_path : AppPath) (x : Script) (s : State) (r : DownloadResult) : Prop :=
  r.uc_rlt = enDrSuc → ∃ mi, s.find r.prj r.module = some mi ∧ Unpacks app_path x mi r ∧
    (¬ Broken x.archive → Fits (cfgPath app_path))

/-- The texts of a task are read from the result that is posted for it. -/
theorem posted_texts {uc_rlt : UInt8} {di : DownloadItem} {r : DownloadResult}
    (hzero : ∀ t ∈ resultTexts di, 0 ∉ t)
    (hpost : downloadResult uc_rlt di = .ok (r.uc_rlt :: r.sz_buf)) :
    r = ⟨uc_rlt, names (resultTexts di)⟩ ∧ r.prj = di.str_prj ∧ r.module = di.str_module ∧
      r.fileVer = di.str_file_ver ∧ r.hash = di.str_file_hash := by
  have hr : r = ⟨uc_rlt, names (resultTexts di)⟩ := by
    unfold downloadResult at hpost
    split at hpost
    · cases hpost
    · obtain ⟨hrlt, hbuf⟩ := List.cons.inj (Except.ok.inj hpost)
      cases r
      rw [hrlt, hbuf]
  simp only [resultTexts, List.forall_mem_cons] at hzero
  obtain ⟨h1, h2, h3, h4, _⟩ := hzero
  subst hr
  obtain ⟨_, ht1, ht2, ht3, ht4⟩ :=
    cstrs_names h1 h2 h3 h4 [di.str_url, di.str_save_file_name, di.str_pwd]
  exact ⟨rfl, ht1, ht2, ht3, ht4⟩

/-! ## The law -/

/-- A result that a download thread posts is read with the texts of its task. It is reported
once, with these texts, just when the report fits its array, and a download that went well
settles. -/
theorem a_posted_result_is_reported_just_when_it_fits_and_settles (app_path : AppPath) (x : Script)
    (s : State) {uc_rlt : UInt8} {di : DownloadItem} {r : DownloadResult}
    (hzero : ∀ t ∈ resultTexts di, 0 ∉ t)
    (hpost : downloadResult uc_rlt di = .ok (r.uc_rlt :: r.sz_buf)) :
    (r.prj = di.str_prj ∧ r.module = di.str_module ∧ r.fileVer = di.str_file_ver ∧
      r.hash = di.str_file_hash) ∧
    (Reported (names (resultTexts di)) (onDownloadResult app_path x s r).trace ↔
      ReportFits (names (resultTexts di)) ∧ Settles app_path x s r) := by
  obtain ⟨hr, htexts⟩ := posted_texts hzero hpost
  refine ⟨htexts, ?_⟩
  have hbuf : names (resultTexts di) = r.sz_buf := by rw [hr]
  rw [hbuf]
  unfold Settles
  by_cases hsuc : r.uc_rlt = enDrSuc
  · cases hfind : s.find r.prj r.module with
    | none =>
      have hsilent := onDownloadResult_silent app_path x s hsuc (by simp [hfind])
      simp [Reported, hsilent, hsuc]
    | some mi =>
      obtain ⟨_, hreported⟩ := onDownloadResult_managed app_path x s hsuc hfind
      rw [hreported]
      simp [hsuc]
      tauto
  · rw [(onDownloadResult_failed app_path x s hsuc).2]
    simp [hsuc]

/-- The result of a download that failed is reported. -/
theorem a_failed_download_is_reported :
    Reported (names (resultTexts letterTask))
      (onDownloadResult letterPath ⟨false, [], false⟩ letterState (letterResult 1)).trace := by
  obtain ⟨hzero, hpost⟩ := letterTask_posted 1
  apply (a_posted_result_is_reported_just_when_it_fits_and_settles letterPath
    ⟨false, [], false⟩ letterState
    hzero hpost).2.mpr
  refine ⟨letterResult_fits, fun hsuc => ?_⟩
  exact absurd hsuc (by decide)

/-- A package that came through, of a module that is managed, whose archive does not open: nothing
is reported. -/
theorem an_unreadable_archive_is_not_reported :
    downloadResult enDrSuc letterTask = .ok ((letterResult 0).uc_rlt :: (letterResult 0).sz_buf) ∧
    letterState.find letterTask.str_prj letterTask.str_module = some letterModule ∧
    reports (onDownloadResult letterPath ⟨false, [], false⟩ letterState (letterResult 0)).trace =
      [] ∧
    ¬ Reported (names (resultTexts letterTask))
      (onDownloadResult letterPath ⟨false, [], false⟩ letterState (letterResult 0)).trace := by
  have hsilent := onDownloadResult_silent letterPath ⟨false, [], false⟩ letterState
    (r := letterResult 0) rfl (fun _ _ => by decide)
  refine ⟨(letterTask_posted 0).2, find_letterState, ?_, ?_⟩
  · rw [hsilent]
    rfl
  · rintro ⟨uc_rlt, hreports⟩
    rw [hsilent] at hreports
    cases hreports

end aods.result_reports
