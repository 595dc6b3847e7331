-- What aods tells of its versions: runs of `CUpdateModuleMgr` with its file, over any results,
-- orders and restarts. The law says that a confirmation names the version and the hash of the last
-- package of its module that was applied, or else those that the file had at first.
import Aods.Runs
import Aods.UmiSyn

open machine std_map traced runs
open util.json msg_def
open aods.download_thread (enDrSuc)
open aods.update_module_mgr

namespace applied_versions

/-! ## The model -/

/-- The process, its file, and for each module the version and the hash of the package that was
applied last. -/
structure Client where
  mgr : State
  file : Option CJson
  last : Bytes → Bytes → Option (Bytes × Bytes)

/-- What happens to the process: `OnAuthSuc` and `OnTimer`, which find the file readable or not, an
order, the result of a download, `OnChannelFreed`, and a restart between two handlers. -/
inductive Event where
  | auth_suc (readable : Bool)
  | timer (readable : Bool)
  | recv_umi (tick : Int) (sz_msg : Bytes)
  | download_result (x : Script) (r : DownloadResult)
  | channel_freed
  | restart

/-- A package comes through while its module is managed, its archive opens, and the loop over it
does not set `EN_DR_UFA`. -/
def applied (app_path : AppPath) (x : Script) (s : State) (r : DownloadResult) : Bool :=
  match s.find r.prj r.module with
  | none => false
  | some mi =>
    r.uc_rlt = enDrSuc && x.zip_opens &&
      match (unpack (workDir app_path mi) r.prj r.module 0 x.archive).result with
      | .ok uc_rlt => uc_rlt ≠ enDrUfa
      | .error _ => false

/-- The account of the package that was applied last. -/
def applying (last : Bytes → Bytes → Option (Bytes × Bytes)) (r : DownloadResult)
    (prj module : Bytes) :
    Option (Bytes × Bytes) :=
  if prj = r.prj ∧ module = r.module then some (r.fileVer, r.hash) else last prj module

/-- The file behind a handling: what `SaveCfg` wrote last. -/
def fileBehind (file : Option CJson) (trace : List Effect) : Option CJson :=
  match (saves trace).getLast? with
  | none => file
  | some s => some (cfgOf s)

/-- What a synchronisation gets of the file. -/
def Client.read (c : Client) (readable : Bool) : Option CJson := if readable then c.file else none

def sync (app_path : AppPath) (c : Client) (readable : Bool) :
    Except Fault (Client × List Confirmation) :=
  let y := startUmiSyn app_path (c.read readable) c.mgr
  y.result.map (fun s => ({ c with mgr := s }, y.trace))

def handle (app_path : AppPath) : Handler Client Event Confirmation Fault
  | c, .auth_suc readable => sync app_path c readable
  | c, .timer readable => sync app_path c readable
  | c, .recv_umi tick sz_msg =>
    (onRecvUmi app_path tick c.mgr sz_msg).map (fun r => ({ c with mgr := r.1 }, []))
  | c, .download_result x r =>
    let y := onDownloadResult app_path x c.mgr r
    y.result.map (fun s => (⟨s.1, fileBehind c.file y.trace,
      if applied app_path x c.mgr r then applying c.last r else c.last⟩, []))
  | c, .channel_freed => .ok (c, [])
  | c, .restart => .ok ({ c with mgr := ⟨∅, 0⟩ }, [])

def begin (file : Option CJson) : Client := ⟨⟨∅, 0⟩, file, fun _ _ => none⟩

/-- A confirmation has the pair of the package that was applied last, or one that the file had at
first. -/
def Right (init : Option CJson) (last : Bytes → Bytes → Option (Bytes × Bytes)) (k : Confirmation) :
    Prop :=
  match last k.prj k.module with
  | some p => (k.file_ver, k.file_hash) = p
  | none => ∃ json, init = some json ∧ HasEntry json k

/-! ## One result -/

variable {app_path : AppPath} {x : Script} {s s' : State} {r : DownloadResult} {uc_rlt : UInt8}
  {mi : ModuleInfo}

/-- A result is recorded, saved and reported before whatever comes behind. -/
theorem recorded_saves {rest : Traced Effect Fault (State × UInt8)} {y : State × UInt8}
    (hok : (do saveCfg app_path (s.record r); reportResult r; rest).result = .ok y) :
    rest.result = .ok y ∧
      saves (do saveCfg app_path (s.record r); reportResult r; rest).trace =
        s.record r :: saves rest.trace := by
  rw [reportResult_eq, saveCfg_eq] at hok ⊢
  split at hok
  · rename_i hcfg
    split at hok
    · rename_i hreport
      rw [if_pos hcfg, if_pos hreport]
      exact ⟨hok, rfl⟩
    · cases hok
  · cases hok

/-- A good result is saved behind the archive, whatever the command gives. -/
theorem settle_saves (hrlt : r.uc_rlt = enDrSuc ∨ r.uc_rlt = enDrRfa)
    (hok : (settle app_path s r).result = .ok (s', uc_rlt)) :
    s' = s.record r ∧ saves (settle app_path s r).trace = [s.record r] := by
  unfold settle at hok ⊢
  rw [if_pos hrlt] at hok ⊢
  obtain ⟨hrest, hsaves⟩ := recorded_saves hok
  cases hrest
  exact ⟨rfl, hsaves⟩

theorem settle_leaves_as_is (hrlt : ¬ (r.uc_rlt = enDrSuc ∨ r.uc_rlt = enDrRfa))
    (hok : (settle app_path s r).result = .ok (s', uc_rlt)) :
    s' = s ∧ saves (settle app_path s r).trace = [] := by
  unfold settle at hok ⊢
  rw [if_neg hrlt] at hok ⊢
  rw [reportResult_eq] at hok ⊢
  split at hok
  · rename_i hreport
    cases hok
    rw [if_pos hreport]
    exact ⟨rfl, rfl⟩
  · cases hok

theorem restart_saves (hrlt : r.uc_rlt = enDrSuc)
    (hok : (restart app_path x s mi r).result = .ok (s', uc_rlt)) :
    s' = s.record r ∧ saves (restart app_path x s mi r).trace = [s.record r] := by
  unfold restart at hok ⊢
  by_cases hcmd : mi.str_cmd ≠ [] ∧ r.uc_rlt = enDrSuc
  · rw [if_pos hcmd] at hok ⊢
    by_cases hself : isSelf r = true
    · rw [if_pos hself] at hok ⊢
      obtain ⟨hrest, hsaves⟩ := recorded_saves hok
      cases hrest
      exact ⟨rfl, hsaves⟩
    · rw [if_neg hself] at hok ⊢
      exact settle_saves (r := { r with uc_rlt := ranCmd x }) (ranCmd_cases x) hok
  · rw [if_neg hcmd] at hok ⊢
    exact settle_saves (Or.inl hrlt) hok

theorem restart_leaves_as_is (hrlt : r.uc_rlt = enDrUfa)
    (hok : (restart app_path x s mi r).result = .ok (s', uc_rlt)) :
    s' = s ∧ saves (restart app_path x s mi r).trace = [] := by
  have hufa : ¬ r.uc_rlt = enDrSuc := by
    rw [hrlt]
    decide
  unfold restart at hok ⊢
  rw [if_neg (fun h => hufa h.2)] at hok ⊢
  apply settle_leaves_as_is _ hok
  rw [hrlt]
  decide

/-- An archive that the loop comes to the end of is applied just when no entry is broken. -/
theorem applied_of_unpacks (hsuc : r.uc_rlt = enDrSuc) (hfind : s.find r.prj r.module = some mi)
    (hun : Unpacks app_path x mi r) :
    applied app_path x s r = decide (unpackRlt x.archive ≠ enDrUfa) := by
  obtain ⟨hopens, _, hfits⟩ := hun
  obtain ⟨hresult, _⟩ := unpack_fits hfits 0
  unfold applied
  rw [hfind]
  dsimp only
  rw [hresult]
  simp [hsuc, hopens]

/-- A result that is applied is recorded and saved, and any other changes nothing. -/
theorem onDownloadResult_saves (hok : (onDownloadResult app_path x s r).result = .ok (s', uc_rlt)) :
    (applied app_path x s r = true ∧ s' = s.record r ∧
      saves (onDownloadResult app_path x s r).trace = [s.record r]) ∨
      (applied app_path x s r = false ∧ s' = s ∧
        saves (onDownloadResult app_path x s r).trace = []) := by
  by_cases hsuc : r.uc_rlt = enDrSuc
  · cases hfind : s.find r.prj r.module with
    | none =>
      right
      have hsilent := onDownloadResult_silent app_path x s hsuc (by simp [hfind])
      unfold onDownloadResult at hok
      rw [if_neg (not_not.mpr hsuc), hfind] at hok
      cases hok
      rw [hsilent]
      refine ⟨?_, rfl, rfl⟩
      unfold applied
      rw [hfind]
    | some mi =>
      by_cases hun : Unpacks app_path x mi r
      · obtain ⟨hresult, htrace⟩ := onDownloadResult_unpacks app_path x s hsuc hfind hun
        have hsaves := (unpack_quiet (workDir app_path mi) r.prj r.module 0 x.archive).1
        have hdel : (Effect.del_file r.saveFile).saved = none := rfl
        rw [hresult] at hok
        rw [applied_of_unpacks hsuc hfind hun, htrace, saves_append, saves_cons, hsaves, hdel]
        rcases unpackRlt_cases x.archive with hrlt | hrlt
        · left
          obtain ⟨hs', hsaved⟩ :=
            restart_saves (r := { r with uc_rlt := unpackRlt x.archive }) hrlt hok
          refine ⟨?_, hs', hsaved⟩
          rw [hrlt]
          decide
        · right
          obtain ⟨hs', hsaved⟩ :=
            restart_leaves_as_is (r := { r with uc_rlt := unpackRlt x.archive }) hrlt hok
          refine ⟨?_, hs', hsaved⟩
          rw [hrlt]
          decide
      · -- the archive does not open: a path that overruns its array is no end
        right
        have hsaves := (onDownloadResult_overrun app_path x s hsuc hfind hun).1
        by_cases hopens : x.zip_opens = true
        · by_cases hdir : Fits (workDir app_path mi)
          · have hlong := unpack_overrun (fun hfits => hun ⟨hopens, hdir, hfits⟩) 0
            unfold onDownloadResult at hok
            simp [hsuc, hfind, hopens, sprintfPath_fits hdir, hlong, Except.bind] at hok
          · unfold onDownloadResult at hok
            simp [hsuc, hfind, hopens, sprintfPath_overrun hdir, Except.bind] at hok
        · refine ⟨?_, ?_, hsaves⟩
          · unfold applied
            rw [hfind]
            simp [hopens]
          · unfold onDownloadResult at hok
            simp only [hsuc, hfind, hopens] at hok
            cases hok
            rfl
  · right
    have hnot : applied app_path x s r = false := by
      unfold applied
      split
      · rfl
      · simp [hsuc]
    unfold onDownloadResult at hok ⊢
    rw [if_pos hsuc] at hok ⊢
    rw [reportResult_eq] at hok ⊢
    split at hok
    · rename_i hreport
      cases hok
      rw [if_pos hreport]
      exact ⟨hnot, rfl, rfl⟩
    · cases hok

/-! ## The law -/

/-- What the process would tell is right, of the modules in memory and of those in the file. -/
structure Told (init : Option CJson) (c : Client) : Prop where
  plain : Plain c.mgr
  managed : ∀ prj module mi, c.mgr.find prj module = some mi →
    Right init c.last ⟨prj, module, mi.str_fv, mi.str_fh⟩
  filed : ∀ json, c.file = some json → ∀ k, HasEntry json k → Right init c.last k

theorem told_begin (init : Option CJson) : Told init (begin init) where
  plain := by
    intro prj module mi hfind
    cases hfind
  managed := by
    intro prj module mi hfind
    cases hfind
  filed := fun json hjson k hk => ⟨json, hjson, hk⟩

variable {init : Option CJson} {c c' : Client}

theorem file_of_read {readable : Bool} {json : CJson} (h : c.read readable = some json) :
    c.file = some json := by
  unfold Client.read at h
  split at h
  · exact h
  · cases h

theorem told_sync (h : Told init c) {readable : Bool} {ks : List Confirmation}
    (hstep : sync app_path c readable = .ok (c', ks)) : Told init c' := by
  obtain ⟨s', hy, heq⟩ := map_ok hstep
  cases heq
  cases hread : c.read readable with
  | none =>
    rw [hread] at hy
    rw [(startUmiSyn_none app_path c.mgr).2 s' hy]
    exact h
  | some json =>
    rw [hread] at hy
    have hfile := file_of_read hread
    obtain ⟨hplain, hentries⟩ := (startUmiSyn_entries app_path json c.mgr).2 s' hy
    exact ⟨hplain, fun prj module mi hfind => h.filed json hfile _ (hentries prj module mi hfind),
      h.filed⟩

theorem right_applying {last : Bytes → Bytes → Option (Bytes × Bytes)} {k : Confirmation}
    (h : Right init last k) (hother : ¬ (k.prj = r.prj ∧ k.module = r.module)) :
    Right init (applying last r) k := by
  unfold Right applying
  rw [if_neg hother]
  exact h

theorem told_record (h : Told init c) (hfind : c.mgr.find r.prj r.module = some mi) :
    Told init ⟨c.mgr.record r, some (cfgOf (c.mgr.record r)), applying c.last r⟩ := by
  have hplain := plain_record h.plain hfind
  have hmanaged : ∀ prj module mi, (c.mgr.record r).find prj module = some mi →
      Right init (applying c.last r) ⟨prj, module, mi.str_fv, mi.str_fh⟩ := by
    intro prj module mi' hfind'
    rw [find_record hfind] at hfind'
    split at hfind'
    · rename_i heq
      cases hfind'
      unfold Right applying
      rw [if_pos heq]
    · rename_i hother
      exact right_applying (h.managed prj module mi' hfind') hother
  refine ⟨hplain, hmanaged, fun json hjson k hk => ?_⟩
  cases hjson
  obtain ⟨mi', hfind', hfv, hfh⟩ := hasEntry_cfgOf hplain hk
  have hright := hmanaged k.prj k.module mi' hfind'
  rw [hfv, hfh] at hright
  exact hright

theorem find_of_applied (h : applied app_path x s r = true) :
    ∃ mi, s.find r.prj r.module = some mi := by
  unfold applied at h
  split at h
  · cases h
  · rename_i mi hfind
    exact ⟨mi, hfind⟩

theorem suc_of_applied (h : applied app_path x s r = true) : r.uc_rlt = enDrSuc := by
  unfold applied at h
  split at h
  · cases h
  · simp only [Bool.and_eq_true, decide_eq_true_eq] at h
    exact h.1.1

theorem told_result (h : Told init c) {ks : List Confirmation}
    (hstep : handle app_path c (.download_result x r) = .ok (c', ks)) : Told init c' := by
  obtain ⟨y, hy, heq⟩ := map_ok hstep
  cases heq
  unfold fileBehind
  rcases onDownloadResult_saves hy with ⟨happlied, hs', hsaves⟩ | ⟨happlied, hs', hsaves⟩
  · obtain ⟨mi, hfind⟩ := find_of_applied happlied
    rw [hsaves, hs', if_pos happlied]
    exact told_record h hfind
  · rw [hsaves, hs', happlied]
    exact h

theorem onRecvUmi_map {tick : Int} {sz_msg : Bytes} {y : State × Option DownloadItem}
    (h : onRecvUmi app_path tick s sz_msg = .ok y) : y.1.map_pm = s.map_pm := by
  rcases onRecvUmi_cases h with rfl | ⟨_, _, _, _, rfl⟩
  · rfl
  · rfl

theorem Told.congr (h : Told init c) {s' : State} (hmap : s'.map_pm = c.mgr.map_pm) :
    Told init { c with mgr := s' } := by
  have hfind : ∀ prj module, s'.find prj module = c.mgr.find prj module := by
    intro prj module
    unfold State.find
    rw [hmap]
  refine ⟨?_, ?_, h.filed⟩
  · intro prj module mi hmi
    rw [hfind] at hmi
    exact h.plain prj module mi hmi
  · intro prj module mi hmi
    rw [hfind] at hmi
    exact h.managed prj module mi hmi

theorem told_step {e : Event} {ks : List Confirmation} (h : Told init c)
    (hstep : handle app_path c e = .ok (c', ks)) :
    Told init c' := by
  cases e with
  | auth_suc readable => exact told_sync h hstep
  | timer readable => exact told_sync h hstep
  | recv_umi tick sz_msg =>
    obtain ⟨y, hy, heq⟩ := map_ok hstep
    cases heq
    exact h.congr (onRecvUmi_map hy)
  | download_result x r => exact told_result h hstep
  | channel_freed =>
    cases hstep
    exact h
  | restart =>
    cases hstep
    refine ⟨?_, ?_, h.filed⟩
    · intro prj module mi hfind
      cases hfind
    · intro prj module mi hfind
      cases hfind

/-- In every run, whatever the process confirms at a start of the synchronisation is, for its
module, the version and the hash of the package that was applied last, or, when none was, those that
the file had at first. -/
theorem a_confirmation_names_what_was_applied_last {es : List (Event × List Confirmation)}
    (h : Run (handle app_path) Any (begin init) es c) (readable : Bool) :
    ∀ k ∈ (startUmiSyn app_path (c.read readable) c.mgr).trace, Right init c.last k := by
  have htold : Told init c := by
    refine Run.invariant (I := fun _ c => Told init c) (told_begin init) ?_ h
    intro es c e c' ks htold _ hstep
    exact told_step htold hstep
  intro k hk
  cases hread : c.read readable with
  | none =>
    rw [hread, (startUmiSyn_none app_path c.mgr).1] at hk
    cases hk
  | some json =>
    rw [hread] at hk
    exact htold.filed json (file_of_read hread) k ((startUmiSyn_entries app_path json c.mgr).1 k hk)

/-- A file with one module of one project. -/
def letterFile (mi : ModuleInfo) : CJson := .object [([112], .object [([109], moduleItem mi)])]

theorem cfgOf_letters {s : State} {mm : StdMap ModuleInfo} {mi : ModuleInfo}
    (hs : s.map_pm.entries = [⟨[112], mm⟩]) (hmm : mm.entries = [⟨[109], mi⟩]) :
    cfgOf s = letterFile mi := by
  unfold cfgOf
  rw [inOrder_of_entries hs, List.map_singleton, inOrder_of_entries hmm]
  rfl

/-- The first version of the module, and the one that it is updated to. -/
def oldModule : ModuleInfo := ⟨[49], [97], [47, 119], []⟩
def newModule : ModuleInfo := ⟨[118], [104], [47, 119], []⟩

/-- A package is applied, and behind a restart its version is confirmed. -/
theorem an_applied_version_is_confirmed_behind_a_restart :
    ∃ es c, Run (handle letterPath) Any (begin (some (letterFile oldModule))) es c ∧
      (startUmiSyn letterPath (c.read true) c.mgr).trace = [⟨[112], [109], [118], [104]⟩] ∧
      Right (some (letterFile oldModule)) c.last ⟨[112], [109], [118], [104]⟩ := by
  have h0 : Run (handle letterPath) Any (begin (some (letterFile oldModule))) [] _ := .start
  have h1 := Run.next (e := Event.auth_suc true) h0 trivial rfl
  have h2 := Run.next (e := Event.download_result ⟨true, [], true⟩ (letterResult 0)) h1 trivial rfl
  have h3 := Run.next (e := Event.restart) h2 trivial rfl
  have htrace : (startUmiSyn letterPath (some (letterFile newModule)) ⟨∅, 0⟩).trace =
      [⟨[112], [109], [118], [104]⟩] := rfl
  refine ⟨_, _, h3, ?_, ?_⟩
  · show (startUmiSyn letterPath (some (cfgOf _)) ⟨∅, 0⟩).trace = _
    rw [@cfgOf_letters _ _ newModule rfl rfl]
    exact htrace
  · apply a_confirmation_names_what_was_applied_last h3 true
    show _ ∈ (startUmiSyn letterPath (some (cfgOf _)) ⟨∅, 0⟩).trace
    rw [@cfgOf_letters _ _ newModule rfl rfl, htrace]
    exact List.mem_cons_self

end applied_versions
