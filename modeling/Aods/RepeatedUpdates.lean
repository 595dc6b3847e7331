-- Updates from end to end: the manager of one aods with its downloads, `DeployCtrl`, and the
-- reports and orders on the way between them. The law says when a package that was applied is not
-- unpacked again, as long as what is published for its module stays.
import Aods.AppliedVersions
import Aods.ServerDb
import Aods.UpdateReports
import Mathlib.Data.List.Perm.Basic

open machine std_map traced runs
open util.json msg_def
open aods.download_thread (enDrSuc downloadResult resultTexts)
open aods.update_module_mgr
open aodc.update_module (onRecvUpdateModuleInfo updateText)
open py.deploy_ctrl (Draw)
open py.deploy_db (DeployCtrl Entry Down Published init onConsume)
open py.server_db (oneRid oneSrv)
open applied_versions
  (applied fileBehind onDownloadResult_saves find_of_applied suc_of_applied letterFile)

namespace repeated_updates

/-! ## The model -/

/-- The whole system. Reports and orders are on their way as the documents that aodc and
`DeployCtrl` make. For each module the system keeps account of the published package that was
applied, and of whether such a package was worked on again. -/
structure Sys where
  mgr : State
  file : Option CJson
  tasks : List DownloadItem
  results : List DownloadResult
  dc : DeployCtrl
  up : List CJson
  down : List CJson
  done : Bytes → Bytes → Option (Bytes × Bytes)
  again : Bool

/-- What happens: `OnAuthSuc` and `OnTimer` of aods, a report that comes to `DeployCtrl`, any other
message there, an order that comes to aods, a task that a download thread comes to the end of, and a
result that aods handles. -/
inductive Event where
  | auth_suc (readable : Bool)
  | timer (readable : Bool)
  | report (draws : List Draw)
  | message (doc : CJson) (draws : List Draw)
  | order (tick : Int)
  | download (n : Nat) (uc_rlt : UInt8)
  | result (x : Script)

def begin (file : Option CJson) (dc : DeployCtrl) : Sys :=
  ⟨⟨∅, 0⟩, file, [], [], dc, [], [], fun _ _ => none, false⟩

/-- What aodc sends to Kafka for a confirmation. -/
def carried (rid : Bytes) (k : Confirmation) : List CJson :=
  (onRecvUpdateModuleInfo rid (names [k.prj, k.module, k.file_ver, k.file_hash])).filterMap
    (fun o => match o with
      | .snd2kafka doc => some doc
      | _ => none)

/-- The orders for one server. -/
def orders (rid : Bytes) (os : List py.deploy_db.Out) : List CJson :=
  os.filterMap (fun o => match o with
    | .produce (.update m) => if m.rid = rid then some (Down.update m).doc else none
    | _ => none)

/-- What `DeployCtrl` has published for a module. -/
def published (dc : DeployCtrl) (prj module : Bytes) : Option Entry :=
  dc.publish.lookup (dc.prjModule2Key (some prj) (some module))

def Sys.consume (rid : Bytes) (s : Sys) (doc : CJson) (draws : List Draw) : Sys :=
  let r := onConsume s.dc doc draws
  { s with
    dc := r.1
    down := s.down ++ orders rid r.2
    done := fun prj module => if published r.1 prj module = published s.dc prj module then s.done
      prj module else none }

def Sys.sync (app_path : AppPath) (rid : Bytes) (s : Sys) (readable : Bool) :
    Except Fault (Sys × List Effect) :=
  let y := startUmiSyn app_path (if readable then s.file else none) s.mgr
  y.result.map (fun mgr => ({ s with mgr := mgr, up := s.up ++ y.trace.flatMap (carried rid) }, []))

/-- An effect of the loop over an archive, or a command. -/
def Effect.works : Effect → Bool
  | .made_dirs _ _ => true
  | .create_dirs _ => true
  | .cut_file _ _ => true
  | .opened _ _ _ => true
  | .ran_cmd _ => true
  | _ => false

/-- The package of a result is the one that is published. -/
def isPublished (dc : DeployCtrl) (r : DownloadResult) : Bool :=
  match published dc r.prj r.module with
  | none => false
  | some e => e.ver = some r.fileVer ∧ e.hash = some r.hash

/-- The account behind a result. -/
def Sys.account (app_path : AppPath) (s : Sys) (x : Script) (r : DownloadResult)
    (prj module : Bytes) :
    Option (Bytes × Bytes) :=
  if prj = r.prj ∧ module = r.module ∧ applied app_path x s.mgr r ∧ isPublished s.dc r then
    some (r.fileVer, r.hash)
  else s.done prj module

def Sys.handleResult (app_path : AppPath) (s : Sys) (x : Script) (r : DownloadResult)
    (results : List DownloadResult) :
    Except Fault (Sys × List Effect) :=
  let y := onDownloadResult app_path x s.mgr r
  y.result.map (fun a => ({ s with
    mgr := a.1
    file := fileBehind s.file y.trace
    results := results
    done := s.account app_path x r
    again := s.again ||
      (s.done r.prj r.module = some (r.fileVer, r.hash) && y.trace.any Effect.works) }, y.trace))

def Sys.handleOrder (app_path : AppPath) (s : Sys) (tick : Int) (doc : CJson) (down : List CJson) :
    Except Fault (Sys × List Effect) :=
  match doc.getObjectItem "update" with
  | none => .ok ({ s with down := down }, [])
  | some update => do
    let sz_msg ← updateText update
    let r ← onRecvUmi app_path tick s.mgr sz_msg
    .ok ({ s with mgr := r.1, tasks := s.tasks ++ r.2.toList, down := down }, [])

def handle (app_path : AppPath) (rid : Bytes) : Handler Sys Event Effect Fault
  | s, .auth_suc readable => s.sync app_path rid readable
  | s, .timer readable => s.sync app_path rid readable
  | s, .report draws =>
    match s.up with
    | [] => .ok (s, [])
    | doc :: up => .ok (Sys.consume rid { s with up := up } doc draws, [])
  | s, .message doc draws => .ok (s.consume rid doc draws, [])
  | s, .order tick =>
    match s.down with
    | [] => .ok (s, [])
    | doc :: down => s.handleOrder app_path tick doc down
  | s, .download n uc_rlt =>
    match s.tasks[n]? with
    | none => .ok (s, [])
    | some di => do
      let _ ← downloadResult uc_rlt di
      .ok ({ s with
        tasks := s.tasks.eraseIdx n,
        results := s.results ++ [⟨uc_rlt, names (resultTexts di)⟩] }, [])
  | s, .result x =>
    match s.results with
    | [] => .ok (s, [])
    | r :: results => s.handleResult app_path x r results

/-! ## A condition on orders and results -/

/-- A module, a version and a hash. -/
abbrev Key := Bytes × Bytes × Bytes × Bytes

def taskKey (di : DownloadItem) : Key :=
  (di.str_prj, di.str_module, di.str_file_ver, di.str_file_hash)

def resultKey (r : DownloadResult) : Key := (r.prj, r.module, r.fileVer, r.hash)

/-- The packages that are ordered and not handled. -/
def Sys.pending (s : Sys) : List Key := s.tasks.map taskKey ++ s.results.map resultKey

/-- The package of an order is not pending, and is not what the module has. -/
def New (s : Sys) (u : Umi) : Prop :=
  (u.prj_name, u.module_name, u.file_version, u.file_hash) ∉ s.pending ∧
    ∀ mi, s.mgr.find u.prj_name u.module_name = some mi →
      (mi.str_fv, mi.str_fh) ≠ (u.file_version, u.file_hash)

/-- What the next order says to aods. -/
def Sys.nextUmi (s : Sys) : Option Umi :=
  match s.down with
  | [] => none
  | doc :: _ =>
    match doc.getObjectItem "update" with
    | none => none
    | some update =>
      match updateText update with
      | .error _ => none
      | .ok sz_msg => readUmi s.mgr sz_msg

/-- An order that is taken is new. A good result, of a module whose published package was applied,
is of this package. -/
def Careful (_ : List (Event × List Effect)) (s : Sys) : Event → Prop
  | .order _ => ∀ u, s.nextUmi = some u → u.c_force_update = 1 → New s u
  | .result _ =>
    ∀ r results p, s.results = r :: results → s.done r.prj r.module = some p → r.uc_rlt = enDrSuc →
      p = (r.fileVer, r.hash)
  | _ => True

/-! ## The invariant -/

/-- No package is pending twice. The published package that was applied is what its module has, in
memory and in the file, and is not pending. -/
structure Inv (s : Sys) : Prop where
  plain : Plain s.mgr
  texts : ∀ di ∈ s.tasks, 0 ∉ di.str_prj ∧ 0 ∉ di.str_module ∧ 0 ∉ di.str_file_ver ∧
    0 ∉ di.str_file_hash
  single : s.pending.Nodup
  settled : ∀ prj module p, s.done prj module = some p → (prj, module, p) ∉ s.pending
  managed : ∀ prj module p, s.done prj module = some p → ∀ mi, s.mgr.find prj module = some mi →
    (mi.str_fv, mi.str_fh) = p
  filed : ∀ prj module p, s.done prj module = some p → ∀ json, s.file = some json →
    ∀ k, HasEntry json k → k.prj = prj → k.module = module → (k.file_ver, k.file_hash) = p
  never : s.again = false

theorem inv_begin (file : Option CJson) (dc : DeployCtrl) : Inv (begin file dc) where
  plain := by
    intro prj module mi hfind
    cases hfind
  texts := by
    intro di hdi
    cases hdi
  single := List.nodup_nil
  settled := by
    intro prj module p hp
    cases hp
  managed := by
    intro prj module p hp
    cases hp
  filed := by
    intro prj module p hp
    cases hp
  never := rfl

variable {app_path : AppPath} {rid : Bytes} {s s' : Sys} {os : List Effect}

/-- What goes up and down, and what `DeployCtrl` has, may change, and the account may lose
entries. -/
theorem Inv.control (h : Inv s) {dc : DeployCtrl} {up down : List CJson}
    {done : Bytes → Bytes → Option (Bytes × Bytes)}
    (hdone : ∀ prj module p, done prj module = some p → s.done prj module = some p) :
    Inv { s with dc := dc, up := up, down := down, done := done } where
  plain := h.plain
  texts := h.texts
  single := h.single
  settled := fun prj module p hp => h.settled prj module p (hdone prj module p hp)
  managed := fun prj module p hp => h.managed prj module p (hdone prj module p hp)
  filed := fun prj module p hp => h.filed prj module p (hdone prj module p hp)
  never := h.never

theorem inv_consume (h : Inv s) (up : List CJson) (doc : CJson) (draws : List Draw) :
    Inv (Sys.consume rid { s with up := up } doc draws) := by
  unfold Sys.consume
  apply h.control
  intro prj module p hp
  split at hp
  · exact hp
  · cases hp

theorem inv_sync (h : Inv s) {readable : Bool}
    (hstep : s.sync app_path rid readable = .ok (s', os)) : Inv s' := by
  obtain ⟨mgr, hy, heq⟩ := map_ok hstep
  cases heq
  cases hread : (if readable then s.file else none) with
  | none =>
    rw [hread] at hy
    rw [(startUmiSyn_none app_path s.mgr).2 mgr hy]
    exact h.control (fun _ _ _ hp => hp)
  | some json =>
    rw [hread] at hy
    have hfile : s.file = some json := by
      split at hread
      · exact hread
      · cases hread
    obtain ⟨hplain, hentries⟩ := (startUmiSyn_entries app_path json s.mgr).2 mgr hy
    refine ⟨hplain, h.texts, h.single, h.settled, ?_, h.filed, h.never⟩
    intro prj module p hp mi hfind
    exact h.filed prj module p hp json hfile _ (hentries prj module mi hfind) rfl rfl

/-- What is pending may change, as long as it is single and was not applied. -/
theorem Inv.repend (h : Inv s) {t : Sys} (hmap : t.mgr.map_pm = s.mgr.map_pm)
    (hfile : t.file = s.file) (hdone : t.done = s.done) (hagain : t.again = s.again)
    (htexts : ∀ di ∈ t.tasks, 0 ∉ di.str_prj ∧ 0 ∉ di.str_module ∧ 0 ∉ di.str_file_ver ∧
      0 ∉ di.str_file_hash)
    (hsingle : t.pending.Nodup)
    (hsettled : ∀ prj module p, s.done prj module = some p → (prj, module, p) ∉ t.pending) :
    Inv t := by
  have hfind : ∀ prj module, t.mgr.find prj module = s.mgr.find prj module := by
    intro prj module
    unfold State.find
    rw [hmap]
  refine ⟨?_, htexts, hsingle, ?_, ?_, ?_, hagain.trans h.never⟩
  · intro prj module mi hmi
    rw [hfind] at hmi
    exact h.plain prj module mi hmi
  · rw [hdone]
    exact hsettled
  · rw [hdone]
    intro prj module p hp mi hmi
    rw [hfind] at hmi
    exact h.managed prj module p hp mi hmi
  · rw [hdone, hfile]
    exact h.filed

/-- A task that is not pending, and no published package that was applied, may be added. -/
theorem Inv.append (h : Inv s) {mgr : State} {di : DownloadItem} (down : List CJson)
    (hmap : mgr.map_pm = s.mgr.map_pm)
    (hzero : 0 ∉ di.str_prj ∧ 0 ∉ di.str_module ∧ 0 ∉ di.str_file_ver ∧ 0 ∉ di.str_file_hash)
    (hpending : taskKey di ∉ s.pending)
    (hdone : ∀ prj module p, s.done prj module = some p → (prj, module, p) ≠ taskKey di) :
    Inv { s with mgr := mgr, tasks := s.tasks ++ [di], down := down } := by
  have hperm : ((s.tasks ++ [di]).map taskKey ++ s.results.map resultKey).Perm
      (taskKey di :: s.pending) := by
    rw [List.map_append, List.append_assoc]
    exact List.perm_middle
  refine h.repend hmap rfl rfl rfl ?_ ?_ ?_
  · intro di' hdi'
    rcases List.mem_append.mp hdi' with hdi' | hdi'
    · exact h.texts di' hdi'
    · cases List.mem_singleton.mp hdi'
      exact hzero
  · exact hperm.nodup_iff.mpr (List.nodup_cons.mpr ⟨hpending, h.single⟩)
  · intro prj module p hp hmem
    rcases List.mem_cons.mp (hperm.mem_iff.mp hmem) with heq | hmem
    · exact hdone prj module p hp heq
    · exact h.settled prj module p hp hmem

/-- An order that is new adds its task. -/
theorem inv_order (h : Inv s) {es : List (Event × List Effect)} {tick : Int} {doc : CJson}
    {down : List CJson} (hdown : s.down = doc :: down) (hok : Careful es s (.order tick))
    (hstep : s.handleOrder app_path tick doc down = .ok (s', os)) : Inv s' := by
  unfold Sys.handleOrder at hstep
  split at hstep
  · cases hstep
    exact h.control (fun _ _ _ hp => hp)
  · rename_i update hupdate
    obtain ⟨sz_msg, htext, hstep⟩ := bind_ok hstep
    obtain ⟨r, hr, hstep⟩ := bind_ok hstep
    cases hstep
    rcases onRecvUmi_cases hr with rfl | ⟨u, name, hu, hforce, rfl⟩
    · dsimp only [Option.toList_none]
      rw [List.append_nil]
      exact h.control (fun _ _ _ hp => hp)
    · have hnext : s.nextUmi = some u := by
        unfold Sys.nextUmi
        rw [hdown]
        dsimp only
        rw [hupdate]
        dsimp only
        rw [htext]
        exact hu
      obtain ⟨hpending, hother⟩ := hok u hnext hforce
      obtain ⟨⟨mi, hfind⟩, hzero⟩ := readUmi_some hu
      refine h.append down ?_ ?_ ?_ ?_
      · rfl
      · exact hzero
      · exact hpending
      · -- the module would have the package already
        intro prj module p hp heq
        cases heq
        exact hother mi hfind (h.managed _ _ _ hp mi hfind)

theorem inv_download (h : Inv s) {n : Nat} {uc_rlt : UInt8} {di : DownloadItem}
    (hdi : s.tasks[n]? = some di) :
    Inv { s with
      tasks := s.tasks.eraseIdx n,
      results := s.results ++ [⟨uc_rlt, names (resultTexts di)⟩] } := by
  obtain ⟨hn, hget⟩ := List.getElem?_eq_some_iff.mp hdi
  have htask : di ∈ s.tasks := List.mem_of_getElem? hdi
  obtain ⟨h1, h2, h3, h4⟩ := h.texts di htask
  obtain ⟨_, ht1, ht2, ht3, ht4⟩ :=
    cstrs_names h1 h2 h3 h4 [di.str_url, di.str_save_file_name, di.str_pwd]
  have hkey : resultKey ⟨uc_rlt, names (resultTexts di)⟩ = taskKey di := by
    unfold resultKey taskKey
    exact Prod.ext ht1 (Prod.ext ht2 (Prod.ext ht3 ht4))
  have hperm : ((s.tasks.eraseIdx n).map taskKey ++
      (s.results ++ [DownloadResult.mk uc_rlt (names (resultTexts di))]).map resultKey).Perm
          s.pending := by
    have htasks : (taskKey di :: (s.tasks.eraseIdx n).map taskKey).Perm (s.tasks.map taskKey) := by
      have hall := (List.getElem_cons_eraseIdx_perm hn).map taskKey
      rw [hget] at hall
      exact hall
    rw [List.map_append, List.map_singleton, hkey, ← List.append_assoc]
    refine (List.perm_append_singleton _ _).trans ?_
    rw [← List.cons_append]
    exact htasks.append_right _
  refine h.repend rfl rfl rfl rfl ?_ ?_ ?_
  · intro di' hdi'
    exact h.texts di' (List.mem_of_mem_eraseIdx hdi')
  · exact hperm.nodup_iff.mpr h.single
  · intro prj module p hp hmem
    exact h.settled prj module p hp (hperm.mem_iff.mp hmem)

/-- What a result that is applied records is what the account has: the account of its module is new,
or as it was. -/
theorem Inv.managed_account (h : Inv s) {x : Script} {r : DownloadResult} {mi : ModuleInfo}
    (hfind : s.mgr.find r.prj r.module = some mi) (hnone : s.done r.prj r.module = none)
    {prj module : Bytes} {p : Bytes × Bytes} (hp : s.account app_path x r prj module = some p)
    {mi' : ModuleInfo} (hfind' : (s.mgr.record r).find prj module = some mi') :
    (mi'.str_fv, mi'.str_fh) = p := by
  rw [find_record hfind] at hfind'
  unfold Sys.account at hp
  split at hfind'
  · rename_i heq
    cases hfind'
    split at hp
    · cases hp
      rfl
    · rw [heq.1, heq.2, hnone] at hp
      cases hp
  · rename_i hother
    rw [if_neg (fun hc => hother ⟨hc.1, hc.2.1⟩)] at hp
    exact h.managed prj module p hp mi' hfind'

theorem account_settled {x : Script} {r : DownloadResult}
    {keys : List (Bytes × Bytes × Bytes × Bytes)} (hnot : resultKey r ∉ keys)
    (hsettled : ∀ prj module p, s.done prj module = some p → (prj, module, p) ∉ keys)
    (prj module : Bytes) (p : Bytes × Bytes) (hp : s.account app_path x r prj module = some p) :
    (prj, module, p) ∉ keys := by
  unfold Sys.account at hp
  split at hp
  · rename_i hc
    cases hp
    rw [hc.1, hc.2.1]
    exact hnot
  · exact hsettled prj module p hp

/-- A result leaves the queue. What was applied of the published packages is recorded in both
places. -/
theorem inv_result (h : Inv s) {es : List (Event × List Effect)} {x : Script} {r : DownloadResult}
    {results : List DownloadResult} (hresults : s.results = r :: results)
    (hok : Careful es s (.result x)) (hstep : s.handleResult app_path x r results = .ok (s', os)) :
    Inv s' := by
  have hpending : s.pending.Perm
      (resultKey r :: (s.tasks.map taskKey ++ results.map resultKey)) := by
    unfold Sys.pending
    rw [hresults]
    exact List.perm_middle
  obtain ⟨hnot, hsingle⟩ := List.nodup_cons.mp (hpending.nodup_iff.mp h.single)
  -- the package of the result is no published package that was applied
  have hfresh : s.done r.prj r.module ≠ some (r.fileVer, r.hash) := by
    intro hdone
    exact h.settled _ _ _ hdone (hpending.mem_iff.mpr List.mem_cons_self)
  have hsettled : ∀ prj module p, s.done prj module = some p →
      (prj, module, p) ∉ s.tasks.map taskKey ++ results.map resultKey := by
    intro prj module p hp hmem
    exact h.settled prj module p hp (hpending.mem_iff.mpr (List.mem_cons_of_mem _ hmem))
  obtain ⟨y, hy, heq⟩ := map_ok hstep
  cases heq
  have hagain : (s.again || (s.done r.prj r.module = some (r.fileVer, r.hash) &&
      (onDownloadResult app_path x s.mgr r).trace.any Effect.works)) = false := by
    rw [h.never, decide_eq_false hfresh]
    rfl
  rcases onDownloadResult_saves hy with ⟨happlied, hmgr, hsaves⟩ | ⟨happlied, hmgr, hsaves⟩
  · obtain ⟨mi, hfind⟩ := find_of_applied happlied
    have hsuc := suc_of_applied happlied
    have hplain := plain_record h.plain hfind
    -- another package that was applied before would be this one
    have hnone : s.done r.prj r.module = none := by
      by_contra hdone
      obtain ⟨p, hp⟩ := Option.ne_none_iff_exists'.mp hdone
      rw [hok r results p hresults hp hsuc] at hp
      exact hfresh hp
    have hmanaged : ∀ prj module p, s.account app_path x r prj module = some p →
        ∀ mi, (s.mgr.record r).find prj module = some mi → (mi.str_fv, mi.str_fh) = p :=
      fun prj module p hp mi' hfind' => h.managed_account hfind hnone hp hfind'
    unfold fileBehind
    rw [hsaves, hmgr, hagain]
    refine ⟨hplain, h.texts, hsingle, account_settled hnot hsettled, hmanaged, ?_, rfl⟩
    intro prj module p hp json hjson k hk hkprj hkmodule
    cases hjson
    obtain ⟨mi', hfind', hfv, hfh⟩ := hasEntry_cfgOf hplain hk
    rw [hkprj, hkmodule] at hfind'
    rw [← hfv, ← hfh]
    exact hmanaged prj module p hp mi' hfind'
  · have hsame : s.account app_path x r = s.done := by
      funext prj module
      unfold Sys.account
      rw [happlied]
      simp
    unfold fileBehind
    rw [hsaves, hmgr, hagain, hsame]
    exact h.repend rfl rfl rfl h.never.symm h.texts hsingle hsettled

theorem inv_step (h : Inv s) {es : List (Event × List Effect)} {e : Event} (hok : Careful es s e)
    (hstep : handle app_path rid s e = .ok (s', os)) : Inv s' := by
  unfold handle at hstep
  cases e with
  | auth_suc readable => exact inv_sync h hstep
  | timer readable => exact inv_sync h hstep
  | report draws =>
    dsimp only at hstep
    split at hstep
    · cases hstep
      exact h
    · cases hstep
      exact inv_consume h _ _ _
  | message doc draws =>
    cases hstep
    exact inv_consume h s.up doc draws
  | order tick =>
    dsimp only at hstep
    split at hstep
    · cases hstep
      exact h
    · rename_i doc down hdown
      exact inv_order h hdown hok hstep
  | download n uc_rlt =>
    dsimp only at hstep
    split at hstep
    · cases hstep
      exact h
    · rename_i di hdi
      obtain ⟨_, _, hstep⟩ := bind_ok hstep
      cases hstep
      exact inv_download h hdi
  | result x =>
    dsimp only at hstep
    split at hstep
    · cases hstep
      exact h
    · rename_i r results hresults
      exact inv_result h hresults hok hstep

/-! ## The law -/

/-- In a run in which orders and results meet the condition, no published package that was applied
is worked on again, while what is published stays. -/
theorem an_applied_package_is_not_unpacked_again {file : Option CJson} {dc : DeployCtrl}
    {es : List (Event × List Effect)} (h : Run (handle app_path rid) Careful (begin file dc) es s) :
    s.again = false := by
  have hinv : Inv s := by
    refine Run.invariant (I := fun _ s => Inv s) (inv_begin file dc) ?_ h
    intro es s e s' os hinv hok hstep
    exact inv_step hinv hok hstep
  exact hinv.never

/-! ## One module of one server -/

/-- The key "01#p#m#v" of `db_pub`, and its value. -/
def letterKey : Bytes := [48, 49, 35, 112, 35, 109, 35, 118]

def letterPublished : Published := ⟨[104], [107], [117], [49], [], []⟩

/-- The control of the group starts with the version "v" published. -/
def letterControl : DeployCtrl :=
  (init 1).initDb (AList.singleton oneRid oneSrv) (AList.singleton letterKey letterPublished)
    [letterKey]

/-- The module in the version "1", with a command. -/
def commanded : ModuleInfo := ⟨[49], [97], [47, 119], [99]⟩

/-- An archive with one file, which opens, and a command that succeeds. -/
def goesWell : Script := ⟨true, [(⟨[102], 0, []⟩, ⟨0, false, true, 0, [], id, 0, -100⟩)], true⟩

def letterSys : Sys := begin (some (letterFile commanded)) letterControl

theorem careful_order {es : List (Event × List Effect)} {s : Sys} {tick : Int} (u : Umi)
    (mi : ModuleInfo) (hnext : s.nextUmi = some u) (hpending : s.pending = [])
    (hfind : s.mgr.find u.prj_name u.module_name = some mi)
    (hother : (mi.str_fv, mi.str_fh) ≠ (u.file_version, u.file_hash)) :
    Careful es s (.order tick) := by
  intro u' hu' _
  cases hnext.symm.trans hu'
  constructor
  · rw [hpending]
    exact List.not_mem_nil
  · intro mi' hfind'
    cases hfind.symm.trans hfind'
    exact hother

/-- One report is answered, and the package is unpacked. -/
theorem one_report_updates_once :
    ∃ es s, Run (handle letterPath oneRid) Careful letterSys es s ∧
      s.done [112] [109] = some ([118], [104]) ∧
      s.pending = [] ∧ s.again = false := by
  have h0 : Run (handle letterPath oneRid) Careful letterSys [] _ := .start
  have h1 := Run.next (e := Event.auth_suc true) h0 trivial rfl
  have h2 := Run.next (e := Event.report []) h1 trivial rfl
  have h3 :=
    Run.next (e := Event.order 0) h2
      (careful_order ⟨[112], [109], [118], [104], [117], [107], 1⟩ commanded
    rfl rfl rfl (by decide)) rfl
  have h4 := Run.next (e := Event.download 0 enDrSuc) h3 trivial rfl
  have h5 := Run.next (e := Event.result goesWell) h4 (by
    intro r results p _ hdone
    cases hdone.symm.trans (ite_self none)) rfl
  exact ⟨_, _, h5, rfl, rfl, an_applied_package_is_not_unpacked_again h5⟩

/-- Two reports go out before the first download is done. Both are answered, and the package is
unpacked and its command run a second time. -/
theorem two_reports_update_twice :
    ∃ es s, Run (handle letterPath oneRid) Any letterSys es s ∧
      es.map Prod.fst = [.result goesWell, .download 0 enDrSuc, .result goesWell,
        .download 0 enDrSuc, .order 0, .order 0,
        .report [], .report [], .timer true, .auth_suc true] ∧
      s.done [112] [109] = some ([118], [104]) ∧ s.again = true := by
  have h0 : Run (handle letterPath oneRid) Any letterSys [] _ := .start
  have h1 := Run.next (e := Event.auth_suc true) h0 trivial rfl
  have h2 := Run.next (e := Event.timer true) h1 trivial rfl
  have h3 := Run.next (e := Event.report []) h2 trivial rfl
  have h4 := Run.next (e := Event.report []) h3 trivial rfl
  have h5 := Run.next (e := Event.order 0) h4 trivial rfl
  have h6 := Run.next (e := Event.order 0) h5 trivial rfl
  have h7 := Run.next (e := Event.download 0 enDrSuc) h6 trivial rfl
  have h8 := Run.next (e := Event.result goesWell) h7 trivial rfl
  have h9 := Run.next (e := Event.download 0 enDrSuc) h8 trivial rfl
  have h10 := Run.next (e := Event.result goesWell) h9 trivial rfl
  exact ⟨_, _, h10, rfl, rfl, rfl⟩

end repeated_updates
