-- What becomes of what is published: the whole system from a report of all versions on, with
-- whatever comes behind it in any order. The law says that a managed module has the published
-- package whenever nothing is on the way, as long as no older package comes through.
import Aods.PublishOrder
import Aods.RepeatedUpdates
import Aods.UpdateOrders

open machine std_map traced runs
open util.json msg_def
open aods.download_thread (resultTexts)
open aods.update_module_mgr
open aodc.update_module (copyMember updateText enUmiRoom)
open py.deploy_ctrl (Draw getText)
open py.deploy_db (DeployCtrl Entry Down UpdateMsg Turn deal items onConsume dealActive
  dealActiveSuc dealUpdateCheck
  dealPublish checkOrder deal_turn)
open py.server_db (oneRid oneSrv)
open update_orders (Order Carries payload readUmi_payload)
open update_reports (report info_names updateModuleInfo_eq)
open applied_versions (applied onDownloadResult_saves)
open repeated_updates

namespace published_versions

/-! ## The model -/

/-- A server that has been activated reports to a control that knows what it runs. -/
def Known (rid : Bytes) (dc : DeployCtrl) : Prop :=
  ∃ srv deploy, dc.srvs.lookup rid = some srv ∧ srv.deploy = some deploy

/-- What is published for a module is the package of an order. -/
def Publishes (dc : DeployCtrl) (o : Order) : Prop :=
  ∃ e, published dc o.project o.module = some e ∧ e.ver = some o.version ∧ e.hash = some o.hash ∧
    e.url = some o.url ∧ e.code = some o.code

/-- C strings, and a project without '#'. -/
def Clean (o : Order) : Prop := 35 ∉ o.project ∧ ∀ t ∈ o.texts, 0 ∉ t

/-- The report of a version, as it comes to `DeployCtrl`. -/
def reportDoc (rid project module version hash : Bytes) : CJson :=
  obj [("check_update", report rid project module version hash [])]

/-- An order, as it comes to aodc. -/
def orderDoc (rid : Bytes) (o : Order) : CJson :=
  (Down.update ⟨rid, some o.project, some o.module, some o.version, some o.hash, some o.url,
    some o.code⟩).doc

def orderKey (o : Order) : Key := (o.project, o.module, o.version, o.hash)

/-- A message that publishes names its module, and its project without '#'. -/
def Named (doc : CJson) : Prop :=
  ∀ v, (text "publish", v) ∈ items doc →
    ∃ project module, getText v "project" = some project ∧
      getText v "module" = some module ∧ 35 ∉ project

/-- A result of a module that is managed and published is of the published package, and is
applied. -/
def Settling (app_path : AppPath) (_ : List (Event × List Effect)) (s : Sys) : Event → Prop
  | .report _ => ∀ doc up, s.up = doc :: up → Named doc
  | .message doc _ => Named doc
  | .result x => ∀ r results, s.results = r :: results → s.mgr.find r.prj r.module ≠ none →
      published s.dc r.prj r.module ≠ none →
        applied app_path x s.mgr r = true ∧ isPublished s.dc r = true
  | _ => True

/-- Nothing is on the way. -/
def Still (s : Sys) : Prop := s.up = [] ∧ s.down = [] ∧ s.tasks = [] ∧ s.results = []

/-! ## The invariant -/

/-- Something on the way will bring the package of an order. -/
inductive OnTheWay (rid : Bytes) (s : Sys) (o : Order) : Prop where
  | reported (version hash : Bytes) (hother : (version, hash) ≠ (o.version, o.hash))
      (hup : reportDoc rid o.project o.module version hash ∈ s.up)
  | ordered (hdown : orderDoc rid o ∈ s.down)
  | loading (di : DownloadItem) (htask : di ∈ s.tasks) (hkey : taskKey di = orderKey o)
  | loaded (r : DownloadResult) (hresult : r ∈ s.results) (hkey : resultKey r = orderKey o)

/-- The version and the hash of a module are those of an order. -/
def Has (mi : ModuleInfo) (o : Order) : Prop := mi.str_fv = o.version ∧ mi.str_fh = o.hash

/-- Each managed module has what is published, or it is on the way. -/
structure Served (rid : Bytes) (s : Sys) : Prop where
  known : Known rid s.dc
  plain : Plain s.mgr
  way : ∀ o mi, Clean o → Publishes s.dc o → s.mgr.find o.project o.module = some mi →
    Has mi o ∨ OnTheWay rid s o

variable {app_path : AppPath} {rid : Bytes} {s s' : Sys} {os : List Effect} {dc : DeployCtrl}
  {o : Order} {k : Bytes}
  {v : CJson} {draws : List Draw}

theorem OnTheWay.mono (h : OnTheWay rid s o) (hup : ∀ doc ∈ s.up, doc ∈ s'.up)
    (hdown : ∀ doc ∈ s.down, doc ∈ s'.down) (htasks : ∀ di ∈ s.tasks, di ∈ s'.tasks)
    (hresults : ∀ r ∈ s.results, r ∈ s'.results) : OnTheWay rid s' o := by
  cases h with
  | reported version hash hother hdoc => exact .reported version hash hother (hup _ hdoc)
  | ordered hdoc => exact .ordered (hdown _ hdoc)
  | loading di htask hkey => exact .loading di (htasks di htask) hkey
  | loaded r hresult hkey => exact .loaded r (hresults r hresult) hkey

/-! ## Reports -/

/-- A synchronisation confirms every module that it loads. -/
theorem startUmiSyn_confirms {json : CJson} {mgr mgr' : State}
    (hok : (startUmiSyn app_path (some json) mgr).result = .ok mgr') {prj module : Bytes}
    {mi : ModuleInfo} (hfind : mgr'.find prj module = some mi) :
    ⟨prj, module, mi.str_fv, mi.str_fh⟩ ∈ (startUmiSyn app_path (some json) mgr).trace := by
  let J : State → List Confirmation → Prop := fun t es =>
    ∀ prj module mi, t.find prj module = some mi → ⟨prj, module, mi.str_fv, mi.str_fh⟩ ∈ es
  have hmodule : ∀ prj t es t', J t es → ∀ m, (synModule prj t m).result = .ok t' →
      J t' (es ++ (synModule prj t m).trace) := by
    intro prj t es t' hJ m hm
    unfold synModule at hm ⊢
    split at hm
    · rename_i p name hname
      rw [result_bind, result_attempt] at hm
      cases hsend : sendUmi p name (loadModule m.2).str_fv (loadModule m.2).str_fh with
      | error f =>
        rw [hsend] at hm
        cases hm
      | ok data =>
        rw [hsend] at hm
        cases hm
        intro prj' module' mi' hfind'
        rw [find_put] at hfind'
        split at hfind'
        · rename_i heq
          cases hfind'
          rw [heq.1, heq.2]
          apply List.mem_append_right
          dsimp only
          rw [trace_bind, result_attempt, hsend]
          exact List.mem_append_right _ List.mem_cons_self
        · exact List.mem_append_left _ (hJ prj' module' mi' hfind')
    · cases hm
  have hproject : ∀ t es t', J t es → ∀ p, (synProject t p).result = .ok t' →
      J t' (es ++ (synProject t p).trace) := by
    intro t es t' hJ p hp
    exact foldlM_follows (fun b es b' hb m _ hm => hmodule p.1 b es b' hb m hm) hJ hp
  unfold startUmiSyn at hok ⊢
  rw [result_bind, result_attempt] at hok
  cases hpath : sprintfPath (cfgPath app_path) with
  | error f =>
    rw [hpath] at hok
    cases hok
  | ok path =>
    rw [hpath] at hok
    have hnone : J { mgr with map_pm := ∅ } [] := by
      intro prj module mi hnone
      cases hnone
    exact foldlM_follows (fun b es b' hb p _ hp => hproject b es b' hb p hp) hnone hok prj
      module mi hfind

theorem carried_plain {c : Confirmation} (h1 : 0 ∉ c.prj) (h2 : 0 ∉ c.module) (h3 : 0 ∉ c.file_ver)
    (h4 : 0 ∉ c.file_hash) :
    carried rid c = [reportDoc rid c.prj c.module c.file_ver c.file_hash] := by
  have hinfo := info_names h1 h2 h3 h4 rid
  rw [updateModuleInfo_eq] at hinfo
  unfold carried
  rw [Except.ok.inj hinfo]
  rfl

/-- A report of all versions serves every module, whatever was before. -/
theorem served_sync {json : CJson} (hfile : s.file = some json) (hknown : Known rid s.dc)
    (hstep : s.sync app_path rid true = .ok (s', os)) : Served rid s' := by
  unfold Sys.sync at hstep
  rw [if_pos rfl, hfile] at hstep
  obtain ⟨mgr, hy, heq⟩ := map_ok hstep
  cases heq
  have hplain := ((startUmiSyn_entries app_path json s.mgr).2 mgr hy).1
  refine ⟨hknown, hplain, ?_⟩
  intro o mi _ _ hfind
  by_cases hhas : Has mi o
  · exact Or.inl hhas
  · right
    refine .reported mi.str_fv mi.str_fh (fun heq => hhas (Prod.ext_iff.mp heq)) ?_
    obtain ⟨h1, h2, h3, h4⟩ := hplain _ _ _ hfind
    apply List.mem_append_right
    refine List.mem_flatMap.mpr ⟨_, startUmiSyn_confirms hy hfind, ?_⟩
    rw [carried_plain h1 h2 h3 h4]
    exact List.mem_cons_self

/-! ## The control -/

/-- Only a message that publishes changes the table. -/
theorem deal_publish (hk : k ≠ text "publish") (v : CJson) (draws : List Draw) :
    (deal dc draws k v).1.publish = dc.publish := by
  have hactive : (dealActive dc v draws).1.publish = dc.publish := by
    unfold dealActive
    split
    · rfl
    split
    · rfl
    split
    · rfl
    · rfl
  have hactiveSuc : (dealActiveSuc dc v).1.publish = dc.publish := by
    unfold dealActiveSuc
    split
    · split
      · rfl
      · rfl
    · rfl
  have hcheck : (dealUpdateCheck dc v).1.publish = dc.publish := by
    unfold dealUpdateCheck
    split
    · rfl
    split
    · rfl
    split
    · rfl
    dsimp only
    split
    · rfl
    · rfl
  unfold deal
  split
  · exact hactive
  split
  · exact hactiveSuc
  split
  · rfl
  split
  · exact hcheck
  split
  · rfl
  · rfl

theorem enter_known (h : Known rid dc) {r : Bytes} {srv : py.deploy_db.Srv}
    (hsrv : r = rid → ∃ deploy, srv.deploy = some deploy) : Known rid (dc.enter r srv) := by
  unfold Known
  rw [py.server_db.enter_lookup]
  by_cases hr : rid = r
  · obtain ⟨deploy, hdeploy⟩ := hsrv hr.symm
    rw [if_pos hr]
    exact ⟨srv, deploy, rfl, hdeploy⟩
  · rw [if_neg hr]
    exact h

theorem deal_known (h : Known rid dc) (draws : List Draw) (k : Bytes) (v : CJson) :
    Known rid (deal dc draws k v).1 ∧ (deal dc draws k v).1.index = dc.index := by
  have hturn := deal_turn dc draws k v
  generalize deal dc draws k v = r at hturn ⊢
  obtain ⟨dc', os⟩ := r
  dsimp only at hturn ⊢
  cases hturn with
  | quiet hsrvs hindex _ _ =>
    unfold Known
    rw [hsrvs]
    exact ⟨h, hindex⟩
  | answered _ => exact ⟨h, rfl⟩
  | entered r ips _ _ hnew _ =>
    refine ⟨enter_known h (fun heq => ?_), rfl⟩
    obtain ⟨srv, _, hsrv, _⟩ := h
    rw [heq, hsrv] at hnew
    cases hnew
  | activated r active_code srv _ _ _ _ => exact ⟨enter_known h (fun _ => ⟨∅, rfl⟩), rfl⟩
  | checked r srv deploy _ _ _ _ hdeploy _ _ => exact ⟨enter_known h (fun _ => ⟨_, rfl⟩), rfl⟩

theorem publishes_congr {dc' : DeployCtrl} (hindex : dc'.index = dc.index)
    (hpublish : dc'.publish = dc.publish) :
    Publishes dc' o ↔ Publishes dc o := by
  unfold Publishes published DeployCtrl.prjModule2Key
  rw [hindex, hpublish]

theorem mem_orders {os : List py.deploy_db.Out}
    (h : .produce (.update ⟨rid, some o.project, some o.module, some o.version,
    some o.hash, some o.url, some o.code⟩) ∈ os) : orderDoc rid o ∈ orders rid os := by
  exact List.mem_filterMap.mpr ⟨_, h, if_pos rfl⟩

theorem dealPublish_orders (hknown : Known rid dc) (ho : 35 ∉ o.project)
    (hv : ∃ project module, getText v "project" = some project ∧
      getText v "module" = some module ∧ 35 ∉ project)
    (hpub : Publishes (dealPublish dc v).1 o) :
    Publishes dc o ∨ orderDoc rid o ∈ orders rid (dealPublish dc v).2 := by
  obtain ⟨project, module, hproject, hmodule, hfree⟩ := hv
  unfold dealPublish at hpub ⊢
  split
  · rename_i hidx
    rw [hidx] at hpub
    exact Or.inl hpub
  rename_i indexes hidx
  rw [hidx] at hpub
  dsimp only at hpub ⊢
  split
  · rename_i hmine
    rw [if_pos hmine] at hpub
    exact Or.inl hpub
  rename_i hmine
  rw [if_neg hmine] at hpub
  split
  · rename_i hlate
    rw [if_pos hlate] at hpub
    exact Or.inl hpub
  rename_i hlate
  rw [if_neg hlate] at hpub
  obtain ⟨e, hlookup, hver, hhash, hurl, hcode⟩ := hpub
  unfold published at hlookup
  dsimp only at hlookup ⊢
  rw [find_insert] at hlookup
  split at hlookup
  · rename_i hkey
    right
    cases hlookup
    unfold DeployCtrl.prjModule2Key at hkey
    rw [hproject, hmodule] at hkey
    simp only [py.deploy_db.pyText, Option.getD_some, List.append_cancel_left_eq, List.cons.injEq,
      true_and] at hkey
    obtain ⟨hp, hm⟩ := (publish_order.append_hash_inj ho hfree o.module module).mp hkey
    obtain ⟨srv, _, hsrv, _⟩ := hknown
    have hmem : rid ∈ dc.srvs.keys := AList.mem_keys.mp (AList.lookup_isSome.mp (by rw [hsrv]; rfl))
    apply mem_orders
    refine List.mem_map.mpr ⟨rid, hmem, ?_⟩
    dsimp only at hver hhash hurl hcode
    rw [hproject, hmodule, hver, hhash, hurl, hcode, hp, hm]
  · exact Or.inl ⟨e, hlookup, hver, hhash, hurl, hcode⟩

theorem onConsume_orders {doc : CJson} (hknown : Known rid dc) (hnamed : Named doc)
    (draws : List Draw) :
    Known rid (onConsume dc doc draws).1 ∧ ∀ o : Order, 35 ∉ o.project →
      Publishes (onConsume dc doc draws).1 o →
      Publishes dc o ∨ orderDoc rid o ∈ orders rid (onConsume dc doc draws).2 := by
  refine py.deploy_db.onConsume_induct (P := fun dc' os => Known rid dc' ∧
    ∀ o : Order, 35 ∉ o.project →
    Publishes dc' o → Publishes dc o ∨ orderDoc rid o ∈ orders rid os) doc
      ⟨hknown, fun _ _ => Or.inl⟩ ?_
  rintro ⟨k, v⟩ hitem dc' os ⟨hknown', hos⟩
  obtain ⟨hknown'', hindex⟩ := deal_known hknown' draws k v
  refine ⟨hknown'', ?_⟩
  intro o ho hpub
  have hearlier : Publishes dc' o →
      Publishes dc o ∨ orderDoc rid o ∈ orders rid (os ++ (deal dc' draws k v).2) := by
    intro hpub'
    refine (hos o ho hpub').imp_right (fun hmem => ?_)
    unfold orders at hmem ⊢
    rw [List.filterMap_append]
    exact List.mem_append_left _ hmem
  by_cases hk : k = text "publish"
  · subst hk
    have hdeal : deal dc' draws (text "publish") v = dealPublish dc' v := rfl
    rw [hdeal] at hpub
    rcases dealPublish_orders hknown' ho (hnamed v hitem) hpub with hpub' | hmem
    · exact hearlier hpub'
    · right
      unfold orders at hmem ⊢
      rw [List.filterMap_append, hdeal]
      exact List.mem_append_right _ hmem
  · exact hearlier ((publishes_congr hindex (deal_publish hk v draws)).mp hpub)

theorem items_reportDoc (rid project module version hash : Bytes) :
    items (reportDoc rid project module version hash) =
    [(text "check_update", report rid project module version hash [])] := by
  simp [items, reportDoc, obj, text, List.eraseDups_cons]

/-- A report of another package than the published one is answered with an order for this. -/
theorem onConsume_report {version hash : Bytes} (hknown : Known rid dc) (hpub : Publishes dc o)
    (hother : (version, hash) ≠ (o.version, o.hash)) (draws : List Draw) :
    orderDoc rid o ∈
      orders rid (onConsume dc (reportDoc rid o.project o.module version hash) draws).2 := by
  have hone : onConsume dc (reportDoc rid o.project o.module version hash) draws =
      deal dc draws (text "check_update") (report rid o.project o.module version hash []) :=
    py.deploy_db.onConsume_one (items_reportDoc rid o.project o.module version hash)
  have hdeal : deal dc draws (text "check_update") (report rid o.project o.module version hash []) =
      dealUpdateCheck dc (report rid o.project o.module version hash []) := rfl
  obtain ⟨srv, deploy, hsrv, hdeploy⟩ := hknown
  obtain ⟨e, hlookup, hver, hhash, hurl, hcode⟩ := hpub
  have hcheck : checkOrder dc rid (some o.project) (some o.module) (some version) (some hash) =
      [.produce
          (.update ⟨rid, some o.project, some o.module, some o.version, some o.hash, some o.url,
              some o.code⟩)] := by
    unfold published at hlookup
    unfold checkOrder
    rw [hlookup]
    dsimp only
    have hdiffers : some o.version ≠ some version ∨ some o.hash ≠ some hash := by
      by_contra hsame
      rw [not_or, not_not, not_not] at hsame
      exact hother (Prod.ext (Option.some.inj hsame.1).symm (Option.some.inj hsame.2).symm)
    rw [hver, hhash, hurl, hcode, if_neg (Option.some_ne_none _), if_pos hdiffers]
  have hrid : getText (report rid o.project o.module version hash []) "rid" = some rid := by
    simp [getText, py.deploy_ctrl.dictGet, report, update_reports.members, obj, text]
  have hproject : getText (report rid o.project o.module version hash []) "project" =
      some o.project := by
    simp [getText, py.deploy_ctrl.dictGet, report, update_reports.members, obj, text]
  have hmodule : getText (report rid o.project o.module version hash []) "module" =
      some o.module := by
    simp [getText, py.deploy_ctrl.dictGet, report, update_reports.members, obj, text]
  have hversion : getText (report rid o.project o.module version hash []) "version" =
      some version := by
    simp [getText, py.deploy_ctrl.dictGet, report, update_reports.members, obj, text]
  have hhash' : getText (report rid o.project o.module version hash []) "hash" = some hash := by
    simp [getText, py.deploy_ctrl.dictGet, report, update_reports.members, obj, text]
  rw [hone, hdeal]
  apply mem_orders
  unfold dealUpdateCheck
  rw [hrid]
  dsimp only
  rw [hsrv]
  dsimp only
  rw [hdeploy]
  dsimp only
  rw [hproject, hmodule, hversion, hhash', hcheck]
  split
  · exact List.mem_cons_of_mem _ List.mem_cons_self
  · exact List.mem_cons_self

/-! ## The client -/

theorem copyMember_string {update : CJson} {written w t : Bytes} {name : String}
    (hmember : update.getMember name = .ok (.string t)) (ht : 0 ∉ t)
    (hok : copyMember update written name = .ok w) :
    w = written ++ t ++ [0] := by
  unfold copyMember at hok
  rw [hmember] at hok
  simp only [bind, Except.bind, CJson.valuestring, cstr_of_notMem ht] at hok
  split at hok
  · cases hok
  · cases hok
    rfl

/-- An order that fits the array of aodc comes to aods as its payload. -/
theorem updateText_payload {update : CJson} {force : Int} {sz_msg : Bytes}
    (h : Carries update o force) (hzero : ∀ t ∈ o.texts, 0 ∉ t)
    (hok : updateText update = .ok sz_msg) : sz_msg = payload o (uchar force) := by
  simp only [Order.texts, List.forall_mem_cons] at hzero
  obtain ⟨h1, h2, h3, h4, h5, h6, _⟩ := hzero
  unfold updateText at hok
  simp only [List.foldlM_cons, List.foldlM_nil] at hok
  obtain ⟨w, hw, hok⟩ := bind_ok hok
  obtain ⟨w1, hw1, hw⟩ := bind_ok hw
  obtain ⟨w2, hw2, hw⟩ := bind_ok hw
  obtain ⟨w3, hw3, hw⟩ := bind_ok hw
  obtain ⟨w4, hw4, hw⟩ := bind_ok hw
  obtain ⟨w5, hw5, hw⟩ := bind_ok hw
  obtain ⟨w6, hw6, hw⟩ := bind_ok hw
  cases hw
  obtain ⟨item, hitem, hok⟩ := bind_ok hok
  rw [h.force] at hitem
  cases hitem
  split at hok
  · cases hok
  · cases hok
    rw [copyMember_string h.code h6 hw6, copyMember_string h.url h5 hw5,
      copyMember_string h.hash h4 hw4, copyMember_string h.version h3 hw3,
      copyMember_string h.module h2 hw2, copyMember_string h.project h1 hw1]
    simp [payload, names, Order.texts, CJson.valueint]

theorem orderDoc_carries (rid : Bytes) (o : Order) :
    ∃ update, (orderDoc rid o).getObjectItem "update" = some update ∧ Carries update o 1 := by
  refine ⟨obj [("rid", .string rid), ("project", .string o.project), ("module", .string o.module),
    ("version", .string o.version), ("hash", .string o.hash), ("url", .string o.url),
      ("code", .string o.code),
    ("force", .number 1)], ?_, ?_⟩
  · simp [orderDoc, Down.doc, CJson.getObjectItem, obj, sameName, py.deploy_db.valueOf]
  · constructor
    all_goals simp +decide [CJson.getMember, CJson.getObjectItem, obj]

theorem handleOrder_task {tick : Int} {down : List CJson} {mi : ModuleInfo}
    (hzero : ∀ t ∈ o.texts, 0 ∉ t) (hfind : s.mgr.find o.project o.module = some mi)
    (hstep : s.handleOrder app_path tick (orderDoc rid o) down = .ok (s', os)) :
    ∃ di ∈ s'.tasks, taskKey di = orderKey o := by
  obtain ⟨update, hupdate, hcarries⟩ := orderDoc_carries rid o
  unfold Sys.handleOrder at hstep
  rw [hupdate] at hstep
  obtain ⟨sz_msg, htext, hstep⟩ := bind_ok hstep
  obtain ⟨r, hr, hstep⟩ := bind_ok hstep
  cases hstep
  have hread := readUmi_payload hzero hfind (uchar 1)
  rw [← updateText_payload hcarries hzero htext] at hread
  rw [onRecvUmi_forced hread rfl] at hr
  split at hr
  · cases hr
    exact ⟨_, List.mem_append_right _ List.mem_cons_self, rfl⟩
  · cases hr

/-- Any order leaves the managed modules, the control and the reports as they are, and drops no
task. -/
theorem handleOrder_keeps {tick : Int} {doc : CJson} {down : List CJson}
    (hstep : s.handleOrder app_path tick doc down = .ok (s', os)) :
    s'.mgr.map_pm = s.mgr.map_pm ∧ s'.dc = s.dc ∧ s'.up = s.up ∧ s'.down = down ∧
      s'.results = s.results ∧
      ∀ di ∈ s.tasks, di ∈ s'.tasks := by
  unfold Sys.handleOrder at hstep
  split at hstep
  · cases hstep
    exact ⟨rfl, rfl, rfl, rfl, rfl, fun _ h => h⟩
  · obtain ⟨sz_msg, htext, hstep⟩ := bind_ok hstep
    obtain ⟨r, hr, hstep⟩ := bind_ok hstep
    cases hstep
    refine ⟨?_, rfl, rfl, rfl, rfl, fun di h => List.mem_append_left _ h⟩
    rcases onRecvUmi_cases hr with rfl | ⟨_, _, _, _, rfl⟩
    · rfl
    · rfl

/-! ## The steps -/

/-- The queues may grow where the managed modules and the table stay. -/
theorem Served.grow (h : Served rid s) (hmgr : s'.mgr.map_pm = s.mgr.map_pm) (hdc : s'.dc = s.dc)
    (hway : ∀ o mi, Clean o → Publishes s.dc o → s.mgr.find o.project o.module = some mi →
      OnTheWay rid s o →
      Has mi o ∨ OnTheWay rid s' o) : Served rid s' := by
  have hfind : ∀ prj module, s'.mgr.find prj module = s.mgr.find prj module := by
    intro prj module
    unfold State.find
    rw [hmgr]
  refine ⟨?_, ?_, ?_⟩
  · rw [hdc]
    exact h.known
  · intro prj module mi hmi
    rw [hfind] at hmi
    exact h.plain prj module mi hmi
  · rw [hdc]
    intro o mi ho hpub hmi
    rw [hfind] at hmi
    rcases h.way o mi ho hpub hmi with hhas | hon
    · exact Or.inl hhas
    · exact hway o mi ho hpub hmi hon

theorem served_again (h : Served rid s) {readable : Bool}
    (hstep : s.sync app_path rid readable = .ok (s', os)) :
    Served rid s' := by
  cases hread : (if readable then s.file else none) with
  | some json =>
    cases readable with
    | false => cases hread
    | true => exact served_sync hread h.known hstep
  | none =>
    unfold Sys.sync at hstep
    rw [hread] at hstep
    obtain ⟨mgr, hy, heq⟩ := map_ok hstep
    cases heq
    rw [(startUmiSyn_none app_path s.mgr).2 mgr hy]
    refine h.grow rfl rfl (fun o mi _ _ _ hon => Or.inr ?_)
    exact hon.mono (fun _ => List.mem_append_left _) (fun _ h => h) (fun _ h => h) (fun _ h => h)

/-- A message, or the first report, comes to `DeployCtrl`. -/
theorem served_consume (h : Served rid s) {doc : CJson} {up : List CJson}
    (hup : s.up = doc :: up ∨ s.up = up) (hnamed : Named doc) (draws : List Draw) :
    Served rid (Sys.consume rid { s with up := up } doc draws) := by
  obtain ⟨hknown, horders⟩ := onConsume_orders h.known hnamed draws
  refine ⟨hknown, h.plain, ?_⟩
  intro o mi ho hpub hmi
  rcases horders o ho.1 hpub with hpub' | hdown
  · rcases h.way o mi ho hpub' hmi with hhas | hon
    · exact Or.inl hhas
    · right
      cases hon with
      | reported version hash hother hdoc =>
        -- the report is the one that comes, or it waits behind it
        rcases hup with hup | hup
        · rw [hup] at hdoc
          rcases List.mem_cons.mp hdoc with rfl | hdoc
          · exact .ordered (List.mem_append_right _ (onConsume_report h.known hpub' hother draws))
          · exact .reported version hash hother hdoc
        · rw [hup] at hdoc
          exact .reported version hash hother hdoc
      | ordered hdoc => exact .ordered (List.mem_append_left _ hdoc)
      | loading di htask hkey => exact .loading di htask hkey
      | loaded r hresult hkey => exact .loaded r hresult hkey
  · exact Or.inr (.ordered (List.mem_append_right _ hdown))

theorem served_order (h : Served rid s) {tick : Int} {doc : CJson} {down : List CJson}
    (hdown : s.down = doc :: down) (hstep : s.handleOrder app_path tick doc down = .ok (s', os)) :
    Served rid s' := by
  obtain ⟨hmgr, hdc, hup, hrest, hresults, htasks⟩ := handleOrder_keeps hstep
  refine h.grow hmgr hdc (fun o mi ho _ hmi hon => Or.inr ?_)
  cases hon with
  | reported version hash hother hdoc =>
    exact .reported version hash hother (by rw [hup]; exact hdoc)
  | ordered hdoc =>
    rw [hdown] at hdoc
    rcases List.mem_cons.mp hdoc with rfl | hdoc
    · obtain ⟨di, htask, hkey⟩ := handleOrder_task ho.2 hmi hstep
      exact .loading di htask hkey
    · exact .ordered (by rw [hrest]; exact hdoc)
  | loading di htask hkey => exact .loading di (htasks di htask) hkey
  | loaded r hresult hkey => exact .loaded r (by rw [hresults]; exact hresult) hkey

theorem resultKey_task {di : DownloadItem} (hzero : ∀ t ∈ o.texts, 0 ∉ t)
    (hkey : taskKey di = orderKey o) (uc_rlt : UInt8) :
    resultKey ⟨uc_rlt, names (resultTexts di)⟩ = orderKey o := by
  simp only [Order.texts, List.forall_mem_cons] at hzero
  obtain ⟨h1, h2, h3, h4, _⟩ := hzero
  rw [← hkey]
  unfold taskKey orderKey at hkey
  simp only [Prod.mk.injEq] at hkey
  obtain ⟨hk1, hk2, hk3, hk4⟩ := hkey
  rw [← hk1] at h1
  rw [← hk2] at h2
  rw [← hk3] at h3
  rw [← hk4] at h4
  obtain ⟨_, ht1, ht2, ht3, ht4⟩ :=
    cstrs_names h1 h2 h3 h4 [di.str_url, di.str_save_file_name, di.str_pwd]
  unfold resultKey taskKey
  exact Prod.ext ht1 (Prod.ext ht2 (Prod.ext ht3 ht4))

theorem served_download (h : Served rid s) {n : Nat} {uc_rlt : UInt8} {di : DownloadItem}
    (hdi : s.tasks[n]? = some di) :
    Served rid { s with
      tasks := s.tasks.eraseIdx n,
      results := s.results ++ [⟨uc_rlt, names (resultTexts di)⟩] } := by
  obtain ⟨hn, hget⟩ := List.getElem?_eq_some_iff.mp hdi
  refine h.grow rfl rfl (fun o mi ho _ _ hon => Or.inr ?_)
  cases hon with
  | reported version hash hother hdoc => exact .reported version hash hother hdoc
  | ordered hdoc => exact .ordered hdoc
  | loading dj htask hkey =>
    have hperm := List.getElem_cons_eraseIdx_perm hn
    rw [hget] at hperm
    rcases List.mem_cons.mp (hperm.mem_iff.mpr htask) with rfl | htask
    · exact .loaded _ (List.mem_append_right _ List.mem_cons_self) (resultKey_task ho.2 hkey uc_rlt)
    · exact .loading dj htask hkey
  | loaded r hresult hkey => exact .loaded r (List.mem_append_left _ hresult) hkey

theorem has_published {r : DownloadResult} (hgood : isPublished dc r = true) (hpub : Publishes dc o)
    (hprj : o.project = r.prj) (hmodule : o.module = r.module) :
    r.fileVer = o.version ∧ r.hash = o.hash := by
  obtain ⟨e, hlookup, hver, hhash, _⟩ := hpub
  unfold isPublished at hgood
  rw [← hprj, ← hmodule, hlookup] at hgood
  dsimp only at hgood
  rw [hver, hhash] at hgood
  have hsame := of_decide_eq_true hgood
  exact ⟨(Option.some.inj hsame.1).symm, (Option.some.inj hsame.2).symm⟩

theorem served_result (h : Served rid s) {es : List (Event × List Effect)} {x : Script}
    {r : DownloadResult} {results : List DownloadResult} (hresults : s.results = r :: results)
    (hok : Settling app_path es s (.result x))
    (hstep : s.handleResult app_path x r results = .ok (s', os)) : Served rid s' := by
  obtain ⟨y, hy, heq⟩ := map_ok hstep
  cases heq
  -- a module that the result is not for
  have hothers : ∀ o mi, ¬ (o.project = r.prj ∧ o.module = r.module) → Clean o → Publishes s.dc o →
      s.mgr.find o.project o.module = some mi → ∀ t : Sys, t.up = s.up → t.down = s.down →
        t.tasks = s.tasks →
      t.results = results → Has mi o ∨ OnTheWay rid t o := by
    intro o mi hother ho hpub hmi t hup hdown htasks hrest
    refine (h.way o mi ho hpub hmi).imp_right (fun hon => ?_)
    cases hon with
    | reported version hash hdiffers hdoc =>
      exact .reported version hash hdiffers (by rw [hup]; exact hdoc)
    | ordered hdoc => exact .ordered (by rw [hdown]; exact hdoc)
    | loading di htask hkey => exact .loading di (by rw [htasks]; exact htask) hkey
    | loaded r' hresult hkey =>
      rw [hresults] at hresult
      rcases List.mem_cons.mp hresult with rfl | hresult
      · unfold resultKey orderKey at hkey
        simp only [Prod.mk.injEq] at hkey
        exact absurd ⟨hkey.1.symm, hkey.2.1.symm⟩ hother
      · exact .loaded r' (by rw [hrest]; exact hresult) hkey
  rcases onDownloadResult_saves hy with ⟨happlied, hmgr, _⟩ | ⟨happlied, hmgr, _⟩
  · obtain ⟨mi, hfind⟩ := applied_versions.find_of_applied happlied
    refine ⟨h.known, ?_, ?_⟩
    · dsimp only
      rw [hmgr]
      exact plain_record h.plain hfind
    · intro o mi' ho hpub hmi'
      dsimp only at hpub hmi'
      rw [hmgr, find_record hfind] at hmi'
      split at hmi'
      · rename_i hsame
        cases hmi'
        have hpublished : published s.dc r.prj r.module ≠ none := by
          obtain ⟨e, hlookup, _⟩ := hpub
          rw [← hsame.1, ← hsame.2, hlookup]
          exact Option.some_ne_none e
        obtain ⟨_, hgood⟩ :=
          hok r results hresults (by rw [hfind]; exact Option.some_ne_none mi) hpublished
        exact Or.inl (has_published hgood hpub hsame.1 hsame.2)
      · rename_i hother
        exact hothers o mi' hother ho hpub hmi' _ rfl rfl rfl rfl
  · refine ⟨h.known, ?_, ?_⟩
    · dsimp only
      rw [hmgr]
      exact h.plain
    · intro o mi' ho hpub hmi'
      dsimp only at hpub hmi'
      rw [hmgr] at hmi'
      by_cases hsame : o.project = r.prj ∧ o.module = r.module
      · -- the result would have been applied
        have hpublished : published s.dc r.prj r.module ≠ none := by
          obtain ⟨e, hlookup, _⟩ := hpub
          rw [← hsame.1, ← hsame.2, hlookup]
          exact Option.some_ne_none e
        rw [hsame.1, hsame.2] at hmi'
        have happ :=
          (hok r results hresults (by rw [hmi']; exact Option.some_ne_none mi') hpublished).1
        rw [happlied] at happ
        cases happ
      · exact hothers o mi' hsame ho hpub hmi' _ rfl rfl rfl rfl

theorem served_step (h : Served rid s) {es : List (Event × List Effect)} {e : Event}
    (hok : Settling app_path es s e) (hstep : handle app_path rid s e = .ok (s', os)) :
    Served rid s' := by
  unfold handle at hstep
  cases e with
  | auth_suc readable => exact served_again h hstep
  | timer readable => exact served_again h hstep
  | report draws =>
    dsimp only at hstep
    split at hstep
    · cases hstep
      exact h
    · rename_i doc up hup
      cases hstep
      exact served_consume h (Or.inl hup) (hok doc up hup) draws
  | message doc draws =>
    cases hstep
    exact served_consume h (Or.inr rfl) hok draws
  | order tick =>
    dsimp only at hstep
    split at hstep
    · cases hstep
      exact h
    · rename_i doc down hdown
      exact served_order h hdown hstep
  | download n uc_rlt =>
    dsimp only at hstep
    split at hstep
    · cases hstep
      exact h
    · rename_i di hdi
      obtain ⟨_, _, hstep⟩ := bind_ok hstep
      cases hstep
      exact served_download h hdi
  | result x =>
    dsimp only at hstep
    split at hstep
    · cases hstep
      exact h
    · rename_i r results hresults
      exact served_result h hresults hok hstep

/-! ## The law -/

/-- A system in any state reports its versions, and runs on, with whatever is published and reported
meanwhile. Where nothing is on the way, each managed module has what is published for it, if the
results of published modules were of the packages that were published then, and were applied. -/
theorem whatever_is_published_is_there_when_nothing_is_on_the_way {s₀ s₁ : Sys} {os₀ : List Effect}
    {e₀ : Event} {es : List (Event × List Effect)} (he₀ : e₀ = .auth_suc true ∨ e₀ = .timer true)
    (hfile : s₀.file ≠ none) (hknown : Known rid s₀.dc)
    (hreport : handle app_path rid s₀ e₀ = .ok (s₁, os₀))
    (h : Run (handle app_path rid) (Settling app_path) s₁ es s) (hstill : Still s) :
    ∀ o mi, Clean o → Publishes s.dc o → s.mgr.find o.project o.module = some mi →
      mi.str_fv = o.version ∧ mi.str_fh = o.hash := by
  obtain ⟨json, hjson⟩ := Option.ne_none_iff_exists'.mp hfile
  have hserved : Served rid s₁ := by
    rcases he₀ with rfl | rfl
    · exact served_sync hjson hknown hreport
    · exact served_sync hjson hknown hreport
  have hinv : Served rid s := by
    refine Run.invariant (I := fun _ s => Served rid s) hserved ?_ h
    intro es s e s' os hinv hok hstep
    exact served_step hinv hok hstep
  obtain ⟨hup, hdown, htasks, hresults⟩ := hstill
  intro o mi ho hpub hmi
  rcases hinv.way o mi ho hpub hmi with hhas | hon
  · exact hhas
  · cases hon with
    | reported version hash _ hdoc =>
      rw [hup] at hdoc
      cases hdoc
    | ordered hdoc =>
      rw [hdown] at hdoc
      cases hdoc
    | loading di htask _ =>
      rw [htasks] at htask
      cases htask
    | loaded r hresult _ =>
      rw [hresults] at hresult
      cases hresult

/-! ## One module of one server -/

/-- The system of one module behind its first report. -/
def letterReported : Sys :=
  { letterSys with
    mgr := State.put ⟨∅, 0⟩ [112] [109] commanded
    up := [reportDoc oneRid [112] [109] [49] [97]] }

theorem named_reportDoc (rid project module version hash : Bytes) :
    Named (reportDoc rid project module version hash) := by
  intro v hv
  rw [items_reportDoc, List.mem_singleton] at hv
  have hkey : text "publish" = text "check_update" := congrArg Prod.fst hv
  exact absurd hkey (by decide)

theorem the_letters_come_to_their_module :
    ∃ es s mi, Run (handle letterPath oneRid) (Settling letterPath) letterReported es s ∧
    es.map Prod.fst =
      [.result goesWell, .download 0 aods.download_thread.enDrSuc, .order 0, .report []] ∧
    s.mgr.find [112] [109] = some mi ∧ mi.str_fv = [118] ∧ mi.str_fh = [104] := by
  have hreport : handle letterPath oneRid letterSys (.auth_suc true) = .ok (letterReported, []) :=
    rfl
  have h0 : Run (handle letterPath oneRid) (Settling letterPath) letterReported [] letterReported :=
    .start
  have h1 := Run.next (e := Event.report []) h0 (by
    intro doc up hup
    cases hup
    exact named_reportDoc oneRid [112] [109] [49] [97]) rfl
  have h2 := Run.next (e := Event.order 0) h1 trivial rfl
  have h3 := Run.next (e := Event.download 0 aods.download_thread.enDrSuc) h2 trivial rfl
  have h4 := Run.next (e := Event.result goesWell) h3 (by
    intro r results hresults _ _
    cases hresults
    exact ⟨rfl, rfl⟩) rfl
  refine ⟨_, _, _, h4, rfl, rfl, ?_⟩
  refine whatever_is_published_is_there_when_nothing_is_on_the_way (Or.inl rfl)
    (Option.some_ne_none _) ⟨_, _, rfl, rfl⟩
    hreport h4 ⟨rfl, rfl, rfl, rfl⟩ ⟨[112], [109], [118], [104], [117], [107]⟩ _ ?_
      ⟨_, rfl, rfl, rfl, rfl, rfl⟩ rfl
  refine ⟨?_, ?_⟩
  · decide
  · decide

end published_versions
