-- `DeployCtrl` with all that it keeps: the servers with what they run, and the table of what is
-- published, in memory and in the databases. A member of a message is handled at once; what
-- it writes to Redis and to Kafka goes out. The laws say that, but for the versions and the
-- table, it is the control of the servers' codes.
import Aods.Clock
import Aods.DeployCtrl
import Mathlib.Data.List.Induction

open machine std_map
open util.helper util.json
open py.deploy_ctrl (dictGet getText textsOf byteOf Draw activeAck authAck)

namespace py.deploy_db

/-! ## The data -/

/-- What `deploy` has for a module. A pair that was read from the database is a list, and no list
is equal to a tuple. -/
structure Deployed where
  version : Option Bytes
  hash : Option Bytes
  listed : Bool
  deriving DecidableEq

/-- An entry of `srvs`, and the JSON of a key of `db_mgr`. `active_code` and `deploy` come with the
activation, `location` and `ma` from the REST service. -/
structure Srv where
  ip : Bytes
  flag : Bytes
  active_code : Option Bytes
  deploy : Option (StdMap Deployed)
  location : Option Bytes
  ma : Option Bytes

/-- What `publish` has for a module of a project. -/
structure Entry where
  ver : Option Bytes
  hash : Option Bytes
  code : Option Bytes
  url : Option Bytes
  dt : Option Bytes
  detail : Option Bytes
  usr : Option Bytes
  deriving DecidableEq

structure DeployCtrl where
  index : Bytes
  srvs : StdMap Srv
  publish : StdMap Entry
  index_hex : ∃ b, index = getHexString [b]

/-- An order for an update. -/
structure UpdateMsg where
  rid : Bytes
  project : Option Bytes
  module : Option Bytes
  version : Option Bytes
  hash : Option Bytes
  url : Option Bytes
  code : Option Bytes
  deriving DecidableEq

/-- A message of the topic `deploy_d`. -/
inductive Down where
  | active_ack (uuid : CJson) (rid : Bytes)
  | auth_ack (rid : Bytes) (ack : Int)
  | update (m : UpdateMsg)

/-- What goes out of a handler. -/
inductive Out where
  | produce (d : Down)
  | set_mgr (rid : Bytes) (srv : Srv)
  | set_log (key : Bytes) (result : Option Int)

/-- A text, or `None`. -/
def valueOf (v : Option Bytes) : CJson :=
  match v with
  | none => .null
  | some s => .string s

/-- The JSON of a message. -/
def Down.doc : Down → CJson
  | .active_ack uuid rid => activeAck uuid rid
  | .auth_ack rid ack => authAck rid ack
  | .update m => obj [("update", obj [("rid", .string m.rid), ("project", valueOf m.project),
      ("module", valueOf m.module), ("version", valueOf m.version), ("hash", valueOf m.hash),
      ("url", valueOf m.url), ("code", valueOf m.code), ("force", .number 1)])]

/-- `json.dumps`, and `json.loads` behind it. -/
def Srv.json (srv : Srv) : Srv :=
  { srv with deploy := srv.deploy.map (mapValues (fun d => { d with listed := true })) }

/-- `str` of a text or of `None`. -/
def pyText (v : Option Bytes) : Bytes := v.getD (text "None")

/-- `__prjModule2Key`. -/
def DeployCtrl.prjModule2Key (dc : DeployCtrl) (prj module : Option Bytes) : Bytes :=
  dc.index ++ 35 :: (pyText prj ++ 35 :: pyText module)

/-- `__ridPrjModuleKeyVersion`. -/
def ridPrjModuleKeyVersion (rid : Bytes) (prj module version : Option Bytes) : Bytes :=
  rid ++ 35 :: (pyText prj ++ 35 :: (pyText module ++ 35 :: pyText version))

/-! ## The start -/

/-- The value of a key of `db_pub`. -/
structure Published where
  hash : Bytes
  code : Bytes
  url : Bytes
  dt : Bytes
  detail : Bytes
  usr : Bytes
  deriving DecidableEq

def Published.entry (p : Published) (ver : Bytes) : Entry :=
  ⟨some ver, some p.hash, some p.code, some p.url, some p.dt, some p.detail, some p.usr⟩

theorem index_is_hex (index : Int) : ∃ b, getHexString [uchar (index % 255)] = getHexString [b] :=
  ⟨_, rfl⟩

/-- `__init__`. -/
def init (index : Int) : DeployCtrl where
  index := getHexString [uchar (index % 255)]
  srvs := ∅
  publish := ∅
  index_hex := index_is_hex index

/-- The loop of `InitDb` over the keys of `db_mgr` that begin with the index. -/
def loadSrvs (db_mgr : StdMap Srv) (keys : List Bytes) : StdMap Srv :=
  keys.foldl (fun srvs key => match db_mgr.lookup key with
    | none => srvs
    | some srv => srvs.insert key srv) ∅

/-- A turn of the loop of `InitDb` over the keys of `db_pub`: a later entry takes the place of one
that is there. -/
def putPublished (publish : StdMap Entry) (pk : Bytes) (e : Entry) : StdMap Entry :=
  match publish.lookup pk with
  | none => publish.insert pk e
  | some e2 => if e2.dt.getD [] < e.dt.getD [] then publish.insert pk e else publish

/-- The loop itself. A key that is not of four parts raises an exception, which ends it. -/
def loadPublish (dc : DeployCtrl) (db_pub : StdMap Published) :
    List Bytes → StdMap Entry → StdMap Entry
  | [], publish => publish
  | key :: keys, publish =>
    match key.splitOn 35, db_pub.lookup key with
    | [_, prj, mn, ver], some p =>
      loadPublish dc db_pub keys
        (putPublished publish (dc.prjModule2Key (some prj) (some mn)) (p.entry ver))
    | _, _ => publish

/-- `InitDb`. Redis gives the keys of `db_pub` that begin with the index in an order of its own. -/
def DeployCtrl.initDb (dc : DeployCtrl) (db_mgr : StdMap Srv) (db_pub : StdMap Published)
    (pub_keys : List Bytes) :
    DeployCtrl where
  index := dc.index
  srvs := loadSrvs db_mgr (db_mgr.keys.filter (fun key => dc.index.isPrefixOf key))
  publish := loadPublish dc db_pub pub_keys ∅
  index_hex := dc.index_hex

/-! ## The handlers -/

/-- The loop of `__generalRid` over its random draws: the first one that is not taken. -/
def generalRid (dc : DeployCtrl) (draws : List Draw) : Option Bytes :=
  (draws.map (fun d => dc.index ++ getHexString d.1)).find? (fun rid => dc.srvs.lookup rid = none)

def DeployCtrl.enter (dc : DeployCtrl) (rid : Bytes) (srv : Srv) : DeployCtrl :=
  { dc with srvs := dc.srvs.insert rid srv }

def dealActive (dc : DeployCtrl) (value : CJson) (draws : List Draw) : DeployCtrl × List Out :=
  match byteOf ((dictGet value "index").getD (.number 0)) with
  | none => (dc, [])
  | some index =>
    if dc.index ≠ getHexString [index] then (dc, [])
    else
      match generalRid dc draws, textsOf ((dictGet value "ip").getD (.array [])) with
      | some rid, some ip =>
        let ips := [44].intercalate ip
        (dc.enter rid ⟨ips, ips, none, none, none, none⟩,
          [.produce (.active_ack ((dictGet value "uuid").getD (.string [])) rid)])
      | _, _ => (dc, [])

def dealActiveSuc (dc : DeployCtrl) (value : CJson) : DeployCtrl × List Out :=
  match getText value "rid", getText value "active_code" with
  | some rid, some active_code =>
    match dc.srvs.lookup rid with
    | none => (dc, [])
    | some srv =>
      let srv := { srv with active_code := some active_code, deploy := some ∅ }
      (dc.enter rid srv, [.set_mgr rid srv])
  | _, _ => (dc, [])

def dealAuthen (dc : DeployCtrl) (value : CJson) : List Out :=
  match getText value "rid" with
  | none => []
  | some rid =>
    if rid.take 2 ≠ dc.index then []
    else
      match dc.srvs.lookup rid with
      | none => [.produce (.auth_ack rid 1)]
      | some srv =>
        -- a server without a code raises a `KeyError`
        match srv.active_code with
        | none => []
        | some active_code =>
          if getText value "active_code" ≠ some active_code then [.produce (.auth_ack rid 1)]
          else [.produce (.auth_ack rid 0)]

/-- The pair that `deploy` has for a key, or the one of two `None`s. -/
def deployedAt (deploy : StdMap Deployed) (pmk : Bytes) : Deployed :=
  (deploy.lookup pmk).getD ⟨none, none, false⟩

/-- The order of `__dealUpdateCheck`, where what is published is not what the server runs. -/
def checkOrder (dc : DeployCtrl) (rid : Bytes) (project module version hash : Option Bytes) :
    List Out :=
  match dc.publish.lookup (dc.prjModule2Key project module) with
  | none => []
  | some e =>
    if e.ver = none then []
    else if e.ver ≠ version ∨ e.hash ≠ hash then
      [.produce (.update ⟨rid, project, module, e.ver, e.hash, e.url, e.code⟩)]
    else []

def dealUpdateCheck (dc : DeployCtrl) (value : CJson) : DeployCtrl × List Out :=
  match getText value "rid" with
  | none => (dc, [])
  | some rid =>
    match dc.srvs.lookup rid with
    | none => (dc, [])
    | some srv =>
      -- without a `deploy` there is a `KeyError`
      match srv.deploy with
      | none => (dc, [])
      | some deploy =>
        let project := getText value "project"
        let module := getText value "module"
        let pmk := dc.prjModule2Key project module
        let now : Deployed := ⟨getText value "version", getText value "hash", false⟩
        let orders := checkOrder dc rid project module now.version now.hash
        if deployedAt deploy pmk ≠ now then
          let srv := { srv with deploy := some (deploy.insert pmk now) }
          (dc.enter rid srv, .set_mgr rid srv :: orders)
        else (dc, orders)

/-- Of the text of a result and of the time nothing is kept here. -/
def dealUpdateResult (dc : DeployCtrl) (value : CJson) : List Out :=
  match getText value "rid" with
  | none => []
  | some rid =>
    match dc.srvs.lookup rid with
    | none => []
    | some _ =>
      let key := ridPrjModuleKeyVersion rid (getText value "project") (getText value "module")
        (getText value "version")
      match dictGet value "result" with
      | some (.number result) => [.set_log key (some result)]
      | _ => [.set_log key none]

/-- The numbers of a list. -/
def intsOf : CJson → Option (List Int)
  | .array items => items.mapM (fun i => match i with | .number n => some n | _ => none)
  | _ => none

/-- What is kept is later than a message, or the message has no time, which raises a `TypeError`. -/
def ignored (kept : Option Entry) (dt : Option Bytes) : Bool :=
  match kept.bind (·.dt) with
  | none => false
  | some dt2 =>
    if dt2 = [] then false
    else
      match dt with
      | none => true
      | some dt => dt < dt2

def dealPublish (dc : DeployCtrl) (value : CJson) : DeployCtrl × List Out :=
  match intsOf ((dictGet value "indexes").getD (.array [])) with
  | none => (dc, [])
  | some indexes =>
    if dc.index ∉ indexes.map (fun index => getHexString [uchar (index % 255)]) then (dc, [])
    else
      let prj := getText value "project"
      let module := getText value "module"
      let e : Entry :=
        ⟨getText value "version", getText value "hash", getText value "code", getText value "url",
        getText value "datetime", getText value "detail", getText value "user"⟩
      let pmKey := dc.prjModule2Key prj module
      if ignored (dc.publish.lookup pmKey) e.dt then (dc, [])
      else
        ({ dc with publish := dc.publish.insert pmKey e },
          dc.srvs.keys.map
            (fun rid => .produce (.update ⟨rid, prj, module, e.ver, e.hash, e.url, e.code⟩)))

/-- A turn of the loop of `OnConsume`. -/
def deal (dc : DeployCtrl) (draws : List Draw) (k : Bytes) (v : CJson) : DeployCtrl × List Out :=
  if k = text "active" then dealActive dc v draws
  else if k = text "active_suc" then dealActiveSuc dc v
  else if k = text "auth" then (dc, dealAuthen dc v)
  else if k = text "check_update" then dealUpdateCheck dc v
  else if k = text "update_result" then (dc, dealUpdateResult dc v)
  else if k = text "publish" then dealPublish dc v
  else (dc, [])

/-- The items of a dict: a key of a document that is there again has its last value. -/
def items : CJson → List (Bytes × CJson)
  | .object members => (members.map (·.1)).eraseDups.filterMap
      (fun k => (members.reverse.find? (fun m => m.1 = k)).map (fun m => (k, m.2)))
  | _ => []

def onConsume (dc : DeployCtrl) (doc : CJson) (draws : List Draw) : DeployCtrl × List Out :=
  (items doc).foldl
    (fun s item => ((deal s.1 draws item.1 item.2).1, s.2 ++ (deal s.1 draws item.1 item.2).2))
    (dc, [])

/-! ## The databases -/

/-- What a handler does to `db_mgr`. -/
def store (db_mgr : StdMap Srv) : Out → StdMap Srv
  | .set_mgr rid srv => db_mgr.insert rid srv.json
  | _ => db_mgr

def storeAll (db_mgr : StdMap Srv) (os : List Out) : StdMap Srv := os.foldl store db_mgr

/-! ## The control of the codes -/

def Srv.base (srv : Srv) : deploy_ctrl.Srv := ⟨srv.ip, srv.flag, srv.active_code⟩

def DeployCtrl.base (dc : DeployCtrl) : deploy_ctrl.DeployCtrl :=
  ⟨dc.index, mapValues Srv.base dc.srvs, dc.index_hex⟩

theorem base_lookup (dc : DeployCtrl) (rid : Bytes) :
    dc.base.srvs.lookup rid = (dc.srvs.lookup rid).map Srv.base :=
  find_mapValues Srv.base dc.srvs rid

theorem generalRid_base (dc : DeployCtrl) (draws : List Draw) :
    deploy_ctrl.generalRid dc.base draws = generalRid dc draws := by
  unfold deploy_ctrl.generalRid generalRid
  have htaken : ∀ rid, decide (dc.base.srvs.lookup rid = none) =
      decide (dc.srvs.lookup rid = none) := by
    intro rid
    rw [base_lookup]
    cases dc.srvs.lookup rid with
    | none => rfl
    | some srv => rfl
  simp only [htaken]
  rfl

/-! ## What a handler can do -/

/-- Of these neither the servers nor their codes learn. -/
def Quiet : Out → Prop
  | .produce (.update _) => True
  | .set_log _ _ => True
  | _ => False

/-- The server behind an activation. -/
def Srv.activate (srv : Srv) (active_code : Bytes) : Srv :=
  { srv with active_code := some active_code, deploy := some ∅ }

/-- The server behind a report of a version. -/
def Srv.report (srv : Srv) (deploy : StdMap Deployed) (pmk : Bytes) (now : Deployed) : Srv :=
  { srv with deploy := some (deploy.insert pmk now) }

/-- The pair of a report. -/
def reported (value : CJson) : Deployed := ⟨getText value "version", getText value "hash", false⟩

/-- The key of the module of a report. -/
def DeployCtrl.reportKey (dc : DeployCtrl) (value : CJson) : Bytes :=
  dc.prjModule2Key (getText value "project") (getText value "module")

/-- A report that is handled is of the pair that the control has in memory. -/
def Repeated (dc : DeployCtrl) (k : Bytes) (v : CJson) : Prop :=
  k = text "check_update" → ∀ rid srv deploy, getText v "rid" = some rid →
    dc.srvs.lookup rid = some srv →
    srv.deploy = some deploy → deployedAt deploy (dc.reportKey v) = reported v

/-- A turn of a control: no server changes, or one is entered or is written to memory and to the
database. -/
inductive Turn (dc : DeployCtrl) (k : Bytes) (v : CJson) : DeployCtrl → List Out → Prop where
  | quiet {dc' : DeployCtrl} {os : List Out} (hsrvs : dc'.srvs = dc.srvs)
      (hindex : dc'.index = dc.index)
      (hos : ∀ o ∈ os, Quiet o) (hsame : Repeated dc k v) : Turn dc k v dc' os
  | answered (hk : k = text "auth") : Turn dc k v dc (dealAuthen dc v)
  | entered (rid ips : Bytes) (uuid : CJson) (hk : k = text "active")
      (hnew : dc.srvs.lookup rid = none)
      (hmine : rid.take 2 = dc.index) :
      Turn dc k v (dc.enter rid ⟨ips, ips, none, none, none, none⟩)
        [.produce (.active_ack uuid rid)]
  | activated (rid active_code : Bytes) (srv : Srv) (hk : k = text "active_suc")
      (hrid : getText v "rid" = some rid) (hcode : getText v "active_code" = some active_code)
      (hsrv : dc.srvs.lookup rid = some srv) :
      Turn dc k v (dc.enter rid (srv.activate active_code))
        [.set_mgr rid (srv.activate active_code)]
  | checked (rid : Bytes) (srv : Srv) (deploy : StdMap Deployed) (os : List Out)
      (hk : k = text "check_update")
      (hrid : getText v "rid" = some rid) (hsrv : dc.srvs.lookup rid = some srv)
        (hdeploy : srv.deploy = some deploy)
      (hother : deployedAt deploy (dc.reportKey v) ≠ reported v) (hos : ∀ o ∈ os, Quiet o) :
      Turn dc k v (dc.enter rid (srv.report deploy (dc.reportKey v) (reported v)))
        (.set_mgr rid (srv.report deploy (dc.reportKey v) (reported v)) :: os)

variable {dc : DeployCtrl} {k : Bytes} {v : CJson} {draws : List Draw} {rid : Bytes}

theorem Turn.nothing (dc : DeployCtrl) (v : CJson) (hk : k ≠ text "check_update") :
    Turn dc k v dc [] :=
  .quiet rfl rfl (by simp) (fun he => absurd he hk)

theorem generalRid_some (h : generalRid dc draws = some rid) :
    dc.srvs.lookup rid = none ∧ rid.take 2 = dc.index := by
  rw [← generalRid_base] at h
  obtain ⟨hnew, hmine, _⟩ := deploy_ctrl.generalRid_some h
  rw [base_lookup, Option.map_eq_none_iff] at hnew
  exact ⟨hnew, hmine⟩

theorem dealActive_turn (dc : DeployCtrl) (v : CJson) (draws : List Draw) :
    Turn dc (text "active") v (dealActive dc v draws).1 (dealActive dc v draws).2 := by
  unfold dealActive
  split
  · exact .nothing dc v (by decide)
  split
  · exact .nothing dc v (by decide)
  split
  · rename_i rid ip hrid _
    obtain ⟨hnew, hmine⟩ := generalRid_some hrid
    exact .entered rid _ _ rfl hnew hmine
  · exact .nothing dc v (by decide)

theorem dealActiveSuc_turn (dc : DeployCtrl) (v : CJson) :
    Turn dc (text "active_suc") v (dealActiveSuc dc v).1 (dealActiveSuc dc v).2 := by
  unfold dealActiveSuc
  split
  · rename_i rid active_code hrid hcode
    split
    · exact .nothing dc v (by decide)
    · rename_i srv hsrv
      exact .activated rid active_code srv rfl hrid hcode hsrv
  · exact .nothing dc v (by decide)

theorem checkOrder_quiet (dc : DeployCtrl) (rid : Bytes)
    (project module version hash : Option Bytes) :
    ∀ o ∈ checkOrder dc rid project module version hash, Quiet o := by
  intro o ho
  unfold checkOrder at ho
  split at ho
  · cases ho
  split at ho
  · cases ho
  split at ho
  · rw [List.mem_singleton.mp ho]
    trivial
  · cases ho

theorem dealUpdateCheck_turn (dc : DeployCtrl) (v : CJson) :
    Turn dc (text "check_update") v (dealUpdateCheck dc v).1 (dealUpdateCheck dc v).2 := by
  unfold dealUpdateCheck
  split
  · rename_i hrid
    refine .quiet rfl rfl (by simp) (fun _ rid srv deploy hr => ?_)
    rw [hrid] at hr
    cases hr
  rename_i rid hrid
  split
  · rename_i hsrv
    refine .quiet rfl rfl (by simp) (fun _ r srv deploy hr hs => ?_)
    rw [hrid] at hr
    cases hr
    rw [hsrv] at hs
    cases hs
  rename_i srv hsrv
  split
  · rename_i hdeploy
    refine .quiet rfl rfl (by simp) (fun _ r srv' deploy hr hs hd => ?_)
    rw [hrid] at hr
    cases hr
    rw [hsrv] at hs
    cases hs
    rw [hdeploy] at hd
    cases hd
  rename_i deploy hdeploy
  dsimp only
  split
  · rename_i hother
    exact .checked rid srv deploy _ rfl hrid hsrv hdeploy hother (checkOrder_quiet dc rid _ _ _ _)
  · rename_i hsame
    refine .quiet rfl rfl (checkOrder_quiet dc rid _ _ _ _) (fun _ r srv' deploy' hr hs hd => ?_)
    rw [hrid] at hr
    cases hr
    rw [hsrv] at hs
    cases hs
    rw [hdeploy] at hd
    cases hd
    exact not_not.mp hsame

theorem dealUpdateResult_quiet (dc : DeployCtrl) (v : CJson) :
    ∀ o ∈ dealUpdateResult dc v, Quiet o := by
  intro o ho
  unfold dealUpdateResult at ho
  split at ho
  · cases ho
  split at ho
  · cases ho
  dsimp only at ho
  split at ho
  · rw [List.mem_singleton.mp ho]
    trivial
  · rw [List.mem_singleton.mp ho]
    trivial

theorem dealPublish_turn (dc : DeployCtrl) (v : CJson) :
    Turn dc (text "publish") v (dealPublish dc v).1 (dealPublish dc v).2 := by
  unfold dealPublish
  split
  · exact .nothing dc v (by decide)
  split
  · exact .nothing dc v (by decide)
  dsimp only
  split
  · exact .nothing dc v (by decide)
  · refine .quiet rfl rfl (fun o ho => ?_) (fun hk => absurd hk (by decide))
    obtain ⟨rid, _, rfl⟩ := List.mem_map.mp ho
    trivial

/-- All that a handler does. -/
theorem deal_turn (dc : DeployCtrl) (draws : List Draw) (k : Bytes) (v : CJson) :
    Turn dc k v (deal dc draws k v).1 (deal dc draws k v).2 := by
  unfold deal
  split
  · rename_i hk
    rw [hk]
    exact dealActive_turn dc v draws
  split
  · rename_i hk
    rw [hk]
    exact dealActiveSuc_turn dc v
  split
  · rename_i hk
    exact .answered hk
  split
  · rename_i hk
    rw [hk]
    exact dealUpdateCheck_turn dc v
  rename_i hcheck
  split
  · exact .quiet rfl rfl (dealUpdateResult_quiet dc v) (fun he => absurd he hcheck)
  split
  · rename_i hk
    rw [hk]
    exact dealPublish_turn dc v
  · exact .nothing dc v hcheck

/-- What the turns of a message keep, one after another, the message keeps. -/
theorem onConsume_induct {P : DeployCtrl → List Out → Prop} (doc : CJson) (hnone : P dc [])
    (hturn : ∀ item ∈ items doc, ∀ dc' os, P dc' os →
      P (deal dc' draws item.1 item.2).1 (os ++ (deal dc' draws item.1 item.2).2)) :
    P (onConsume dc doc draws).1 (onConsume dc doc draws).2 := by
  have hfold : ∀ is : List (Bytes × CJson), (∀ item ∈ is, item ∈ items doc) →
      ∀ s : DeployCtrl × List Out, P s.1 s.2 →
      P (is.foldl (fun s item =>
          ((deal s.1 draws item.1 item.2).1, s.2 ++ (deal s.1 draws item.1 item.2).2)) s).1
        (is.foldl (fun s item =>
          ((deal s.1 draws item.1 item.2).1, s.2 ++ (deal s.1 draws item.1 item.2).2)) s).2 := by
    intro is
    induction is with
    | nil =>
      intro _ s hs
      exact hs
    | cons item is ih =>
      intro hall s hs
      rw [List.foldl_cons]
      apply ih (fun i hi => hall i (List.mem_cons_of_mem item hi))
      exact hturn item (hall item List.mem_cons_self) s.1 s.2 hs
  exact hfold (items doc) (fun _ hi => hi) (dc, []) hnone

theorem onConsume_one {doc : CJson} (h : items doc = [(k, v)]) :
    onConsume dc doc draws = deal dc draws k v := by
  unfold onConsume
  rw [h]
  rfl

/-! ## A start -/

theorem loadSrvs_lookup (db_mgr : StdMap Srv) (keys : List Bytes) (rid : Bytes) :
    (loadSrvs db_mgr keys).lookup rid = if rid ∈ keys then db_mgr.lookup rid else none := by
  unfold loadSrvs
  induction keys using List.reverseRecOn with
  | nil => rfl
  | append_singleton keys key ih =>
    rw [List.foldl_append, List.foldl_cons, List.foldl_nil]
    by_cases hrid : rid = key
    · subst hrid
      rw [if_pos (List.mem_append_right _ List.mem_cons_self)]
      cases hsrv : db_mgr.lookup rid with
      | none =>
        dsimp only
        rw [ih, hsrv, ite_self]
      | some srv =>
        dsimp only
        rw [find_insert, if_pos rfl]
    · have hmem : rid ∈ keys ++ [key] ↔ rid ∈ keys := by simp [hrid]
      cases db_mgr.lookup key with
      | none =>
        dsimp only
        rw [ih]
        simp only [hmem]
      | some srv =>
        dsimp only
        rw [find_insert, if_neg hrid, ih]
        simp only [hmem]

/-- A control that starts has the servers of its index, as the database has them. -/
theorem initDb_lookup (dc : DeployCtrl) (db_mgr : StdMap Srv) (db_pub : StdMap Published)
    (pub_keys : List Bytes) (rid : Bytes) :
    (dc.initDb db_mgr db_pub pub_keys).srvs.lookup rid =
      if dc.index <+: rid then db_mgr.lookup rid else none := by
  have hload := loadSrvs_lookup db_mgr (db_mgr.keys.filter (fun key => dc.index.isPrefixOf key)) rid
  have hmem : rid ∈ db_mgr.keys.filter (fun key => dc.index.isPrefixOf key) ↔
      rid ∈ db_mgr.keys ∧ dc.index <+: rid := by
    rw [List.mem_filter, List.isPrefixOf_iff_prefix]
  unfold DeployCtrl.initDb
  dsimp only
  rw [hload]
  by_cases hbegins : dc.index <+: rid
  · rw [if_pos hbegins]
    by_cases hkey : rid ∈ db_mgr.keys
    · rw [if_pos (hmem.mpr ⟨hkey, hbegins⟩)]
    · rw [if_neg (fun h => hkey (hmem.mp h).1)]
      exact (AList.lookup_eq_none.mpr hkey).symm
  · rw [if_neg hbegins, if_neg (fun h => hbegins (hmem.mp h).2)]

theorem begins_iff (dc : DeployCtrl) (rid : Bytes) : dc.index <+: rid ↔ rid.take 2 = dc.index := by
  obtain ⟨b, hb⟩ := dc.index_hex
  have hlen : dc.index.length = 2 := by simp [hb]
  rw [List.prefix_iff_eq_take, hlen]
  exact eq_comm

/-! ## What an answer says -/

/-- A server is answered by 0 just when it has a code and this is the one. -/
theorem dealAuthen_granted (h : Out.produce (.auth_ack rid 0) ∈ dealAuthen dc v) :
    ∃ srv active_code, dc.srvs.lookup rid = some srv ∧ srv.active_code = some active_code ∧
      getText v "rid" = some rid ∧ getText v "active_code" = some active_code := by
  unfold dealAuthen at h
  split at h
  · cases h
  rename_i r hr
  split at h
  · cases h
  split at h
  · simp at h
  rename_i srv hsrv
  split at h
  · cases h
  rename_i active_code hcode
  split at h
  · simp at h
  · rename_i hsame
    have hrid : rid = r := by simpa using h
    subst hrid
    exact ⟨srv, active_code, hsrv, hcode, hr, not_not.mp hsame⟩

theorem dealAuthen_stored {srv : Srv} {active_code : Bytes} (hrid : getText v "rid" = some rid)
    (hcode : getText v "active_code" = some active_code) (hmine : rid.take 2 = dc.index)
    (hsrv : dc.srvs.lookup rid = some srv) (hstored : srv.active_code = some active_code) :
    dealAuthen dc v = [.produce (.auth_ack rid 0)] := by
  unfold dealAuthen
  rw [hrid, hcode]
  dsimp only
  rw [if_neg (not_not.mpr hmine), hsrv]
  dsimp only
  rw [hstored]
  dsimp only
  rw [if_neg (not_not.mpr rfl)]

theorem dealAuthen_answers (dc : DeployCtrl) (v : CJson) :
    ∀ o ∈ dealAuthen dc v, ∃ rid ack, o = .produce (.auth_ack rid ack) := by
  intro o ho
  unfold dealAuthen at ho
  split at ho
  · cases ho
  split at ho
  · cases ho
  split at ho
  · exact ⟨_, _, List.mem_singleton.mp ho⟩
  split at ho
  · cases ho
  split at ho
  · exact ⟨_, _, List.mem_singleton.mp ho⟩
  · exact ⟨_, _, List.mem_singleton.mp ho⟩

/-! ## What the database keeps -/

theorem storeAll_append (db_mgr : StdMap Srv) (os os' : List Out) :
    storeAll db_mgr (os ++ os') = storeAll (storeAll db_mgr os) os' := by
  unfold storeAll
  exact List.foldl_append

theorem storeAll_quiet {os : List Out} (db_mgr : StdMap Srv) (h : ∀ o ∈ os, Quiet o) :
    storeAll db_mgr os = db_mgr := by
  induction os with
  | nil => rfl
  | cons o os ih =>
    have hstore : store db_mgr o = db_mgr := by
      have ho := h o List.mem_cons_self
      unfold Quiet at ho
      split at ho
      · rfl
      · rfl
      · exact ho.elim
    have hcons : storeAll db_mgr (o :: os) = storeAll (store db_mgr o) os := rfl
    rw [hcons, hstore]
    exact ih (fun o' ho' => h o' (List.mem_cons_of_mem o ho'))

theorem storeAll_dealAuthen (db_mgr : StdMap Srv) (dc : DeployCtrl) (v : CJson) :
    storeAll db_mgr (dealAuthen dc v) = db_mgr := by
  have hall := dealAuthen_answers dc v
  generalize dealAuthen dc v = os at hall
  induction os with
  | nil => rfl
  | cons o os ih =>
    obtain ⟨rid, ack, rfl⟩ := hall o List.mem_cons_self
    exact ih (fun o' ho' => hall o' (List.mem_cons_of_mem _ ho'))

/-- A server that is written, with what else goes out. -/
theorem storeAll_write {os : List Out} (db_mgr : StdMap Srv) (rid : Bytes) (srv : Srv)
    (h : ∀ o ∈ os, Quiet o) :
    storeAll db_mgr (.set_mgr rid srv :: os) = db_mgr.insert rid srv.json :=
  storeAll_quiet (db_mgr.insert rid srv.json) h

/-! ## What the control of the codes does -/

/-- The documents that go to Kafka. -/
def docs (os : List Out) : List CJson :=
  os.filterMap (fun o => match o with | .produce d => some d.doc | _ => none)

theorem base_enter (dc : DeployCtrl) (rid : Bytes) (srv : Srv) :
    (dc.enter rid srv).base = { dc.base with srvs := dc.base.srvs.insert rid srv.base } := by
  unfold DeployCtrl.enter DeployCtrl.base
  dsimp only
  congr 1
  exact mapValues_insert Srv.base dc.srvs rid srv

theorem dealActive_base (dc : DeployCtrl) (value : CJson) (draws : List Draw) :
    deploy_ctrl.dealActive dc.base value draws =
      ((dealActive dc value draws).1.base, docs (dealActive dc value draws).2) := by
  unfold deploy_ctrl.dealActive dealActive
  rw [generalRid_base]
  cases byteOf ((dictGet value "index").getD (.number 0)) with
  | none => rfl
  | some index =>
    dsimp only
    by_cases hmine : dc.index ≠ getHexString [index]
    · have hmine' : dc.base.index ≠ getHexString [index] := hmine
      rw [if_pos hmine', if_pos hmine]
      rfl
    · have hmine' : ¬ dc.base.index ≠ getHexString [index] := hmine
      rw [if_neg hmine', if_neg hmine]
      cases generalRid dc draws with
      | none => rfl
      | some rid =>
        cases textsOf ((dictGet value "ip").getD (.array [])) with
        | none => rfl
        | some ip =>
          dsimp only
          rw [base_enter]
          rfl

theorem dealActiveSuc_base (dc : DeployCtrl) (value : CJson) :
    deploy_ctrl.dealActiveSuc dc.base value = (dealActiveSuc dc value).1.base := by
  unfold deploy_ctrl.dealActiveSuc dealActiveSuc
  cases getText value "rid" with
  | none => rfl
  | some rid =>
    cases getText value "active_code" with
    | none => rfl
    | some active_code =>
      dsimp only
      rw [base_lookup]
      cases dc.srvs.lookup rid with
      | none => rfl
      | some srv =>
        dsimp only [Option.map_some]
        rw [base_enter]
        rfl

theorem dealAuthen_base (dc : DeployCtrl) (value : CJson) :
    deploy_ctrl.dealAuthen dc.base value = docs (dealAuthen dc value) := by
  unfold deploy_ctrl.dealAuthen dealAuthen
  cases getText value "rid" with
  | none => rfl
  | some rid =>
    dsimp only
    by_cases hmine : rid.take 2 ≠ dc.index
    · have hmine' : rid.take 2 ≠ dc.base.index := hmine
      rw [if_pos hmine', if_pos hmine]
      rfl
    · have hmine' : ¬ rid.take 2 ≠ dc.base.index := hmine
      rw [if_neg hmine', if_neg hmine, base_lookup]
      cases dc.srvs.lookup rid with
      | none => rfl
      | some srv =>
        obtain ⟨ip, flag, active_code, deploy, location, ma⟩ := srv
        cases active_code with
        | none => rfl
        | some active_code =>
          dsimp only [Option.map_some, Srv.base]
          by_cases hcode : getText value "active_code" ≠ some active_code
          · rw [if_pos hcode, if_pos hcode]
            rfl
          · rw [if_neg hcode, if_neg hcode]
            rfl

theorem items_obj (k : String) (v : CJson) : items (obj [(k, v)]) = [(text k, v)] := by
  simp [items, obj, List.eraseDups_cons]

/-- A document about an activation or an authentication does to the codes what the control of the
codes does, and is answered as by that one. -/
theorem onConsume_base (dc : DeployCtrl) {k : String}
    (hk : k = "active" ∨ k = "active_suc" ∨ k = "auth") (v : CJson) (draws : List Draw) :
    deploy_ctrl.onConsume dc.base (obj [(k, v)]) draws =
      ((onConsume dc (obj [(k, v)]) draws).1.base, docs (onConsume dc (obj [(k, v)]) draws).2) := by
  have hsuc : text "active_suc" ≠ text "active" := by decide
  have hauth : text "auth" ≠ text "active" ∧ text "auth" ≠ text "active_suc" := by decide
  rw [onConsume_one (items_obj k v)]
  rcases hk with rfl | rfl | rfl
  · have hbase : deploy_ctrl.onConsume dc.base (obj [("active", v)]) draws =
        deploy_ctrl.dealActive dc.base v draws := by
      simp [deploy_ctrl.onConsume, dictGet, obj]
    rw [hbase, dealActive_base, deal, if_pos rfl]
  · have hbase : deploy_ctrl.onConsume dc.base (obj [("active_suc", v)]) draws =
        (deploy_ctrl.dealActiveSuc dc.base v, []) := by
      simp [deploy_ctrl.onConsume, dictGet, obj, hsuc]
    have hquiet : docs (dealActiveSuc dc v).2 = [] := by
      unfold dealActiveSuc
      split
      · split
        · rfl
        · rfl
      · rfl
    rw [hbase, dealActiveSuc_base, deal, if_neg hsuc, if_pos rfl, hquiet]
  · have hbase : deploy_ctrl.onConsume dc.base (obj [("auth", v)]) draws =
        (dc.base, deploy_ctrl.dealAuthen dc.base v) := by
      simp [deploy_ctrl.onConsume, dictGet, obj, hauth.1, hauth.2]
    rw [hbase, dealAuthen_base, deal, if_neg hauth.1, if_neg hauth.2, if_pos rfl]

end py.deploy_db
