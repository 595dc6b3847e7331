-- The database of the servers, with the two processes that write it: `DeployCtrl`, from what it
-- has in memory, and the REST service, from what it reads. Each event is one message or
-- one call of Redis.
import Aods.DbEngine
import Aods.Runs

open machine std_map runs
open util.helper util.json
open py.deploy_ctrl (dictGet getText Draw)
open py.deploy_db py.db_engine

namespace py.server_db

/-! ## The model -/

/-- A call of `updateServer` that has read its server. -/
structure Call where
  si : ServerInfo
  srv : Srv
  set : Bool

structure Db where
  dc : DeployCtrl
  db_mgr : StdMap Srv
  calls : Nat → Option Call

/-- What happens: a message, the two calls of Redis of an `updateServer` and its return, an
erasure of `deleteServers`, a start of the control. -/
inductive Event where
  | consume (k : Bytes) (v : CJson) (draws : List Draw)
  | get (id : Nat) (si : ServerInfo)
  | set (id : Nat)
  | ret (id : Nat) (success : Bool)
  | delete (rid : Bytes)
  | restart (db_pub : StdMap Published) (pub_keys : List Bytes)

def Db.put (s : Db) (id : Nat) (c : Option Call) : Db :=
  { s with calls := Function.update s.calls id c }

def start (index : Int) (db_mgr : StdMap Srv) (db_pub : StdMap Published) (pub_keys : List Bytes) :
    Db :=
  ⟨(init index).initDb db_mgr db_pub pub_keys, db_mgr, fun _ => none⟩

/-- What an event leaves, and what goes out. A call that fails before it has set anything is
over. -/
def step (s : Db) : Event → Db × List Out
  | .consume k v draws =>
    ({ s with dc := (deal s.dc draws k v).1, db_mgr := storeAll s.db_mgr (deal s.dc draws k v).2 },
      (deal s.dc draws k v).2)
  | .get id si =>
    match s.calls id, s.db_mgr.lookup si.rid with
    | none, some srv => (s.put id (some ⟨si, srv, false⟩), [])
    | _, _ => (s, [])
  | .set id =>
    match s.calls id with
    | some ⟨si, srv, false⟩ =>
      match updated si srv with
      | none => (s.put id none, [])
      | some srv' =>
        ({ s with db_mgr := s.db_mgr.insert si.rid srv'.json }.put id (some ⟨si, srv, true⟩), [])
    | _ => (s, [])
  | .ret id _ =>
    match s.calls id with
    | some ⟨_, _, true⟩ => (s.put id none, [])
    | _ => (s, [])
  | .delete rid => ({ s with db_mgr := s.db_mgr.erase rid }, [])
  | .restart db_pub pub_keys => ({ s with dc := s.dc.initDb s.db_mgr db_pub pub_keys }, [])

def handle : Handler Db Event Out Fault
  | s, e => .ok (step s e)

variable {s : Db} {rid : Bytes} {k : Bytes} {v : CJson} {draws : List Draw}

/-! ## What one event does to one server -/

/-- What a message does to a server in memory and in the database: nothing, or it enters, activates
or reports it. -/
inductive Consumed (s : Db) (k : Bytes) (v : CJson) (rid : Bytes) (s' : Db) : Prop where
  | kept (hmem : s'.dc.srvs.lookup rid = s.dc.srvs.lookup rid)
      (hdb : s'.db_mgr.lookup rid = s.db_mgr.lookup rid)
      (hsame : getText v "rid" = some rid → Repeated s.dc k v)
  | entered (srv : Srv) (hk : k = text "active") (hnew : s.dc.srvs.lookup rid = none)
      (hmine : rid.take 2 = s.dc.index)
      (hmem : s'.dc.srvs.lookup rid = some srv) (hdeploy : srv.deploy = none)
      (hdb : s'.db_mgr.lookup rid = s.db_mgr.lookup rid)
  | activated (srv : Srv) (active_code : Bytes) (hk : k = text "active_suc")
      (hrid : getText v "rid" = some rid)
      (hsrv : s.dc.srvs.lookup rid = some srv)
        (hmem : s'.dc.srvs.lookup rid = some (srv.activate active_code))
      (hdb : s'.db_mgr.lookup rid = some (srv.activate active_code).json)
  | checked (srv : Srv) (deploy : StdMap Deployed) (hk : k = text "check_update")
      (hrid : getText v "rid" = some rid)
      (hsrv : s.dc.srvs.lookup rid = some srv) (hdeploy : srv.deploy = some deploy)
      (hother : deployedAt deploy (s.dc.reportKey v) ≠ reported v)
      (hmem : s'.dc.srvs.lookup rid = some (srv.report deploy (s.dc.reportKey v) (reported v)))
      (hdb : s'.db_mgr.lookup rid = some (srv.report deploy (s.dc.reportKey v) (reported v)).json)

theorem enter_lookup (dc : DeployCtrl) (r : Bytes) (srv : Srv) (rid : Bytes) :
    (dc.enter r srv).srvs.lookup rid = if rid = r then some srv else dc.srvs.lookup rid :=
  find_insert dc.srvs r rid srv

theorem consume_consumed (s : Db) (k : Bytes) (v : CJson) (draws : List Draw) (rid : Bytes) :
    Consumed s k v rid (step s (.consume k v draws)).1 := by
  unfold step
  dsimp only
  have hturn := deal_turn s.dc draws k v
  generalize deal s.dc draws k v = r at hturn
  obtain ⟨dc, os⟩ := r
  dsimp only at hturn ⊢
  cases hturn with
  | quiet hsrvs hindex hos hsame =>
    apply Consumed.kept
    · dsimp only
      rw [hsrvs]
    · dsimp only
      rw [storeAll_quiet _ hos]
    · exact fun _ => hsame
  | answered hk =>
    apply Consumed.kept
    · rfl
    · dsimp only
      rw [storeAll_dealAuthen]
    · intro _ hcheck
      rw [hk] at hcheck
      exact absurd hcheck (by decide)
  | entered r ips uuid hk hnew hmine =>
    by_cases hr : rid = r
    · subst hr
      exact .entered _ hk hnew hmine ((enter_lookup s.dc rid _ rid).trans (if_pos rfl)) rfl rfl
    · apply Consumed.kept
      · exact (enter_lookup s.dc r _ rid).trans (if_neg hr)
      · rfl
      · intro _ hcheck
        rw [hk] at hcheck
        exact absurd hcheck (by decide)
  | activated r active_code srv hk hrid hcode hsrv =>
    rw [storeAll_write _ _ _ (by simp)]
    by_cases hr : rid = r
    · subst hr
      exact .activated srv active_code hk hrid hsrv
        ((enter_lookup s.dc rid _ rid).trans (if_pos rfl))
        ((find_insert s.db_mgr rid rid _).trans (if_pos rfl))
    · apply Consumed.kept
      · exact (enter_lookup s.dc r _ rid).trans (if_neg hr)
      · exact (find_insert s.db_mgr r rid _).trans (if_neg hr)
      · intro _ hcheck
        rw [hk] at hcheck
        exact absurd hcheck (by decide)
  | checked r srv deploy orders hk hrid hsrv hdeploy hdiffer horders =>
    rw [storeAll_write _ _ _ horders]
    by_cases hr : rid = r
    · subst hr
      exact .checked srv deploy hk hrid hsrv hdeploy hdiffer
        ((enter_lookup s.dc rid _ rid).trans (if_pos rfl))
        ((find_insert s.db_mgr rid rid _).trans (if_pos rfl))
    · apply Consumed.kept
      · exact (enter_lookup s.dc r _ rid).trans (if_neg hr)
      · exact (find_insert s.db_mgr r rid _).trans (if_neg hr)
      · intro hrid'
        rw [hrid] at hrid'
        exact absurd (Option.some.inj hrid').symm hr

theorem consume_index (s : Db) (k : Bytes) (v : CJson) (draws : List Draw) :
    (step s (.consume k v draws)).1.dc.index = s.dc.index ∧
      (step s (.consume k v draws)).1.calls = s.calls := by
  unfold step
  dsimp only
  have hturn := deal_turn s.dc draws k v
  generalize deal s.dc draws k v = r at hturn
  obtain ⟨dc, os⟩ := r
  dsimp only at hturn ⊢
  cases hturn with
  | quiet hsrvs hindex hos hsame => exact ⟨hindex, rfl⟩
  | answered hk => exact ⟨rfl, rfl⟩
  | entered r ips uuid hk hnew hmine => exact ⟨rfl, rfl⟩
  | activated r active_code srv hk hrid hcode hsrv => exact ⟨rfl, rfl⟩
  | checked r srv deploy orders hk hrid hsrv hdeploy hdiffer horders => exact ⟨rfl, rfl⟩

/-! ## One server -/

/-- A server of the first group with a code, as the database has it. -/
def oneSrv : Srv := ⟨[], [], some [99], some ∅, none, none⟩

def oneRid : Bytes := [48, 49, 114]

/-- The control of the group starts. -/
def oneDb : Db := start 1 (AList.singleton oneRid oneSrv) ∅ []

/-- The server sends its code. -/
def sendsCode : Event :=
  .consume (text "auth") (obj [("rid", .string oneRid), ("active_code", .string [99])]) []

/-- The server reports the version of a module. -/
def reports : Event :=
  .consume (text "check_update") (obj [("rid", .string oneRid), ("project", .string [112]),
  ("module", .string [109]), ("version", .string [49]), ("hash", .string [104])]) []

end py.server_db
