-- The deploy control: it issues resource ids, keeps the activation code of each
-- server, and answers whether a code is the one it keeps. An exception in a handler
-- is caught and logged, so it leaves the servers as they are and sends nothing.
import Aods.Json
import Aods.Helper
import Aods.StdMap

open machine std_map
open util.helper util.json

namespace py.deploy_ctrl

/-- An entry of `srvs`. The key `active_code` comes with the activation. -/
structure Srv where
  ip : Bytes
  flag : Bytes
  active_code : Option Bytes
  deriving DecidableEq, Repr

/-- The control of one segment, whose index is the hex text of a byte. -/
structure DeployCtrl where
  index : Bytes
  srvs : StdMap Srv
  index_hex : ∃ b, index = getHexString [b]

/-- `__init__`, with the servers of the database. -/
def init (index : Int) (srvs : StdMap Srv) : DeployCtrl where
  index := getHexString [uchar (index % 255)]
  srvs := srvs
  index_hex := ⟨_, rfl⟩

/-! ## Python values -/

/-- The value of a key of a dict, the last one where a document repeats it. -/
def dictGet (value : CJson) (key : String) : Option CJson :=
  match value with
  | .object members => (members.reverse.find? (fun m => m.1 = text key)).map (·.2)
  | _ => none

/-- The value of a key where it is a text. aodc sends texts. -/
def getText (value : CJson) (key : String) : Option Bytes :=
  match dictGet value key with
  | some (.string s) => some s
  | _ => none

/-- `bytes([n])` of a number. -/
def byteOf : CJson → Option UInt8
  | .number n => if 0 ≤ n ∧ n < 256 then some (uchar n) else none
  | _ => none

/-- The texts of a list. -/
def textsOf : CJson → Option (List Bytes)
  | .array items => items.mapM (fun i => match i with | .string s => some s | _ => none)
  | _ => none

/-! ## The handlers -/

/-- Five random bytes from 1 to 255. -/
abbrev Draw := { d : Bytes // d.length = 5 ∧ 0 ∉ d }

/-- The loop of `__generalRid` over its random draws: the first one that is not taken. -/
def generalRid (dc : DeployCtrl) (draws : List Draw) : Option Bytes :=
  (draws.map (fun d => dc.index ++ getHexString d.1)).find? (fun rid => dc.srvs.lookup rid = none)

def activeAck (uuid : CJson) (rid : Bytes) : CJson :=
  obj [("active_ack", obj [("uuid", uuid), ("rid", .string rid), ("ack", .number 0)])]

def authAck (rid : Bytes) (ack : Int) : CJson :=
  obj [("auth_ack", obj [("rid", .string rid), ("ack", .number ack)])]

/-- The message that tells of an activation. -/
def activeSuc (rid active_code : Bytes) : CJson :=
  obj [("active_suc", obj [("active_code", .string active_code), ("rid", .string rid)])]

/-- The message that asks whether a code is the one that is kept. -/
def auth (rid active_code : Bytes) : CJson :=
  obj [("auth", obj [("active_code", .string active_code), ("rid", .string rid)])]

def dealActive (dc : DeployCtrl) (value : CJson) (draws : List Draw) : DeployCtrl × List CJson :=
  match byteOf ((dictGet value "index").getD (.number 0)) with
  | none => (dc, [])
  | some index =>
    if dc.index ≠ getHexString [index] then (dc, [])
    else
      match generalRid dc draws, textsOf ((dictGet value "ip").getD (.array [])) with
      | some rid, some ip =>
        let ips := [44].intercalate ip
        ({ dc with srvs := dc.srvs.insert rid ⟨ips, ips, none⟩ },
          [activeAck ((dictGet value "uuid").getD (.string [])) rid])
      | _, _ => (dc, [])

def dealActiveSuc (dc : DeployCtrl) (value : CJson) : DeployCtrl :=
  match getText value "rid", getText value "active_code" with
  | some rid, some active_code =>
    match dc.srvs.lookup rid with
    | none => dc
    | some srv =>
      { dc with srvs := dc.srvs.insert rid { srv with active_code := some active_code } }
  | _, _ => dc

def dealAuthen (dc : DeployCtrl) (value : CJson) : List CJson :=
  match getText value "rid" with
  | none => []
  | some rid =>
    if rid.take 2 ≠ dc.index then []
    else
      match dc.srvs.lookup rid with
      | none => [authAck rid 1]
      | some srv =>
        -- a server without a code raises a `KeyError`
        match srv.active_code with
        | none => []
        | some active_code =>
          if getText value "active_code" ≠ some active_code then [authAck rid 1]
          else [authAck rid 0]

/-- `OnConsume`, for a message of one kind. The other kinds leave the codes alone. -/
def onConsume (dc : DeployCtrl) (doc : CJson) (draws : List Draw) : DeployCtrl × List CJson :=
  match dictGet doc "active", dictGet doc "active_suc", dictGet doc "auth" with
  | some value, _, _ => dealActive dc value draws
  | none, some value, _ => (dealActiveSuc dc value, [])
  | none, none, some value => (dc, dealAuthen dc value)
  | none, none, none => (dc, [])

/-- The code that is kept for a resource id. -/
def stored (dc : DeployCtrl) (rid : Bytes) : Option Bytes :=
  (dc.srvs.lookup rid).bind (·.active_code)

/-- The resource id that an answer to an activation gives out. -/
def ackOf (doc : CJson) : Option Bytes :=
  (dictGet doc "active_ack").bind (fun value => getText value "rid")

/-- The resource id whose activation a message tells of. -/
def sucOf (doc : CJson) : Option Bytes :=
  (dictGet doc "active_suc").bind (fun value => getText value "rid")

/-! ## The laws -/

/-- A resource id that is issued begins with the index, is a new one, and is the hex text of
six bytes. -/
theorem generalRid_some {dc : DeployCtrl} {draws : List Draw} {rid : Bytes}
    (h : generalRid dc draws = some rid) :
    dc.srvs.lookup rid = none ∧ rid.take 2 = dc.index ∧
      ∃ bytes : Arr 6, rid = getHexString bytes.1 := by
  have hnew := List.find?_some h
  obtain ⟨d, _, hd⟩ := List.mem_map.mp (List.mem_of_find?_eq_some h)
  obtain ⟨b, hb⟩ := dc.index_hex
  have hlen : dc.index.length = 2 := by simp [hb]
  refine ⟨of_decide_eq_true hnew, ?_, ⟨b :: d.1, by rw [List.length_cons, d.2.1]⟩, ?_⟩
  · rw [← hd, ← hlen]
    exact List.take_left ..
  · rw [← hd, hb]
    rfl

/-- A request is answered and the server is entered, without a code, or nothing happens. -/
theorem dealActive_cases (dc : DeployCtrl) (value : CJson) (draws : List Draw) :
    (∃ rid srv uuid, generalRid dc draws = some rid ∧ srv.active_code = none ∧
      dealActive dc value draws =
        ({ dc with srvs := dc.srvs.insert rid srv }, [activeAck uuid rid])) ∨
    dealActive dc value draws = (dc, []) := by
  unfold dealActive
  split
  · exact Or.inr rfl
  split
  · exact Or.inr rfl
  split
  · rename_i rid ip hrid _
    exact Or.inl ⟨rid, _, _, hrid, rfl, rfl⟩
  · exact Or.inr rfl

theorem dealAuthen_stored {dc : DeployCtrl} {value : CJson} {rid active_code : Bytes}
    (hrid : getText value "rid" = some rid) (hmine : rid.take 2 = dc.index)
    (hstored : stored dc rid = some active_code) :
    dealAuthen dc value =
      [authAck rid (if getText value "active_code" = some active_code then 0 else 1)] := by
  obtain ⟨srv, hsrv, hcode⟩ := Option.bind_eq_some_iff.mp hstored
  simp only [dealAuthen, hrid, hmine, hsrv, hcode, not_true_eq_false, if_false, ne_eq]
  by_cases h : getText value "active_code" = some active_code
  · simp [h]
  · simp [h]

theorem dealAuthen_acks (dc : DeployCtrl) (value : CJson) :
    ∀ doc ∈ dealAuthen dc value, ∃ rid ack, doc = authAck rid ack := by
  intro doc hdoc
  unfold dealAuthen at hdoc
  split at hdoc
  · cases hdoc
  split at hdoc
  · cases hdoc
  split at hdoc
  · exact ⟨_, _, List.mem_singleton.mp hdoc⟩
  split at hdoc
  · cases hdoc
  split at hdoc
  · exact ⟨_, _, List.mem_singleton.mp hdoc⟩
  · exact ⟨_, _, List.mem_singleton.mp hdoc⟩

theorem dealActiveSuc_cases (dc : DeployCtrl) (value : CJson) :
    (∃ rid srv code, getText value "rid" = some rid ∧ dc.srvs.lookup rid = some srv ∧
      dealActiveSuc dc value =
        { dc with srvs := dc.srvs.insert rid { srv with active_code := some code } }) ∨
    dealActiveSuc dc value = dc := by
  unfold dealActiveSuc
  split
  · rename_i rid code hrid _
    split
    · exact Or.inr rfl
    · rename_i srv hsrv
      exact Or.inl ⟨rid, srv, code, hrid, hsrv, rfl⟩
  · exact Or.inr rfl

/-- A message to the control issues a new resource id, stores a code, or changes nothing. -/
theorem onConsume_cases (dc : DeployCtrl) (doc : CJson) (draws : List Draw) :
    (∃ rid srv uuid, generalRid dc draws = some rid ∧ srv.active_code = none ∧
      onConsume dc doc draws = ({ dc with srvs := dc.srvs.insert rid srv }, [activeAck uuid rid])) ∨
    (∃ rid srv code, sucOf doc = some rid ∧ dc.srvs.lookup rid = some srv ∧
      onConsume dc doc draws =
        ({ dc with srvs := dc.srvs.insert rid { srv with active_code := some code } }, [])) ∨
    ((onConsume dc doc draws).1 = dc ∧
      ∀ d ∈ (onConsume dc doc draws).2, ∃ rid ack, d = authAck rid ack) := by
  have hnone : ∀ d ∈ ([] : List CJson), ∃ rid ack, d = authAck rid ack := by simp
  unfold onConsume
  split
  · rename_i value hactive
    rcases dealActive_cases dc value draws with h | h
    · exact Or.inl h
    · rw [h]
      exact Or.inr (Or.inr ⟨rfl, hnone⟩)
  · rename_i value _ hsuc
    rcases dealActiveSuc_cases dc value with ⟨rid, srv, code, hrid, hsrv, h⟩ | h
    · refine Or.inr (Or.inl ⟨rid, srv, code, ?_, hsrv, by rw [h]⟩)
      rw [sucOf, hsuc]
      exact hrid
    · rw [h]
      exact Or.inr (Or.inr ⟨rfl, hnone⟩)
  · exact Or.inr (Or.inr ⟨rfl, dealAuthen_acks dc _⟩)
  · exact Or.inr (Or.inr ⟨rfl, hnone⟩)

/-! ## The messages of aodc -/

theorem sucOf_activeSuc (rid active_code : Bytes) :
    sucOf (activeSuc rid active_code) = some rid := by
  simp [sucOf, activeSuc, dictGet, getText, obj, text]

theorem sucOf_auth (rid active_code : Bytes) : sucOf (auth rid active_code) = none := by
  simp [sucOf, auth, dictGet, obj, text]

theorem ackOf_activeAck (uuid : CJson) (rid : Bytes) : ackOf (activeAck uuid rid) = some rid := by
  simp [ackOf, activeAck, dictGet, getText, obj, text]

theorem ackOf_authAck (rid : Bytes) (ack : Int) : ackOf (authAck rid ack) = none := by
  simp [ackOf, authAck, dictGet, obj, text]

theorem onConsume_activeSuc {dc : DeployCtrl} {rid : Bytes} {srv : Srv}
    (hsrv : dc.srvs.lookup rid = some srv) (active_code : Bytes) (draws : List Draw) :
    onConsume dc (activeSuc rid active_code) draws =
      ({ dc with srvs := dc.srvs.insert rid { srv with active_code := some active_code } },
        []) := by
  simp [onConsume, dealActiveSuc, activeSuc, dictGet, getText, obj, text, hsrv]

theorem stored_insert (dc : DeployCtrl) (rid : Bytes) (srv : Srv) (r : Bytes) :
    stored { dc with srvs := dc.srvs.insert rid srv } r =
      if r = rid then srv.active_code else stored dc r := by
  unfold stored
  dsimp only
  rw [find_insert]
  split
  · rfl
  · rfl

end py.deploy_ctrl
