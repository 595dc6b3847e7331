-- `DbEngine` of the REST service, which shares the databases with `DeployCtrl`: it publishes
-- packages to groups of servers, and it edits and deletes the servers.
import Aods.DeployDb

open machine std_map
open util.helper util.json
open py.clock py.deploy_db
open py.deploy_ctrl (dictGet getText)

namespace py.db_engine

/-! ## Publishing -/

/-- The arguments of `publish`, with the numbers of the groups. -/
structure Publishing where
  prj : Bytes
  module : Bytes
  ver : Bytes
  gids : List UInt8
  detail : Bytes
  code : Bytes
  hash : Bytes
  url : Bytes
  usr : Bytes

/-- A message of the topic `publish`. -/
structure Publication where
  indexes : List Int
  project : Bytes
  module : Bytes
  version : Bytes
  hash : Bytes
  code : Bytes
  url : Bytes
  datetime : Bytes
  deriving DecidableEq

/-- The value of its member "publish". -/
def Publication.value (p : Publication) : CJson :=
  obj [("indexes", .array (p.indexes.map .number)), ("project", .string p.project),
    ("module", .string p.module),
    ("version", .string p.version), ("hash", .string p.hash), ("code", .string p.code),
      ("url", .string p.url),
    ("datetime", .string p.datetime)]

/-- The key of `db_pub`. -/
def pubKey (gid : UInt8) (prj module ver : Bytes) : Bytes :=
  getHexString [gid] ++ 35 :: (prj ++ 35 :: (module ++ 35 :: ver))

/-- `publish`, where Redis takes all values: `db_pub` and the message. What it logs is left out. -/
def publish (now : Now) (c : Publishing) (db_pub : StdMap Published) :
    StdMap Published × Publication :=
  let dt := strftime now
  (c.gids.foldl (fun db gid => db.insert (pubKey gid c.prj c.module c.ver)
    ⟨c.hash, c.code, c.url, dt, c.detail, c.usr⟩)
    db_pub, ⟨c.gids.map (fun gid => gid.toNat), c.prj, c.module, c.ver, c.hash, c.code, c.url, dt⟩)

/-! ## Servers -/

/-- What `updateServer` gets of a server. -/
structure ServerInfo where
  rid : Bytes
  flag : Option Bytes
  location : Option Bytes
  ma : Option Bytes
  deriving DecidableEq

/-- The server that `updateServer` sets. Without a flag there is a `KeyError`. -/
def updated (si : ServerInfo) (srv : Srv) : Option Srv :=
  si.flag.map
    (fun flag =>
      { srv with flag := flag, location := some (si.location.getD []), ma := some (si.ma.getD []) })

/-! ## What a message of the topic does -/

/-- The groups of a message, as `DeployCtrl` counts them. -/
def Publication.groups (p : Publication) : List Bytes :=
  p.indexes.map (fun index => getHexString [uchar (index % 255)])

/-- The entry of a message in the table. -/
def Publication.entry (p : Publication) : Entry :=
  ⟨some p.version, some p.hash, some p.code, some p.url, some p.datetime, none, none⟩

def Publication.key (p : Publication) (dc : DeployCtrl) : Bytes :=
  dc.prjModule2Key (some p.project) (some p.module)

/-- The order of a message for a server. -/
def Publication.order (p : Publication) (rid : Bytes) : UpdateMsg :=
  ⟨rid, some p.project, some p.module, some p.version, some p.hash, some p.url, some p.code⟩

theorem intsOf_numbers (ns : List Int) : intsOf (.array (ns.map .number)) = some ns := by
  unfold intsOf
  induction ns with
  | nil => rfl
  | cons n ns ih =>
    dsimp only at ih ⊢
    rw [List.map_cons, List.mapM_cons, ih]
    rfl

/-- The time of an entry. -/
def stamp (e : Entry) : Bytes := e.dt.getD []

theorem ignored_iff (kept : Option Entry) (p : Publication) :
    ignored kept (some p.datetime) = true ↔ ∃ e, kept = some e ∧ p.datetime < stamp e := by
  cases kept with
  | none => simp [ignored]
  | some e =>
    obtain ⟨_, _, _, _, dt, _, _⟩ := e
    cases dt with
    | none => simp [ignored, stamp]
    | some dt =>
      by_cases hnil : dt = []
      · simp [ignored, stamp, hnil]
      · simp [ignored, stamp, hnil]

/-- What a message does, from its own members. -/
theorem dealPublish_members (dc : DeployCtrl) (p : Publication) :
    dealPublish dc p.value =
      if dc.index ∉ p.groups then (dc, [])
      else if ignored (dc.publish.lookup (p.key dc)) (some p.datetime) then (dc, [])
      else ({ dc with publish := dc.publish.insert (p.key dc) p.entry },
        dc.srvs.keys.map (fun rid => .produce (.update (p.order rid)))) := by
  have hindexes : (dictGet p.value "indexes").getD (.array []) =
      .array (p.indexes.map .number) := by
    simp [Publication.value, dictGet, obj, text]
  have hproject : getText p.value "project" = some p.project := by
    simp [Publication.value, getText, dictGet, obj, text]
  have hmodule : getText p.value "module" = some p.module := by
    simp [Publication.value, getText, dictGet, obj, text]
  have hversion : getText p.value "version" = some p.version := by
    simp [Publication.value, getText, dictGet, obj, text]
  have hhash : getText p.value "hash" = some p.hash := by
    simp [Publication.value, getText, dictGet, obj, text]
  have hcode : getText p.value "code" = some p.code := by
    simp [Publication.value, getText, dictGet, obj, text]
  have hurl : getText p.value "url" = some p.url := by
    simp [Publication.value, getText, dictGet, obj, text]
  have hdatetime : getText p.value "datetime" = some p.datetime := by
    simp [Publication.value, getText, dictGet, obj, text]
  have hdetail : getText p.value "detail" = none := by
    simp [Publication.value, getText, dictGet, obj, text]
  have huser : getText p.value "user" = none := by
    simp [Publication.value, getText, dictGet, obj, text]
  unfold dealPublish
  rw [hindexes, intsOf_numbers, hproject, hmodule, hversion, hhash, hcode, hurl, hdatetime, hdetail,
    huser]
  rfl

theorem dealPublish_value (dc : DeployCtrl) (p : Publication) (h : dc.index ∈ p.groups) :
    dealPublish dc p.value =
      if ignored (dc.publish.lookup (p.key dc)) (some p.datetime) then (dc, [])
      else ({ dc with publish := dc.publish.insert (p.key dc) p.entry },
        dc.srvs.keys.map (fun rid => .produce (.update (p.order rid)))) := by
  rw [dealPublish_members, if_neg (not_not.mpr h)]

theorem dealPublish_other (dc : DeployCtrl) (p : Publication) (h : dc.index ∉ p.groups) :
    dealPublish dc p.value = (dc, []) := by
  rw [dealPublish_members, if_pos h]

end py.db_engine
