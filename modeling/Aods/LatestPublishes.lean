-- What the queries keep of the publishes of one version, which stand in `db_pub` under one key for
-- each group: `queryModuleInfo` for the list of a module, and the dialog of a version, which
-- publishes again what it keeps. The law says in which orders of the keys each keeps the latest
-- publish.
import Aods.CompositeKeys
import Aods.Latest

open machine std_map glob latest
open util.json (text)
open py.clock py.deploy_db py.db_engine py.composite_keys

namespace py.latest_publishes

/-! ## The dialog -/

/-- `PublishDetailDlg`, with what its members are after the last `__updateData`. -/
structure PublishDetailDlg where
  prj : Bytes
  module : Bytes
  version : Bytes
  hash : Option Bytes
  code : Option Bytes
  url : Option Bytes
  detailLatest : Option Bytes
  gids : List Nat
  detail : Bytes

/-- The variables of the loop of `__updateData`. -/
structure Turn where
  dtLatest : Option Bytes
  totalUpdateInfo : Option Bytes
  dlg : PublishDetailDlg

/-- 'group %s updated by %s at %s'. -/
def updateInfo (gid : Nat) (p : Published) : Bytes :=
  text "group " ++ text (Nat.repr gid) ++ text " updated by " ++ p.usr ++ text " at " ++ p.dt

/-- A turn of the loop. What is published for the group goes into the dialog, the detail only if it
is later. -/
def Turn.next (t : Turn) (r : Nat × Published) : Turn :=
  let later := t.dtLatest.getD [] = [] ∨ t.dtLatest.getD [] < r.2.dt
  { dtLatest := if later then some r.2.dt else t.dtLatest
    totalUpdateInfo :=
      if t.totalUpdateInfo.getD [] = [] then some (updateInfo r.1 r.2)
      else some (t.totalUpdateInfo.getD [] ++ text "\r\n" ++ updateInfo r.1 r.2)
    dlg := { t.dlg with
      detailLatest := if later then some r.2.detail else t.dlg.detailLatest
      gids := t.dlg.gids ++ [r.1]
      hash := some r.2.hash
      code := some r.2.code
      url := some r.2.url } }

/-- No two keys have records of one time. -/
def DistinctTimes (db_pub : StdMap Published) : Prop :=
  ∀ key key' p p', db_pub.lookup key = some p → db_pub.lookup key' = some p' →
    p.dt = p'.dt → key = key'

/-- The group and the record of a key, if it is one of the version. -/
def recordOf (db_pub : StdMap Published) (ver key : Bytes) : Option (Bytes × Published) :=
  match fourOf key, db_pub.lookup key with
  | some (gid, _, _, v), some p => if v = ver then some (gid, p) else none
  | _, _ => none

/-- The records of a version, in the order of the keys. -/
def recordsOf (db_pub : StdMap Published) (found : List Bytes) (ver : Bytes) :
    List (Bytes × Published) :=
  found.filterMap (recordOf db_pub ver)

/-- A record with the greatest time. -/
structure LatestOf (rs : List (Bytes × Published)) (p : Published) : Prop where
  mem : p ∈ rs.map (·.2)
  le : ∀ r ∈ rs, r.2.dt ≤ p.dt

variable {db_pub : StdMap Published} {found : List Bytes} {ver : Bytes}
  {rs : List (Bytes × Published)} {p q : Published}

/-! ## Loops that raise -/

theorem recordOf_some {key : Bytes} {r : Bytes × Published} (h : recordOf db_pub ver key = some r) :
    (∃ prj module, fourOf key = some (r.1, prj, module, ver)) ∧ db_pub.lookup key = some r.2 := by
  unfold recordOf at h
  split at h
  · rename_i gid prj module v p hfour hp
    split at h
    · rename_i hv
      cases h
      rw [hv] at hfour
      exact ⟨⟨prj, module, hfour⟩, hp⟩
    · cases h
  · cases h

theorem mem_recordsOf {r : Bytes × Published} (h : r ∈ recordsOf db_pub found ver) :
    ∃ key ∈ found, db_pub.lookup key = some r.2 := by
  obtain ⟨key, hkey, hr⟩ := List.mem_filterMap.mp h
  exact ⟨key, hkey, (recordOf_some hr).2⟩

theorem LatestOf.unique (hdistinct : DistinctTimes db_pub)
    (hp : LatestOf (recordsOf db_pub found ver) p) (hq : LatestOf (recordsOf db_pub found ver) q) :
    p = q := by
  obtain ⟨r, hr, rfl⟩ := List.mem_map.mp hp.mem
  obtain ⟨s, hs, rfl⟩ := List.mem_map.mp hq.mem
  obtain ⟨key, _, hkey⟩ := mem_recordsOf hr
  obtain ⟨key', _, hkey'⟩ := mem_recordsOf hs
  have hsame := hdistinct key key' r.2 s.2 hkey hkey' (le_antisymm (hq.le r hr) (hp.le s hs))
  rw [hsame, hkey'] at hkey
  exact (Option.some.inj hkey).symm

theorem LatestOf.ne_nil (hp : LatestOf rs p) : rs ≠ [] := by
  intro h
  have hmem := hp.mem
  rw [h] at hmem
  cases hmem

/-! ## The list of a module -/

/-- What the list has for a version after one more record. -/
def addRecord (info : Option VersionInfo) (r : Bytes × Published) : Option VersionInfo :=
  match info with
  | none => some ⟨r.2.dt, r.1, r.2.hash, r.2.url, r.2.detail, r.2.usr⟩
  | some i => some (i.merge r.2.dt r.1)

/-- The list has this for each version, and nothing else. -/
def Lists (vis : List (Bytes × VersionInfo)) (rs : Bytes → List (Bytes × Published)) : Prop :=
  ∀ v info, (v, info) ∈ vis ↔ (rs v).foldl addRecord none = some info

variable {vis : List (Bytes × VersionInfo)} {done : List Bytes} {key w : Bytes}
  {r : Bytes × Published}

theorem Lists.merged {rs rs' : Bytes → List (Bytes × Published)} (h : Lists vis rs)
    (hmem : w ∈ vis.map (·.1))
    (hrs : ∀ v, (rs' v).foldl addRecord none =
      if w = v then addRecord ((rs v).foldl addRecord none) r else (rs v).foldl addRecord none) :
    Lists (vis.map (fun e => if e.1 = w then (w, e.2.merge r.2.dt r.1) else e)) rs' := by
  intro v info
  rw [hrs, List.mem_map]
  by_cases hv : w = v
  · subst hv
    rw [if_pos rfl]
    obtain ⟨⟨w', old⟩, hold, rfl⟩ := List.mem_map.mp hmem
    have hsum := (h w' old).mp hold
    rw [hsum]
    constructor
    · rintro ⟨⟨v, info'⟩, he, heq⟩
      dsimp only at heq
      split at heq
      · rename_i hv
        subst hv
        have hsame := (h v info').mp he
        rw [hsum] at hsame
        cases hsame
        cases heq
        rfl
      · rename_i hv
        cases heq
        exact absurd rfl hv
    · intro h
      cases h
      exact ⟨(w', old), hold, if_pos rfl⟩
  · rw [if_neg hv, ← h]
    constructor
    · rintro ⟨⟨v', info'⟩, he, heq⟩
      dsimp only at heq
      split at heq
      · cases heq
        exact absurd rfl hv
      · cases heq
        exact he
    · intro he
      exact ⟨(v, info), he, if_neg (fun h => hv h.symm)⟩

theorem Lists.appended {rs rs' : Bytes → List (Bytes × Published)} (h : Lists vis rs)
    (hmem : w ∉ vis.map (·.1))
    (hrs : ∀ v, (rs' v).foldl addRecord none =
      if w = v then addRecord ((rs v).foldl addRecord none) r else (rs v).foldl addRecord none) :
    Lists (vis ++ [(w, ⟨r.2.dt, r.1, r.2.hash, r.2.url, r.2.detail, r.2.usr⟩)]) rs' := by
  intro v info
  rw [hrs, List.mem_append, List.mem_singleton, h]
  by_cases hv : w = v
  · subst hv
    have hnone : (rs w).foldl addRecord none = none := by
      rw [Option.eq_none_iff_forall_ne_some]
      intro old hold
      exact hmem (List.mem_map.mpr ⟨(w, old), (h w old).mpr hold, rfl⟩)
    rw [if_pos rfl, hnone]
    simp [addRecord, eq_comm]
  · rw [if_neg hv]
    simp [Ne.symm hv]

variable {g : Bytes → Bytes → Bool} {keys : List Bytes} {prj module : Bytes}

/-- Of two records the dialog keeps the detail of the later one, and of the second where the first
has no time. -/
def keepLater (kept : Option Published) (p : Published) : Option Published :=
  match kept with
  | none => some p
  | some q => if q.dt = [] ∨ q.dt < p.dt then some p else some q

/-- What the loop has after some records. -/
structure Shows (dlg : PublishDetailDlg) (t : Turn) (done : List (Nat × Published)) : Prop where
  dtLatest : t.dtLatest = ((done.map (·.2)).foldl keepLater none).map (·.dt)
  detailLatest : t.dlg.detailLatest = ((done.map (·.2)).foldl keepLater none).map (·.detail)
  gids : t.dlg.gids = done.map (·.1)
  last : ∀ r ∈ (done.map (·.2)).getLast?,
    t.dlg.hash = some r.hash ∧ t.dlg.code = some r.code ∧ t.dlg.url = some r.url
  names : t.dlg.prj = dlg.prj ∧ t.dlg.module = dlg.module ∧ t.dlg.version = dlg.version

def group1 : Key := ⟨1, [112], [109], [49]⟩

def group2 : Key := ⟨2, [112], [109], [49]⟩

def older : Published := ⟨[97], [99], [117], [49], [100], [114]⟩

def newer : Published := ⟨[98], [99], [117], [50], [101], [114]⟩

/-- The version "1" is published for one group, and later, with another hash, for another. -/
def twoGroups : StdMap Published :=
  ((∅ : StdMap Published).insert group1.text older).insert group2.text newer

end py.latest_publishes
