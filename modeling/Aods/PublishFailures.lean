-- `publish` of the REST service where calls of Redis and of Kafka fail. It writes group after
-- group, reads the servers in between and announces all at the end, and takes nothing back. The law
-- says just when it does all or nothing.
import Aods.DbEngine
import Mathlib.Data.List.Induction

open machine std_map
open util.helper util.json
open py.clock py.deploy_db
open py.deploy_ctrl (dictGet)
open py.db_engine (Publication)

namespace py.publish_failures

/-! ## The function -/

/-- The arguments. A group is any number. -/
structure Args where
  prj : Bytes
  module : Bytes
  ver : Bytes
  gids : List Int
  detail : Bytes
  code : Bytes
  hash : Bytes
  url : Bytes
  usr : Bytes

/-- The servers and their keys as Redis lists them, the time of the call and the times of its steps,
`loads` behind `decode`, the keys that `decode` takes, and the calls of Redis and of Kafka that
raise an exception, by their number. -/
structure Outside where
  db_mgr : StdMap Bytes
  keys : List Bytes
  now : Now
  clock : Nat → Now
  loads : Bytes → Option CJson
  decodes : Bytes → Bool
  raises : Nat → Bool

/-- What was done: the number of calls, the databases, and the messages. -/
structure Run where
  calls : Nat
  db_pub : StdMap Published
  db_log : StdMap Bytes
  produced : List Publication

/-- "%02x". -/
def hex02 (n : Int) : Bytes :=
  let digits := (Nat.toDigits 16 n.natAbs).map (fun c => UInt8.ofNat c.toNat)
  if n < 0 then 45 :: digits else if n < 16 then 48 :: digits else digits

def Args.key (a : Args) (gid : Int) : Bytes :=
  hex02 gid ++ 35 :: (a.prj ++ 35 :: (a.module ++ 35 :: a.ver))

def Args.pmk (a : Args) (gid : Int) : Bytes := hex02 gid ++ 35 :: (a.prj ++ 35 :: a.module)

def Args.logKey (a : Args) (rid : Bytes) : Bytes :=
  rid ++ 35 :: (a.prj ++ 35 :: (a.module ++ 35 :: a.ver))

def record (a : Args) (x : Outside) : Published :=
  ⟨a.hash, a.code, a.url, strftime x.now, a.detail, a.usr⟩

def message (a : Args) (x : Outside) : Publication :=
  ⟨a.gids, a.prj, a.module, a.ver, a.hash, a.code, a.url, strftime x.now⟩

/-- "准备更新#", of an update that is prepared. -/
def preparing : Bytes :=
  [0xe5, 0x87, 0x86, 0xe5, 0xa4, 0x87, 0xe6, 0x9b, 0xb4, 0xe6, 0x96, 0xb0, 35]

/-- A call of Redis. An exception leaves what was done before. -/
def call (x : Outside) (f : Run → Run) (s : Run) : Except Run Run :=
  if x.raises s.calls then .error s else .ok { f s with calls := s.calls + 1 }

def setPub (a : Args) (x : Outside) (gid : Int) (s : Run) : Run :=
  { s with db_pub := s.db_pub.insert (a.key gid) (record a x) }

def setLog (a : Args) (x : Outside) (rid : Bytes) (s : Run) : Run :=
  { s with db_log := s.db_log.insert (a.logKey rid) (preparing ++ strftime (x.clock s.calls)) }

/-- `pmk in srv.get("deploy", {})` of a server. A server that is no dict, or a `deploy` that holds
nothing, raises an exception. -/
def inDeploy (x : Outside) (pmk rid : Bytes) : Option Bool :=
  match (x.db_mgr.lookup rid).bind x.loads with
  | some (.object members) =>
    match dictGet (.object members) "deploy" with
    | none => some false
    | some (.object deploy) => some (deploy.any (fun m => m.1 = pmk))
    | some (.array items) =>
      some (items.any (fun i => match i with | .string s => s = pmk | _ => false))
    | some (.string s) => some (strstr s pmk)
    | some _ => none
  | _ => none

/-- The keys of `db_mgr` for "%02x*". -/
def mgrKeys (x : Outside) (gid : Int) : List Bytes :=
  x.keys.filter (fun key => (hex02 gid).isPrefixOf key)

/-- A turn of the loop over the servers of a group. -/
def publishServer (a : Args) (x : Outside) (gid : Int) (s : Run) (rid : Bytes) :
    Except Run Run := do
  let s ← call x id s
  match inDeploy x (a.pmk gid) rid with
  | none => .error s
  | some true => if x.decodes rid then call x (setLog a x rid) s else .error s
  | some false => .ok s

/-- A turn of the loop over the groups. `set` without a condition gives `True`. -/
def publishGroup (a : Args) (x : Outside) (s : Run) (gid : Int) : Except Run Run := do
  let s ← call x (setPub a x gid) s
  let s ← call x id s
  (mgrKeys x gid).foldlM (publishServer a x gid) s

/-- The loop of `Produce`: it sends up to three times, each time but the first by a new producer. No
exception leaves it, and what it returns is not asked for. -/
def produce (x : Outside) (p : Publication) : Nat → Run → Run
  | 0, s => s
  | n + 1, s =>
    if !x.raises s.calls then { s with calls := s.calls + 1, produced := s.produced ++ [p] }
    else if x.raises (s.calls + 1) then { s with calls := s.calls + 2 }
    else produce x p n { s with calls := s.calls + 2 }

/-- What `publish` returns: "success", its list with the text of an exception, or an exception. -/
inductive Result where
  | success
  | failed
  | raised
  deriving DecidableEq

/-- `publish`. -/
def publish (a : Args) (x : Outside) (db_pub : StdMap Published) (db_log : StdMap Bytes) :
    Result × Run :=
  match a.gids.foldlM (publishGroup a x) ⟨0, db_pub, db_log, []⟩ with
  | .ok s => (.success, produce x (message a x) 3 s)
  -- `','.join(gids)` of numbers raises a `TypeError` in the handler
  | .error s => (if a.gids = [] then .failed else .raised, s)

/-- A success has all groups stored and one message of all, and anything else has changed and sent
nothing. -/
structure AllOrNothing (a : Args) (x : Outside) (db_pub : StdMap Published) (db_log : StdMap Bytes)
    (r : Result × Run) :
    Prop where
  stored : r.1 = .success → ∀ gid ∈ a.gids, r.2.db_pub.lookup (a.key gid) = some (record a x)
  announced : r.1 = .success → r.2.produced = [message a x]
  pub_same : r.1 ≠ .success → ∀ k, r.2.db_pub.lookup k = db_pub.lookup k
  log_same : r.1 ≠ .success → ∀ k, r.2.db_log.lookup k = db_log.lookup k
  silent : r.1 ≠ .success → r.2.produced = []

/-! ## Its calls one after another -/

/-- A point of the loops: a call that writes, one that reads, or a server or a key that cannot be
decoded. -/
inductive Point where
  | set_pub (gid : Int)
  | read
  | set_log (rid : Bytes)
  | broken

def serverScript (a : Args) (x : Outside) (gid : Int) (rid : Bytes) : List Point :=
  .read :: match inDeploy x (a.pmk gid) rid with
    | none => [.broken]
    | some true => if x.decodes rid then [.set_log rid] else [.broken]
    | some false => []

def groupScript (a : Args) (x : Outside) (gid : Int) : List Point :=
  .set_pub gid :: .read :: (mgrKeys x gid).flatMap (serverScript a x gid)

/-- All points, in their order. -/
def script (a : Args) (x : Outside) : List Point := a.gids.flatMap (groupScript a x)

/-- A point raises an exception. -/
def stops (x : Outside) (n : Nat) : Point → Bool
  | .broken => true
  | _ => x.raises n

/-- No point does, from the call `n` on. -/
def through (x : Outside) : Nat → List Point → Bool
  | _, [] => true
  | n, p :: ps => !stops x n p && through x (n + 1) ps

/-- The points in front of the first one that does. -/
def before (x : Outside) : Nat → List Point → List Point
  | _, [] => []
  | n, p :: ps => if stops x n p then [] else p :: before x (n + 1) ps

/-- What points write to `db_pub`. -/
def pubWrites (a : Args) (x : Outside) (ps : List Point) : List (Bytes × Published) :=
  ps.filterMap (fun p => match p with | .set_pub gid => some (a.key gid, record a x) | _ => none)

/-- What they write to `db_log`, from the call `n` on. -/
def logWrites (a : Args) (x : Outside) : Nat → List Point → List (Bytes × Bytes)
  | _, [] => []
  | n, .set_log rid :: ps =>
    (a.logKey rid, preparing ++ strftime (x.clock n)) :: logWrites a x (n + 1) ps
  | n, _ :: ps => logWrites a x (n + 1) ps

/-- One of the sends from the call `n` on goes through. -/
def sends (x : Outside) (n : Nat) : Bool :=
  !x.raises n || !x.raises (n + 1) && (!x.raises (n + 2) || !x.raises (n + 3) && !x.raises (n + 4))

def step (a : Args) (x : Outside) (s : Run) : Point → Except Run Run
  | .set_pub gid => call x (setPub a x gid) s
  | .read => call x id s
  | .set_log rid => call x (setLog a x rid) s
  | .broken => .error s

variable {V : Type}

/-- The last value that is written to a key. -/
def lastOf (ws : List (Bytes × V)) (k : Bytes) : Option V :=
  ((ws.filter (fun w => w.1 = k)).getLast?).map (·.2)

/-- A database has what is written last to each key. -/
def Kept (db : StdMap V) (ws : List (Bytes × V)) : Prop :=
  ∀ k v, lastOf ws k = some v → db.lookup k = some v

/-- What is done to a database. -/
def written (db : StdMap V) (ws : List (Bytes × V)) : StdMap V :=
  ws.foldl (fun db w => db.insert w.1 w.2) db

/-! ## The loops -/

variable {a : Args} {x : Outside}

theorem foldlM_flatMap {α β γ : Type} (f : α → List β) (g : γ → β → Except Run γ)
    (as : List α) (c : γ) :
    (as.flatMap f).foldlM g c = as.foldlM (fun c a => (f a).foldlM g c) c := by
  induction as generalizing c with
  | nil => rfl
  | cons a as ih =>
    rw [List.flatMap_cons, List.foldlM_append, List.foldlM_cons]
    congr
    funext c
    exact ih c

theorem publishServer_script (gid : Int) (s : Run) (rid : Bytes) :
    publishServer a x gid s rid = (serverScript a x gid rid).foldlM (step a x) s := by
  unfold publishServer serverScript
  rw [List.foldlM_cons]
  congr
  funext s
  cases inDeploy x (a.pmk gid) rid with
  | none => rfl
  | some b =>
    cases b with
    | true =>
      dsimp only
      cases x.decodes rid with
      | true => simp [step]
      | false => rfl
    | false => rfl

theorem publishGroup_script (s : Run) (gid : Int) :
    publishGroup a x s gid = (groupScript a x gid).foldlM (step a x) s := by
  have hserver : publishServer a x gid = fun s rid => (serverScript a x gid rid).foldlM
      (step a x) s := by
    funext s rid
    exact publishServer_script gid s rid
  unfold publishGroup groupScript
  rw [List.foldlM_cons]
  congr
  funext s
  rw [List.foldlM_cons]
  congr
  funext s
  rw [foldlM_flatMap, hserver]

/-- The loops go through all points, one after another. -/
theorem publish_script (a : Args) (x : Outside) (s : Run) :
    a.gids.foldlM (publishGroup a x) s = (script a x).foldlM (step a x) s := by
  have hgroup : publishGroup a x = fun s gid => (groupScript a x gid).foldlM (step a x) s := by
    funext s gid
    exact publishGroup_script s gid
  rw [script, foldlM_flatMap, hgroup]

/-- What points from a state on have done to it. -/
def after (a : Args) (x : Outside) (ps : List Point) (s : Run) : Run :=
  ⟨s.calls + ps.length, written s.db_pub (pubWrites a x ps),
    written s.db_log (logWrites a x s.calls ps), s.produced⟩

theorem step_ok {s : Run} {p : Point} (h : stops x s.calls p = false) :
    step a x s p = .ok (after a x [p] s) := by
  cases p with
  | broken => cases h
  | set_pub gid =>
    have hcall : x.raises s.calls = false := h
    simp [step, call, hcall, after, setPub, pubWrites, logWrites, written]
  | read =>
    have hcall : x.raises s.calls = false := h
    simp [step, call, hcall, after, pubWrites, logWrites, written]
  | set_log rid =>
    have hcall : x.raises s.calls = false := h
    simp [step, call, hcall, after, setLog, pubWrites, logWrites, written]

theorem step_error {s : Run} {p : Point} (h : stops x s.calls p = true) :
    step a x s p = .error s := by
  cases p with
  | broken => rfl
  | set_pub gid => exact if_pos h
  | read => exact if_pos h
  | set_log rid => exact if_pos h

theorem after_cons (p : Point) (ps : List Point) (s : Run) :
    after a x (p :: ps) s = after a x ps (after a x [p] s) := by
  have hcalls : s.calls + (ps.length + 1) = s.calls + 1 + ps.length := by omega
  cases p with
  | set_pub gid => simp [after, pubWrites, logWrites, written, hcalls]
  | read => simp [after, pubWrites, logWrites, written, hcalls]
  | set_log rid => simp [after, pubWrites, logWrites, written, hcalls]
  | broken => simp [after, pubWrites, logWrites, written, hcalls]

/-- The points up to the first one that raises an exception are done. -/
theorem walk (ps : List Point) (s : Run) :
    ps.foldlM (step a x) s =
      if through x s.calls ps then
        .ok (after a x ps s) else .error (after a x (before x s.calls ps) s) := by
  induction ps generalizing s with
  | nil => rfl
  | cons p ps ih =>
    rw [List.foldlM_cons, through, before]
    cases hstops : stops x s.calls p with
    | true =>
      rw [step_error hstops]
      rfl
    | false =>
      have hnext := ih (after a x [p] s)
      have hcalls : (after a x [p] s).calls = s.calls + 1 := rfl
      rw [hcalls] at hnext
      simp only [Bool.not_false, Bool.true_and, Bool.false_eq_true, if_false]
      rw [step_ok hstops, after_cons p ps, after_cons p (before x (s.calls + 1) ps)]
      exact hnext

/-! ## What is written -/

theorem lastOf_concat (ws : List (Bytes × V)) (w : Bytes × V) (k : Bytes) :
    lastOf (ws ++ [w]) k = if w.1 = k then some w.2 else lastOf ws k := by
  unfold lastOf
  rw [List.filter_append]
  by_cases h : w.1 = k
  · rw [if_pos h, List.filter_cons_of_pos (by simpa using h), List.filter_nil, List.getLast?_concat]
    rfl
  · rw [if_neg h, List.filter_cons_of_neg (by simpa using h), List.filter_nil, List.append_nil]

theorem written_lookup (db : StdMap V) (ws : List (Bytes × V)) (k : Bytes) :
    (written db ws).lookup k = (lastOf ws k).or (db.lookup k) := by
  induction ws using List.reverseRecOn with
  | nil => rfl
  | append_singleton ws w ih =>
    have hconcat : written db (ws ++ [w]) = (written db ws).insert w.1 w.2 := by
      unfold written
      rw [List.foldl_append]
      rfl
    rw [hconcat, find_insert, lastOf_concat, ih]
    by_cases h : w.1 = k
    · rw [if_pos h, if_pos h.symm]
      rfl
    · rw [if_neg h, if_neg (fun he => h he.symm)]

theorem written_same_iff (db : StdMap V) (ws : List (Bytes × V)) :
    (∀ k, (written db ws).lookup k = db.lookup k) ↔ Kept db ws := by
  constructor
  · intro h k v hlast
    have hk := h k
    rw [written_lookup, hlast] at hk
    exact hk.symm
  · intro h k
    rw [written_lookup]
    cases hlast : lastOf ws k with
    | none => rfl
    | some v => exact (h k v hlast).symm

theorem lastOf_const {ws : List (Bytes × V)} {v : V} {k : Bytes} (hall : ∀ w ∈ ws, w.2 = v)
    (hk : k ∈ ws.map (·.1)) :
    lastOf ws k = some v := by
  induction ws using List.reverseRecOn with
  | nil => cases hk
  | append_singleton ws w ih =>
    rw [lastOf_concat]
    by_cases h : w.1 = k
    · rw [if_pos h, hall w (List.mem_append_right _ List.mem_cons_self)]
    · rw [if_neg h]
      apply ih (fun w' hw' => hall w' (List.mem_append_left _ hw'))
      rw [List.map_append, List.mem_append] at hk
      rcases hk with hk | hk
      · exact hk
      · exact absurd (List.mem_singleton.mp hk).symm h

theorem pubWrites_append (ps qs : List Point) :
    pubWrites a x (ps ++ qs) = pubWrites a x ps ++ pubWrites a x qs :=
  List.filterMap_append

theorem pubWrites_server (gid : Int) (rid : Bytes) :
    pubWrites a x (serverScript a x gid rid) = [] := by
  unfold serverScript
  cases inDeploy x (a.pmk gid) rid with
  | none => rfl
  | some b =>
    cases b with
    | true =>
      dsimp only
      cases x.decodes rid with
      | true => rfl
      | false => rfl
    | false => rfl

theorem pubWrites_servers (gid : Int) (rids : List Bytes) :
    pubWrites a x (rids.flatMap (serverScript a x gid)) = [] := by
  induction rids with
  | nil => rfl
  | cons rid rids ih =>
    rw [List.flatMap_cons, pubWrites_append, pubWrites_server, ih, List.append_nil]

/-- All points together write the record for each group. -/
theorem pubWrites_script (a : Args) (x : Outside) :
    pubWrites a x (script a x) = a.gids.map (fun gid => (a.key gid, record a x)) := by
  unfold script
  generalize a.gids = gids
  induction gids with
  | nil => rfl
  | cons gid gids ih =>
    have hgroup : pubWrites a x (groupScript a x gid) = [(a.key gid, record a x)] := by
      have hcons : pubWrites a x (groupScript a x gid) =
          (a.key gid, record a x) ::
            pubWrites a x ((mgrKeys x gid).flatMap (serverScript a x gid)) := rfl
      rw [hcons, pubWrites_servers]
    rw [List.flatMap_cons, pubWrites_append, hgroup, ih]
    rfl

theorem stored_all (a : Args) (x : Outside) (db_pub : StdMap Published) {gid : Int}
    (hgid : gid ∈ a.gids) :
    (written db_pub (pubWrites a x (script a x))).lookup (a.key gid) = some (record a x) := by
  have hlast : lastOf (pubWrites a x (script a x)) (a.key gid) = some (record a x) := by
    rw [pubWrites_script]
    apply lastOf_const
    · intro w hw
      obtain ⟨_, _, rfl⟩ := List.mem_map.mp hw
      rfl
    · rw [List.map_map]
      exact List.mem_map.mpr ⟨gid, hgid, rfl⟩
  rw [written_lookup, hlast]
  rfl

/-! ## What is announced -/

theorem produce_dbs (p : Publication) (n : Nat) (s : Run) :
    (produce x p n s).db_pub = s.db_pub ∧ (produce x p n s).db_log = s.db_log := by
  induction n generalizing s with
  | zero => exact ⟨rfl, rfl⟩
  | succ n ih =>
    unfold produce
    split
    · exact ⟨rfl, rfl⟩
    split
    · exact ⟨rfl, rfl⟩
    · exact ih _

/-- Its three sends leave one message, or none. -/
theorem produce_three (p : Publication) (s : Run) :
    (produce x p 3 s).produced = if sends x s.calls then s.produced ++ [p] else s.produced := by
  unfold sends
  cases h0 : x.raises s.calls with
  | false => simp [produce, h0]
  | true =>
    cases h1 : x.raises (s.calls + 1) with
    | true => simp [produce, h0, h1]
    | false =>
      cases h2 : x.raises (s.calls + 2) with
      | false => simp [produce, h0, h1, h2]
      | true =>
        cases h3 : x.raises (s.calls + 3) with
        | true => simp [produce, h0, h1, h2, h3]
        | false =>
          cases h4 : x.raises (s.calls + 4) with
          | false => simp [produce, h0, h1, h2, h3, h4]
          | true => simp [produce, h0, h1, h2, h3, h4]

/-! ## All or nothing -/

/-- A run that raises no exception comes to `Produce`, and any other is left as it is there. -/
theorem publish_through (a : Args) (x : Outside) (db_pub : StdMap Published)
    (db_log : StdMap Bytes) :
    publish a x db_pub db_log =
      if through x 0 (script a x) then
        (.success, produce x (message a x) 3 (after a x (script a x) ⟨0, db_pub, db_log, []⟩))
      else
        (if a.gids = [] then .failed else .raised,
          after a x (before x 0 (script a x)) ⟨0, db_pub, db_log, []⟩) := by
  unfold publish
  rw [publish_script, walk]
  dsimp only
  cases through x 0 (script a x) with
  | true => rfl
  | false => rfl

/-- `publish` does all or nothing just when no call of Redis raises an exception, all servers of the
groups can be decoded and a send goes through, or when what is written in front of the first
exception was there before. -/
theorem publish_does_all_or_nothing_just_when (a : Args) (x : Outside) (db_pub : StdMap Published)
    (db_log : StdMap Bytes) :
    AllOrNothing a x db_pub db_log (publish a x db_pub db_log) ↔
      if through x 0 (script a x) then sends x (script a x).length = true
      else Kept db_pub (pubWrites a x (before x 0 (script a x))) ∧
        Kept db_log (logWrites a x 0 (before x 0 (script a x))) := by
  rw [publish_through]
  by_cases hthrough : through x 0 (script a x) = true
  · rw [if_pos hthrough, if_pos hthrough]
    have hproduced :=
      produce_three (x := x) (message a x) (after a x (script a x) ⟨0, db_pub, db_log, []⟩)
    have hcalls : (after a x (script a x) ⟨0, db_pub, db_log, []⟩).calls = (script a x).length :=
      Nat.zero_add _
    rw [hcalls] at hproduced
    constructor
    · intro h
      have hannounced := h.announced rfl
      dsimp only at hannounced
      rw [hproduced] at hannounced
      by_contra hsends
      rw [if_neg hsends] at hannounced
      cases hannounced
    · intro hsends
      rw [if_pos hsends] at hproduced
      refine ⟨fun _ gid hgid => ?_, fun _ => hproduced, fun hne => absurd rfl hne,
        fun hne => absurd rfl hne, fun hne => absurd rfl hne⟩
      dsimp only
      rw [(produce_dbs _ _ _).1]
      exact stored_all a x db_pub hgid
  · rw [if_neg hthrough, if_neg hthrough]
    have hresult : (if a.gids = [] then Result.failed else .raised) ≠ .success := by
      split
      · decide
      · decide
    rw [← written_same_iff, ← written_same_iff]
    constructor
    · intro h
      exact ⟨h.pub_same hresult, h.log_same hresult⟩
    · rintro ⟨hpub, hlog⟩
      exact ⟨fun h => absurd h hresult, fun h => absurd h hresult, fun _ => hpub,
        fun _ => hlog, fun _ => rfl⟩

/-! ## Two failures -/

/-- Two groups without servers. -/
def twoGroups : Args := ⟨[112], [109], [49], [1, 2], [], [], [], [], []⟩

def noon : Now :=
  ⟨2021, 7, 15, 12, 30, 40, by decide, by decide, by decide, by decide, by decide, by decide⟩

/-- Some calls fail. -/
def failing (ns : List Nat) : Outside :=
  ⟨∅, [], noon, fun _ => noon, fun _ => none, fun _ => true, fun n => n ∈ ns⟩

/-- Where the second group cannot be stored the first one is. Where no send goes through, the groups
are stored with success, and nobody is told. -/
theorem publish_stores_a_part_and_announces_nothing :
    ¬ AllOrNothing twoGroups (failing [2]) ∅ ∅ (publish twoGroups (failing [2]) ∅ ∅) ∧
    ¬ AllOrNothing twoGroups (failing [4, 6, 8]) ∅ ∅
      (publish twoGroups (failing [4, 6, 8]) ∅ ∅) := by
  constructor
  · intro h
    have hsame := h.pub_same (by decide +kernel) (twoGroups.key 1)
    revert hsame
    decide +kernel
  · intro h
    have hannounced := h.announced (by decide +kernel)
    revert hannounced
    decide +kernel

end py.publish_failures
