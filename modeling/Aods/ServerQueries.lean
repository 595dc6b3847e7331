-- `queryServer`, which reads the records of some servers and the access data of a user for each in
-- two calls of Redis and puts them together by their places. The law says for which servers it
-- gives the records, and that one without a record costs those of all others.
import Aods.CompositeKeys

open machine std_map
open util.json (text)
open glob (stringmatch)
open py.composite_keys

namespace py.server_queries

/-! ## Values -/

/-- What `json.loads` gives: a dict, or another value. -/
inductive Loaded (V : Type) where
  | dict (members : StdMap V)
  | other (v : V)

/-- What comes from outside: `loads` behind `decode`, `decrypt` of a `Fernet` with a key, and the
members that `update` takes from a value that is no dict. An exception is `none`. -/
structure Outside (V : Type) where
  loads : Bytes → Option (Loaded V)
  decrypt : Bytes → Bytes → Option Bytes
  members : V → Option (StdMap V)

/-- The members that `update` takes from a value. -/
def Outside.taken {V : Type} (x : Outside V) : Loaded V → Option (StdMap V)
  | .dict members => some members
  | .other v => x.members v

/-- `srv.update(v)`. Only a dict has it. -/
def Loaded.update {V : Type} (x : Outside V) (srv v : Loaded V) : Option (Loaded V) :=
  match srv with
  | .dict members => (x.taken v).map (fun taken => .dict (taken ∪ members))
  | .other _ => none

/-! ## The queries -/

/-- The two databases, with their keys as Redis lists them. -/
structure Databases where
  db_mgr : StdMap Bytes
  mgr_keys : List Bytes
  db_umi : StdMap Bytes
  umi_keys : List Bytes

variable {V : Type}

/-- `__decryptUsiInfo`. Whatever raises an exception is an empty dict. -/
def decryptUsiInfo (x : Outside V) (buf : Bytes) : Bytes :=
  if buf.length < 4 then text "\x7b\x7d"
  else
    let l := word (buf.take 4)
    if buf.length < l + 4 then text "\x7b\x7d"
    else (x.decrypt ((buf.drop 4).take l) (buf.drop (4 + l))).getD (text "\x7b\x7d")

/-- '%s#%s'. -/
def usiKey (usr rid : Bytes) : Bytes := usr ++ 35 :: rid

/-- `mget`: the value of each key, or none. -/
def mget (db : StdMap Bytes) (keys : List Bytes) : List (Option Bytes) :=
  keys.map (fun key => db.lookup key)

/-- A turn of the first loop of `queryAllServer`. -/
def addAll (x : Outside V) (db_mgr : StdMap Bytes) (srvs : StdMap (Loaded V)) (rid : Bytes) :
    Option (StdMap (Loaded V)) := do
  let info ← db_mgr.lookup rid
  if info = text "null" then some srvs else some (srvs.insert rid (← x.loads info))

/-- And of the second one. -/
def updateAll (x : Outside V) (db_umi : StdMap Bytes) (srvs : StdMap (Loaded V)) (key : Bytes) :
    Option (StdMap (Loaded V)) :=
  let rid := (key.splitOn 35).getLastD []
  match srvs.lookup rid with
  | none => some srvs
  | some srv =>
    do some (srvs.insert rid (← srv.update x (← x.loads (decryptUsiInfo x (← db_umi.lookup key)))))

/-- `queryAllServer`. An exception ends it with None. -/
def queryAllServer (g : Bytes → Bytes → Bool) (x : Outside V) (dbs : Databases) (usr : Bytes) :
    Option (StdMap (Loaded V)) := do
  let srvs ← dbs.mgr_keys.foldlM (addAll x dbs.db_mgr) ∅
  (dbs.umi_keys.filter (g (usr ++ [35, 42]))).foldlM (updateAll x dbs.db_umi) srvs

/-- A turn of the first loop of `queryServer`: what was read for a server, with its place. There is
no text to decode where there is no record. -/
def addSrv (x : Outside V) (rids : List Bytes) (s : StdMap (Loaded V) × Nat) (info : Option Bytes) :
    Option (StdMap (Loaded V) × Nat) := do
  let rid ← rids[s.2]?
  if info = some (text "null") then some (s.1.insert rid (.dict ∅), s.2 + 1)
  else some (s.1.insert rid (← x.loads (← info)), s.2 + 1)

/-- A turn of the second one: the access data for a server. -/
def updateSrv (x : Outside V) (rids : List Bytes) (s : StdMap (Loaded V) × Nat)
    (info : Option Bytes) :
    Option (StdMap (Loaded V) × Nat) :=
  match info.getD [] with
  | [] => some (s.1, s.2 + 1)
  | b :: bs => do
    let rid ← rids[s.2]?
    let srv ← (← s.1.lookup rid).update x (← x.loads (decryptUsiInfo x (b :: bs)))
    some (s.1.insert rid srv, s.2 + 1)

/-- `queryServer`. An exception ends it with nothing. -/
def queryServer (g : Bytes → Bytes → Bool) (x : Outside V) (dbs : Databases)
    (rids : Option (List Bytes)) (usr : Bytes) :
    Option (StdMap (Loaded V)) :=
  match rids with
  | none => queryAllServer g x dbs usr
  | some rids => some ((do
    let s ← (mget dbs.db_mgr rids).foldlM (addSrv x rids) (∅, 0)
    let s ← (mget dbs.db_umi (rids.map (usiKey usr))).foldlM (updateSrv x rids) (s.1, 0)
    some s.1).getD ∅)

/-! ## What is asked of it -/

/-- What is in the database for a server. A "null" is an empty dict. -/
def recordOf (x : Outside V) (dbs : Databases) (rid : Bytes) : Option (Loaded V) :=
  (dbs.db_mgr.lookup rid).bind
    (fun info => if info = text "null" then some (.dict ∅) else x.loads info)

/-- What the access data of the user for a server give, if they can be read. -/
def accessOf (x : Outside V) (dbs : Databases) (usr rid : Bytes) : Option (StdMap V) :=
  match (dbs.db_umi.lookup (usiKey usr rid)).getD [] with
  | [] => some ∅
  | b :: bs => (x.loads (decryptUsiInfo x (b :: bs))).bind x.taken

/-- Each server of the list that has a record is in the result, with its record and the access data
of the user for it. -/
def Tolerates (g : Bytes → Bytes → Bool) (x : Outside V) (dbs : Databases) (rids : List Bytes)
    (usr : Bytes) : Prop :=
  ∀ rid ∈ rids, ∀ members, recordOf x dbs rid = some (.dict members) →
    ∃ srvs, queryServer g x dbs (some rids) usr = some srvs ∧
      srvs.lookup rid = some (.dict ((accessOf x dbs usr rid).getD ∅ ∪ members))

/-- There is something for a server, and where the user has access data for it, it is a dict, and
they can be read. -/
structure Readable (x : Outside V) (dbs : Databases) (usr rid : Bytes) : Prop where
  record : (recordOf x dbs rid).isSome
  access : (dbs.db_umi.lookup (usiKey usr rid)).getD [] ≠ [] →
    (∃ members, recordOf x dbs rid = some (.dict members)) ∧ (accessOf x dbs usr rid).isSome

variable {g : Bytes → Bytes → Bool} {x : Outside V} {dbs : Databases}
  {rids : List Bytes} {usr : Bytes}

/-! ## Loops with a place -/

/-- A loop over what is read for some keys, with a place in their list, is a loop over the keys. -/
theorem foldlM_places {σ κ ι : Type} {turn : σ × Nat → ι → Option (σ × Nat)} {f : σ → κ → Option σ}
    {get : κ → ι} (keys : List κ)
    (hturn : ∀ s n key, keys[n]? = some key →
      turn (s, n) (get key) = (f s key).map (fun s' => (s', n + 1)))
    (s : σ) :
    (keys.map get).foldlM turn (s, 0) = (keys.foldlM f s).map (fun s' => (s', keys.length)) := by
  have hall : ∀ done todo, keys = done ++ todo → ∀ s,
      (todo.map get).foldlM turn (s, done.length) =
          (todo.foldlM f s).map (fun s' => (s', keys.length)) := by
    intro done todo
    induction todo generalizing done with
    | nil =>
      intro hkeys s
      rw [hkeys, List.append_nil]
      rfl
    | cons key todo ih =>
      intro hkeys s
      have hkey : keys[done.length]? = some key := by simp [hkeys]
      rw [List.map_cons, List.foldlM_cons, List.foldlM_cons, hturn s done.length key hkey]
      cases f s key with
      | none => rfl
      | some s' =>
        have hih := ih (done ++ [key]) (by simp [hkeys]) s'
        rw [List.length_append] at hih
        exact hih
  exact hall [] keys rfl s

/-- What a turn of the first loop does for its server. -/
def enter (x : Outside V) (dbs : Databases) (srvs : StdMap (Loaded V)) (rid : Bytes) :
    Option (StdMap (Loaded V)) :=
  (recordOf x dbs rid).map (srvs.insert rid)

theorem addSrv_eq (srvs : StdMap (Loaded V)) (n : Nat) (rid : Bytes) (h : rids[n]? = some rid) :
    addSrv x rids (srvs, n) (dbs.db_mgr.lookup rid) =
      (enter x dbs srvs rid).map (fun srvs' => (srvs', n + 1)) := by
  unfold addSrv enter recordOf
  dsimp only
  rw [h]
  cases dbs.db_mgr.lookup rid with
  | none => rfl
  | some info =>
    by_cases hnull : info = text "null"
    · simp [hnull]
    · cases hloads : x.loads info with
      | none => simp [hnull, hloads]
      | some srv => simp [hnull, hloads]

/-- What a turn of the second loop does for its server. -/
def merge (x : Outside V) (dbs : Databases) (usr : Bytes) (srvs : StdMap (Loaded V)) (rid : Bytes) :
    Option (StdMap (Loaded V)) :=
  if (dbs.db_umi.lookup (usiKey usr rid)).getD [] = [] then some srvs
  else
    match srvs.lookup rid, accessOf x dbs usr rid with
    | some (.dict members), some taken => some (srvs.insert rid (.dict (taken ∪ members)))
    | _, _ => none

theorem updateSrv_eq (srvs : StdMap (Loaded V)) (n : Nat) (rid : Bytes) (h : rids[n]? = some rid) :
    updateSrv x rids (srvs, n) (dbs.db_umi.lookup (usiKey usr rid)) =
      (merge x dbs usr srvs rid).map (fun srvs' => (srvs', n + 1)) := by
  unfold updateSrv merge accessOf
  cases (dbs.db_umi.lookup (usiKey usr rid)).getD [] with
  | nil => rfl
  | cons b bs =>
    rw [if_neg (List.cons_ne_nil b bs)]
    dsimp only
    rw [h]
    cases hsrv : srvs.lookup rid with
    | none => simp [hsrv]
    | some srv =>
      cases x.loads (decryptUsiInfo x (b :: bs)) with
      | none => cases srv <;> simp
      | some v =>
        cases srv with
        | other w => simp [hsrv, Loaded.update]
        | dict members =>
          cases htaken : x.taken v with
          | none => simp [hsrv, htaken, Loaded.update]
          | some taken => simp [hsrv, htaken, Loaded.update]

theorem queryServer_eq : queryServer g x dbs (some rids) usr =
    some (((rids.foldlM (enter x dbs) ∅).bind (fun srvs => rids.foldlM (merge x dbs usr) srvs)).getD
      ∅) := by
  have hfirst : (mget dbs.db_mgr rids).foldlM (addSrv x rids) (∅, 0) =
      (rids.foldlM (enter x dbs) ∅).map (fun srvs => (srvs, rids.length)) :=
    foldlM_places rids addSrv_eq ∅
  have hsecond : ∀ srvs, (mget dbs.db_umi (rids.map (usiKey usr))).foldlM
      (updateSrv x rids) (srvs, 0) =
      (rids.foldlM (merge x dbs usr) srvs).map (fun srvs => (srvs, rids.length)) := by
    intro srvs
    unfold mget
    rw [List.map_map]
    exact foldlM_places rids updateSrv_eq srvs
  unfold queryServer
  dsimp only
  rw [hfirst]
  cases rids.foldlM (enter x dbs) ∅ with
  | none => rfl
  | some srvs =>
    simp only [Option.map_some, Option.bind_eq_bind, Option.bind_some, hsecond]
    cases rids.foldlM (merge x dbs usr) srvs with
    | none => rfl
    | some srvs' => rfl

/-! ## The two loops -/

/-- The first loop goes through just when there is something for each server, and then has all
that. -/
theorem enter_iff : (∃ srvs, rids.foldlM (enter x dbs) ∅ = some srvs) ↔
    ∀ rid ∈ rids, (recordOf x dbs rid).isSome := by
  refine @foldlM_turns_iff _ _ (enter x dbs) (fun _ _ => True) _ ∅ rids trivial
    (fun _ rid srvs _ _ hsome => ?_)
    (fun _ rid srvs _ _ hnone => ?_)
  · obtain ⟨srv, hsrv⟩ := Option.isSome_iff_exists.mp hsome
    exact ⟨srvs.insert rid srv, by rw [enter, hsrv]; rfl, trivial⟩
  · rw [Option.not_isSome_iff_eq_none] at hnone
    rw [enter, hnone]
    rfl

theorem enter_lookup {srvs : StdMap (Loaded V)} (h : rids.foldlM (enter x dbs) ∅ = some srvs)
    {rid : Bytes} (hrid : rid ∈ rids) : srvs.lookup rid = recordOf x dbs rid := by
  have hall := enter_iff.mp ⟨srvs, h⟩
  obtain ⟨srvs', hsrvs', hlookup⟩ := @foldlM_turns _ _ (enter x dbs)
    (fun done srvs => ∀ rid ∈ done, srvs.lookup rid = recordOf x dbs rid) ∅ rids (by simp) (by
    intro done r srvs hr hdone
    obtain ⟨srv, hsrv⟩ := Option.isSome_iff_exists.mp (hall r hr)
    refine ⟨srvs.insert r srv, by rw [enter, hsrv]; rfl, fun rid hrid => ?_⟩
    rw [find_insert]
    split
    · rename_i he
      rw [he, hsrv]
    · rename_i hne
      apply hdone
      simpa [hne] using hrid)
  rw [h] at hsrvs'
  cases hsrvs'
  exact hlookup rid hrid

/-- What the second loop leaves of a server. -/
def merged (x : Outside V) (dbs : Databases) (usr rid : Bytes) : Option (Loaded V) :=
  match recordOf x dbs rid with
  | some (.dict members) => some (.dict ((accessOf x dbs usr rid).getD ∅ ∪ members))
  | srv => srv

theorem union_self_union (taken members : StdMap V) :
    taken ∪ (taken ∪ members) = taken ∪ members := by
  have hentries : ∀ l l' : List (Sigma fun _ : Bytes => V), l.kunion (l.kunion l') =
      l.kunion l' := by
    intro l
    induction l with
    | nil => intro l'; rfl
    | cons e l ih =>
      intro l'
      rw [List.kunion_cons, List.kunion_cons, List.kerase_cons_eq rfl, ih]
  exact AList.ext (hentries taken.entries members.entries)

/-- A turn of the second loop leaves what it is to leave of its server, and the others as they
are. -/
theorem merge_turn {done : List Bytes} {rid : Bytes} {srvs : StdMap (Loaded V)} (hrid : rid ∈ rids)
    (hdone : ∀ r ∈ rids, srvs.lookup r = if r ∈ done then merged x dbs usr r else recordOf x dbs r)
    (hreadable : Readable x dbs usr rid) :
    ∃ srvs', merge x dbs usr srvs rid = some srvs' ∧
      ∀ r ∈ rids, srvs'.lookup r = if r ∈ done ++ [rid] then merged x dbs usr r else
        recordOf x dbs r := by
  unfold merge
  by_cases hnone : (dbs.db_umi.lookup (usiKey usr rid)).getD [] = []
  · rw [if_pos hnone]
    refine ⟨srvs, rfl, fun r hr => ?_⟩
    rw [hdone r hr]
    by_cases he : r = rid
    · subst he
      have hsame : merged x dbs usr r = recordOf x dbs r := by
        unfold merged accessOf
        rw [hnone]
        cases recordOf x dbs r with
        | none => rfl
        | some srv =>
          cases srv with
          | dict members => simp
          | other v => rfl
      rw [hsame]
      simp
    · simp [he]
  · rw [if_neg hnone]
    obtain ⟨⟨members, hmembers⟩, haccess⟩ := hreadable.access hnone
    obtain ⟨taken, htaken⟩ := Option.isSome_iff_exists.mp haccess
    have hmerged : merged x dbs usr rid = some (.dict (taken ∪ members)) := by
      rw [merged, hmembers, htaken]
      rfl
    -- the server comes as it is in the database, or it came before and was merged already
    obtain ⟨before, hbefore, hunion⟩ : ∃ before, srvs.lookup rid = some (.dict before) ∧
        taken ∪ before = taken ∪ members := by
      rw [hdone rid hrid]
      split
      · exact ⟨taken ∪ members, hmerged, union_self_union taken members⟩
      · exact ⟨members, hmembers, rfl⟩
    rw [hbefore, htaken]
    refine ⟨_, rfl, fun r hr => ?_⟩
    rw [find_insert]
    by_cases he : r = rid
    · subst he
      rw [if_pos rfl, if_pos (by simp), hmerged, hunion]
    · rw [if_neg he, hdone r hr]
      simp [he]

/-- One whose server or whose access data cannot be read raises an exception. -/
theorem merge_raises {done : List Bytes} {rid : Bytes} {srvs : StdMap (Loaded V)}
    (hrid : rid ∈ rids)
    (hdone : ∀ r ∈ rids, srvs.lookup r = if r ∈ done then merged x dbs usr r else recordOf x dbs r)
    (hsome : (recordOf x dbs rid).isSome) (hnot : ¬ Readable x dbs usr rid) :
    merge x dbs usr srvs rid = none := by
  have haccess : (dbs.db_umi.lookup (usiKey usr rid)).getD [] ≠ [] ∧
      ¬ ((∃ members, recordOf x dbs rid = some (.dict members)) ∧
          (accessOf x dbs usr rid).isSome) := by
    by_contra hall
    push Not at hall
    exact hnot ⟨hsome, hall⟩
  obtain ⟨hnone, hunread⟩ := haccess
  unfold merge
  rw [if_neg hnone, hdone rid hrid]
  cases hrecord : recordOf x dbs rid with
  | none => rw [hrecord] at hsome; cases hsome
  | some srv =>
    cases srv with
    | other v =>
      have hmerged : merged x dbs usr rid = some (.other v) := by
        rw [merged, hrecord]
      rw [hmerged, ite_self]
    | dict members =>
      have haccess : accessOf x dbs usr rid = none := by
        rw [← Option.not_isSome_iff_eq_none]
        exact fun h => hunread ⟨⟨members, hrecord⟩, h⟩
      rw [haccess]
      split
      · rename_i h
        cases h
      · rfl

/-- Both loops go through just when all servers can be read. -/
theorem merge_iff {srvs : StdMap (Loaded V)} (h : rids.foldlM (enter x dbs) ∅ = some srvs) :
    (∃ srvs', rids.foldlM (merge x dbs usr) srvs = some srvs') ↔
      ∀ rid ∈ rids, Readable x dbs usr rid := by
  refine @foldlM_turns_iff _ _ (merge x dbs usr)
    (fun done srvs => ∀ r ∈ rids, srvs.lookup r = if r ∈ done then merged x dbs usr r else recordOf
      x dbs r) _ srvs rids
    ?_ (fun done rid srvs hrid hdone hreadable => merge_turn hrid hdone hreadable)
    (fun done rid srvs hrid hdone hnot =>
      merge_raises hrid hdone (enter_iff.mp ⟨_, h⟩ rid hrid) hnot)
  intro r hr
  simp [enter_lookup h hr]

theorem merge_lookup {srvs srvs' : StdMap (Loaded V)} (h : rids.foldlM (enter x dbs) ∅ = some srvs)
    (h' : rids.foldlM (merge x dbs usr) srvs = some srvs') {rid : Bytes} (hrid : rid ∈ rids) :
    srvs'.lookup rid = merged x dbs usr rid := by
  have hall := (merge_iff h).mp ⟨srvs', h'⟩
  obtain ⟨srvs'', hsrvs'', hlookup⟩ := @foldlM_turns _ _ (merge x dbs usr)
    (fun done srvs => ∀ r ∈ rids, srvs.lookup r = if r ∈ done then merged x dbs usr r else recordOf
      x dbs r) srvs rids
    (fun r hr => by simp [enter_lookup h hr])
    (fun done r srvs hr hdone => merge_turn hr hdone (hall r hr))
  rw [h'] at hsrvs''
  cases hsrvs''
  rw [hlookup rid hrid, if_pos hrid]

/-! ## The law -/

/-- If no server of the list can keep a loop from going on, the list is answered, and if one can, no
server is there. -/
theorem queryServer_cases : ((∀ rid ∈ rids, Readable x dbs usr rid) ∧ ∃ srvs,
      queryServer g x dbs (some rids) usr = some srvs ∧ ∀ rid ∈ rids, srvs.lookup rid =
        merged x dbs usr rid) ∨
    (¬ (∀ rid ∈ rids, Readable x dbs usr rid) ∧ queryServer g x dbs (some rids) usr = some ∅) := by
  rw [queryServer_eq]
  cases henter : rids.foldlM (enter x dbs) ∅ with
  | none =>
    refine Or.inr ⟨fun hall => ?_, rfl⟩
    obtain ⟨srvs, hsrvs⟩ := (@enter_iff V x dbs rids).mpr (fun rid hrid => (hall rid hrid).record)
    rw [henter] at hsrvs
    cases hsrvs
  | some srvs =>
    cases hmerge : rids.foldlM (merge x dbs usr) srvs with
    | none =>
      refine Or.inr ⟨fun hall => ?_, by simp [hmerge]⟩
      obtain ⟨srvs', hsrvs'⟩ := (merge_iff henter).mpr hall
      rw [hmerge] at hsrvs'
      cases hsrvs'
    | some srvs' =>
      exact Or.inl ⟨(merge_iff henter).mp ⟨srvs', hmerge⟩, srvs', by simp [hmerge],
        fun rid hrid => merge_lookup henter hmerge hrid⟩

/-- A list is answered for its servers with a record just when it has none, or each of its servers
can be read. -/
theorem a_list_is_answered_just_when_all_can_be_read (g : Bytes → Bytes → Bool) (x : Outside V)
    (dbs : Databases) (rids : List Bytes) (usr : Bytes) :
    Tolerates g x dbs rids usr ↔
      ((∃ rid ∈ rids, ∃ members, recordOf x dbs rid = some (.dict members)) →
        ∀ rid ∈ rids, Readable x dbs usr rid) := by
  rcases @queryServer_cases V g x dbs rids usr with ⟨hall, srvs, hsrvs, hlookup⟩ | ⟨hnot, hnothing⟩
  · constructor
    · exact fun _ _ => hall
    · intro _ rid hrid members hmembers
      refine ⟨srvs, hsrvs, ?_⟩
      rw [hlookup rid hrid, merged, hmembers]
  · constructor
    · rintro htolerates ⟨rid, hrid, members, hmembers⟩
      obtain ⟨srvs, hsrvs, hlookup⟩ := htolerates rid hrid members hmembers
      rw [hnothing] at hsrvs
      cases hsrvs
      cases hlookup
    · intro h rid hrid members hmembers
      exact absurd (h ⟨rid, hrid, members, hmembers⟩) hnot

/-- `json` of the empty dict. -/
def emptyDicts : Outside Bytes where
  loads := fun s => if s = text "\x7b\x7d" then some (.dict ∅) else none
  decrypt := fun _ _ => none
  members := fun _ => none

/-- A database of one server. -/
def oneServer : Databases := ⟨(∅ : StdMap Bytes).insert [97] (text "\x7b\x7d"), [[97]], ∅, []⟩

/-- With a server that never was in the list, the one that is in the database is not in the
result. -/
theorem a_server_is_lost_beside_an_unknown_one :
    (∃ srvs, queryServer stringmatch emptyDicts oneServer (some [[97]]) [117] = some srvs ∧
      srvs.lookup [97] = some (.dict ∅)) ∧
    ¬ Tolerates stringmatch emptyDicts oneServer [[97], [98]] [117] := by
  refine ⟨⟨_, rfl, rfl⟩, fun h => ?_⟩
  obtain ⟨srvs, hsrvs, hlookup⟩ := h [97] List.mem_cons_self ∅ rfl
  cases hsrvs
  cases hlookup

end py.server_queries
