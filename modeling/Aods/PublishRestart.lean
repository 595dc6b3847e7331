-- The table of what is published, as a running `DeployCtrl` has it from the messages and as one
-- that starts has it from `db_pub`. The law says for which modules both have the same.
import Aods.PublishOrder

open machine std_map latest
open util.helper
open py.clock py.deploy_db py.db_engine publish_order

namespace publish_restart

/-! ## The pure model -/

/-- A call of `publish`, with the time of the call. -/
structure Call where
  now : Now
  c : Publishing

/-- Calls one after another: `db_pub`, and the messages. -/
def publishAll (calls : List Call) : StdMap Published × List Publication :=
  calls.foldl (fun s x => ((publish x.now x.c s.1).1, s.2 ++ [(publish x.now x.c s.1).2])) (∅, [])

/-- Redis gives the keys of `db_pub` that begin with the index and '#', each once. -/
structure Listing (dc : DeployCtrl) (db_pub : StdMap Published) (keys : List Bytes) : Prop where
  nodup : keys.Nodup
  mem : ∀ key, key ∈ keys ↔ key ∈ db_pub.keys ∧ (dc.index ++ [35]) <+: key

/-- The table of a control that took all messages. -/
def running (index : Int) (calls : List Call) : StdMap Entry :=
  (deliver (init index) (publishAll calls).2).publish

/-- The table of a control that starts behind the calls. -/
def restarted (index : Int) (calls : List Call) (keys : List Bytes) : StdMap Entry :=
  ((init index).initDb ∅ (publishAll calls).1 keys).publish

/-- What an entry says of a package. -/
def content (e : Entry) : Option Bytes × Option Bytes × Option Bytes × Option Bytes :=
  (e.ver, e.hash, e.code, e.url)

/-- However Redis lists the keys, a start has the same package for a module. -/
def SameAfterStart (index : Int) (calls : List Call) (prj module : Bytes) : Prop :=
  ∀ keys, Listing (init index) (publishAll calls).1 keys →
    ((restarted index calls keys).lookup ((init index).prjModule2Key (some prj) (some module))).map
      content =
      ((running index calls).lookup ((init index).prjModule2Key (some prj) (some module))).map
        content

/-- Texts without '#', and a clock that never goes back. -/
structure InOrder (calls : List Call) : Prop where
  free : ∀ x ∈ calls, 35 ∉ x.c.prj ∧ 35 ∉ x.c.module ∧ 35 ∉ x.c.ver
  clock : calls.Pairwise (fun x y => x.now.fields ≤ y.now.fields)

/-! ## The calls of a module -/

def Call.Of (prj module : Bytes) (x : Call) : Prop := x.c.prj = prj ∧ x.c.module = module

instance (prj module : Bytes) (x : Call) : Decidable (x.Of prj module) :=
  inferInstanceAs (Decidable (_ ∧ _))

/-- The group of a control, as a byte. -/
def own (index : Int) : UInt8 := uchar (index % 255)

/-- The calls whose messages a control takes: it counts the groups modulo 255. -/
def told (index : Int) (prj module : Bytes) (calls : List Call) : List Call :=
  calls.filter (fun x => x.Of prj module ∧
    own index ∈ x.c.gids.map (fun gid => uchar ((gid.toNat : Int) % 255)))

/-- The calls that are stored under the index of a control. -/
def stored (index : Int) (prj module : Bytes) (calls : List Call) : List Call :=
  calls.filter (fun x => x.Of prj module ∧ own index ∈ x.c.gids)

def Call.package (x : Call) : Bytes × Bytes × Bytes × Bytes :=
  (x.c.ver, x.c.hash, x.c.code, x.c.url)

/-- The last call that a control is told of is stored for it, or one with the same package is, as
the last one, and no other version is stored in the same second. -/
def Settled (index : Int) (prj module : Bytes) (calls : List Call) : Prop :=
  ∀ p, (told index prj module calls).getLast? = some p →
    ∃ q, (stored index prj module calls).getLast? = some q ∧ q.package = p.package ∧
      ∀ r ∈ stored index prj module calls, r.now.fields = q.now.fields → r.c.ver = q.c.ver

/-! ## What is stored -/

def Call.keys (x : Call) : List Bytes :=
  x.c.gids.map (fun gid => pubKey gid x.c.prj x.c.module x.c.ver)

def Call.published (x : Call) : Published :=
  ⟨x.c.hash, x.c.code, x.c.url, strftime x.now, x.c.detail, x.c.usr⟩

/-- The entry that a start makes of a call. -/
def Call.loaded (x : Call) : Entry := x.published.entry x.c.ver

def Call.message (x : Call) : Publication :=
  ⟨x.c.gids.map (fun gid => gid.toNat), x.c.prj, x.c.module, x.c.ver, x.c.hash, x.c.code, x.c.url,
    strftime x.now⟩

variable {index : Int} {calls : List Call} {prj module : Bytes} {x : Call} {keys : List Bytes}

theorem publish_stored (x : Call) (db : StdMap Published) (k : Bytes) :
    (publish x.now x.c db).1.lookup k = if k ∈ x.keys then some x.published else db.lookup k := by
  unfold publish Call.keys
  dsimp only
  generalize x.c.gids = gids
  induction gids generalizing db with
  | nil => simp
  | cons gid gids ih =>
    rw [List.foldl_cons, ih, find_insert, List.map_cons]
    by_cases hrest : k ∈ gids.map (fun gid => pubKey gid x.c.prj x.c.module x.c.ver)
    · rw [if_pos hrest, if_pos (List.mem_cons_of_mem _ hrest)]
    · rw [if_neg hrest]
      by_cases hk : k = pubKey gid x.c.prj x.c.module x.c.ver
      · rw [if_pos hk, if_pos (by rw [hk]; exact List.mem_cons_self)]
        rfl
      · rw [if_neg hk, if_neg (by simp only [List.mem_cons, not_or]; exact ⟨hk, hrest⟩)]

theorem publishAll_concat (calls : List Call) (x : Call) :
    publishAll (calls ++ [x]) =
      ((publish x.now x.c (publishAll calls).1).1, (publishAll calls).2 ++ [x.message]) := by
  unfold publishAll
  rw [List.foldl_append]
  rfl

theorem publishAll_messages (calls : List Call) :
    (publishAll calls).2 = calls.map Call.message := by
  induction calls using List.reverseRecOn with
  | nil => rfl
  | append_singleton calls x ih =>
    rw [publishAll_concat, ih, List.map_append, List.map_cons, List.map_nil]

/-- A key has what the last call that set it left there. -/
theorem publishAll_stored (calls : List Call) (k : Bytes) :
    (publishAll calls).1.lookup k =
      ((calls.filter (fun x => k ∈ x.keys)).getLast?).map Call.published := by
  induction calls using List.reverseRecOn with
  | nil => rfl
  | append_singleton calls x ih =>
    rw [publishAll_concat, publish_stored, List.filter_append]
    by_cases hk : k ∈ x.keys
    · rw [if_pos hk, List.filter_cons_of_pos (by simpa using hk), List.filter_nil,
        List.getLast?_concat]
      rfl
    · rw [if_neg hk, List.filter_cons_of_neg (by simpa using hk), List.filter_nil, List.append_nil,
        ih]

/-- A key without '#' in its parts is cut into these. -/
theorem splitOn_pubKey (gid : UInt8) {ver : Bytes} (hprj : 35 ∉ prj) (hmodule : 35 ∉ module)
    (hver : 35 ∉ ver) :
    (pubKey gid prj module ver).splitOn 35 = [getHexString [gid], prj, module, ver] := by
  unfold pubKey
  rw [List.splitOn_append_cons_self_of_not_mem (hash_notMem_getHexString [gid]),
    List.splitOn_append_cons_self_of_not_mem hprj, List.splitOn_append_cons_self_of_not_mem hmodule,
    List.splitOn_eq_singleton hver]

theorem mem_keys_iff {x : Call} {gid : UInt8} {ver : Bytes}
    (hx : 35 ∉ x.c.prj ∧ 35 ∉ x.c.module ∧ 35 ∉ x.c.ver) (hprj : 35 ∉ prj) (hmodule : 35 ∉ module)
    (hver : 35 ∉ ver) :
    pubKey gid prj module ver ∈ x.keys ↔ gid ∈ x.c.gids ∧ x.Of prj module ∧ x.c.ver = ver := by
  unfold Call.keys Call.Of
  rw [List.mem_map]
  constructor
  · rintro ⟨g, hg, he⟩
    have hsplit := splitOn_pubKey gid hprj hmodule hver
    rw [← he, splitOn_pubKey g hx.1 hx.2.1 hx.2.2] at hsplit
    injection hsplit with hgid hrest
    injection hrest with hp hrest
    injection hrest with hm hrest
    injection hrest with hv _
    have hbytes : [g] = [gid] := getHexString_inj hgid
    cases hbytes
    exact ⟨hg, ⟨hp, hm⟩, hv⟩
  · rintro ⟨hg, ⟨rfl, rfl⟩, rfl⟩
    exact ⟨gid, hg, rfl⟩

/-! ## What a start reads -/

/-- The entry of a key for a place of the table. -/
def entryAt (dc : DeployCtrl) (db_pub : StdMap Published) (pk key : Bytes) : Option Entry :=
  match key.splitOn 35, db_pub.lookup key with
  | [_, prj, mn, ver], some p =>
    if pk = dc.prjModule2Key (some prj) (some mn) then some (p.entry ver) else none
  | _, _ => none

theorem putPublished_publish (publish : StdMap Entry) (pk k : Bytes) (e : Entry) :
    (putPublished publish pk e).lookup k = if k = pk then keepFirst stamp (publish.lookup k) e else
      publish.lookup k := by
  unfold putPublished
  by_cases hk : k = pk
  · subst hk
    rw [if_pos rfl]
    cases hkept : publish.lookup k with
    | none =>
      dsimp only
      rw [find_insert, if_pos rfl]
      rfl
    | some e2 =>
      unfold keepFirst stamp
      dsimp only
      split
      · rw [find_insert, if_pos rfl]
      · exact hkept
  · rw [if_neg hk]
    cases publish.lookup pk with
    | none =>
      dsimp only
      rw [find_insert, if_neg hk]
    | some e2 =>
      dsimp only
      split
      · rw [find_insert, if_neg hk]
      · rfl

/-- Keys that can be read, each with its value. -/
def Readable (db_pub : StdMap Published) (key : Bytes) : Prop :=
  ∃ g prj mn ver p, key.splitOn 35 = [g, prj, mn, ver] ∧ db_pub.lookup key = some p

/-- The loop over such keys is a register for each place of the table. -/
theorem loadPublish_publish {dc : DeployCtrl} {db_pub : StdMap Published}
    (h : ∀ key ∈ keys, Readable db_pub key) (publish : StdMap Entry) (pk : Bytes) :
    (loadPublish dc db_pub keys publish).lookup pk =
      (keys.filterMap (entryAt dc db_pub pk)).foldl (keepFirst stamp) (publish.lookup pk) := by
  induction keys generalizing publish with
  | nil => rfl
  | cons key keys ih =>
    obtain ⟨g, prj, mn, ver, p, hsplit, hp⟩ := h key List.mem_cons_self
    have hrest := ih (fun k hk => h k (List.mem_cons_of_mem key hk))
      (putPublished publish (dc.prjModule2Key (some prj) (some mn)) (p.entry ver))
    unfold loadPublish
    rw [hsplit, hp]
    dsimp only
    rw [hrest, putPublished_publish, List.filterMap_cons]
    have hentry : entryAt dc db_pub pk key =
        if pk = dc.prjModule2Key (some prj) (some mn) then some (p.entry ver) else none := by
      unfold entryAt
      rw [hsplit, hp]
    rw [hentry]
    by_cases hpk : pk = dc.prjModule2Key (some prj) (some mn)
    · rw [if_pos hpk, if_pos hpk]
      rfl
    · rw [if_neg hpk, if_neg hpk]

/-! ## The versions of a module -/

/-- The last call that is stored for a control under a version. -/
def lastOf (index : Int) (prj module ver : Bytes) (calls : List Call) : Option Call :=
  ((stored index prj module calls).filter (fun x => x.c.ver = ver)).getLast?

theorem filter_keys (h : InOrder calls) (hprj : 35 ∉ prj) (hmodule : 35 ∉ module) {ver : Bytes}
    (hver : 35 ∉ ver) :
    calls.filter (fun x => pubKey (own index) prj module ver ∈ x.keys) =
      (stored index prj module calls).filter (fun x => x.c.ver = ver) := by
  unfold stored
  rw [List.filter_filter]
  apply List.filter_congr
  intro x hx
  rw [← Bool.decide_and, decide_eq_decide, mem_keys_iff (h.free x hx) hprj hmodule hver]
  tauto

theorem stored_of_getLast {ver : Bytes} (h : lastOf index prj module ver calls = some x) :
    x ∈ stored index prj module calls ∧ x.c.ver = ver := by
  obtain ⟨hx, hver⟩ := List.mem_filter.mp (List.mem_of_getLast? h)
  exact ⟨hx, of_decide_eq_true hver⟩

theorem mem_stored : x ∈ stored index prj module calls ↔
    x ∈ calls ∧ x.Of prj module ∧ own index ∈ x.c.gids := by
  unfold stored
  rw [List.mem_filter, decide_eq_true_eq]

/-- The key of a module and a version, for a control. -/
def keyOf (index : Int) (x : Call) : Bytes := pubKey (own index) x.c.prj x.c.module x.c.ver

/-- The value of such a key is that of the last call. -/
theorem stored_lookup (h : InOrder calls) (hprj : 35 ∉ prj) (hmodule : 35 ∉ module) {ver : Bytes}
    (hver : 35 ∉ ver) :
    (publishAll calls).1.lookup (pubKey (own index) prj module ver) =
      (lastOf index prj module ver calls).map Call.published := by
  rw [publishAll_stored, filter_keys h hprj hmodule hver]
  rfl

theorem init_key (index : Int) (prj module : Bytes) :
    (init index).prjModule2Key (some prj) (some module) =
      getHexString [own index] ++ 35 :: (prj ++ 35 :: module) := rfl

theorem init_key_inj {prj' module' : Bytes} (hprj : 35 ∉ prj) (hprj' : 35 ∉ prj') :
    (init index).prjModule2Key (some prj) (some module) =
      (init index).prjModule2Key (some prj') (some module') ↔
      prj = prj' ∧ module = module' := by
  rw [init_key, init_key, List.append_cancel_left_eq, List.cons.injEq, append_hash_inj hprj hprj']
  tauto

/-- A key that a control lists is one of its group, and can be read. -/
theorem listed_key {key : Bytes} (hkey : key ∈ (publishAll calls).1.keys)
    (hbegins : (init index).index ++ [35] <+: key) :
    ∃ y ∈ calls, own index ∈ y.c.gids ∧ key = keyOf index y := by
  have hsome : ((publishAll calls).1.lookup key).isSome := AList.lookup_isSome.mpr hkey
  rw [publishAll_stored, Option.isSome_map, Option.isSome_iff_exists] at hsome
  obtain ⟨y, hy⟩ := hsome
  obtain ⟨hcall, hy⟩ := List.mem_filter.mp (List.mem_of_getLast? hy)
  obtain ⟨gid, hgid, rfl⟩ := List.mem_map.mp (of_decide_eq_true hy)
  obtain ⟨rest, hrest⟩ := hbegins
  have hindex : (init index).index = getHexString [own index] := rfl
  unfold pubKey at hrest
  rw [hindex, List.append_assoc, List.singleton_append,
    append_hash_inj (hash_notMem_getHexString _) (hash_notMem_getHexString _)] at hrest
  have hown : [own index] = [gid] := getHexString_inj hrest.1
  injection hown with hown _
  exact ⟨y, hcall, by rw [hown]; exact hgid, by unfold keyOf; rw [hown]⟩

theorem keyOf_mem (hx : x ∈ calls) (hown : own index ∈ x.c.gids) :
    keyOf index x ∈ (publishAll calls).1.keys ∧ (init index).index ++ [35] <+: keyOf index x := by
  constructor
  · have hmem : x ∈ calls.filter (fun y => keyOf index x ∈ y.keys) := by
      rw [List.mem_filter, decide_eq_true_eq]
      exact ⟨hx, List.mem_map_of_mem hown⟩
    apply AList.lookup_isSome.mp
    rw [publishAll_stored, Option.isSome_map, List.getLast?_isSome]
    exact List.ne_nil_of_mem hmem
  · refine ⟨x.c.prj ++ 35 :: (x.c.module ++ 35 :: x.c.ver), ?_⟩
    rw [List.append_assoc]
    rfl

/-- What a start reads for a module: the last call of each version. -/
theorem mem_entries (h : InOrder calls) (hkeys : Listing (init index) (publishAll calls).1 keys)
    (hprj : 35 ∉ prj) (hmodule : 35 ∉ module) (e : Entry) :
    e ∈ keys.filterMap (entryAt (init index) (publishAll calls).1
        ((init index).prjModule2Key (some prj) (some module))) ↔
      ∃ x, lastOf index prj module x.c.ver calls = some x ∧ e = x.loaded := by
  rw [List.mem_filterMap]
  constructor
  · rintro ⟨key, hkey, he⟩
    obtain ⟨hdb, hbegins⟩ := (hkeys.mem key).mp hkey
    obtain ⟨y, hy, hown, rfl⟩ := listed_key hdb hbegins
    obtain ⟨hyprj, hymodule, hyver⟩ := h.free y hy
    unfold entryAt keyOf at he
    rw [splitOn_pubKey _ hyprj hymodule hyver, stored_lookup h hyprj hymodule hyver] at he
    cases hlast : lastOf index y.c.prj y.c.module y.c.ver calls with
    | none =>
      rw [hlast] at he
      cases he
    | some x =>
      rw [hlast] at he
      dsimp only [Option.map_some] at he
      split at he
      · rename_i hpk
        obtain ⟨rfl, rfl⟩ := (init_key_inj hprj hyprj).mp hpk
        obtain ⟨_, hver⟩ := stored_of_getLast hlast
        refine ⟨x, ?_, ?_⟩
        · rw [hver]
          exact hlast
        · injection he with he
          rw [← he, Call.loaded, hver]
      · cases he
  · rintro ⟨x, hlast, rfl⟩
    obtain ⟨hx, _⟩ := stored_of_getLast hlast
    obtain ⟨hcall, ⟨rfl, rfl⟩, hown⟩ := mem_stored.mp hx
    obtain ⟨hxprj, hxmodule, hxver⟩ := h.free x hcall
    refine ⟨keyOf index x, (hkeys.mem _).mpr (keyOf_mem hcall hown), ?_⟩
    unfold entryAt keyOf
    rw [splitOn_pubKey _ hxprj hxmodule hxver, stored_lookup h hxprj hxmodule hxver, hlast]
    dsimp only [Option.map_some]
    rw [if_pos rfl]
    rfl

theorem readable (h : InOrder calls) (hkeys : Listing (init index) (publishAll calls).1 keys) :
    ∀ key ∈ keys, Readable (publishAll calls).1 key := by
  intro key hkey
  obtain ⟨hdb, hbegins⟩ := (hkeys.mem key).mp hkey
  obtain ⟨y, hy, _, rfl⟩ := listed_key hdb hbegins
  obtain ⟨hyprj, hymodule, hyver⟩ := h.free y hy
  obtain ⟨p, hp⟩ := Option.isSome_iff_exists.mp (AList.lookup_isSome.mpr hdb)
  exact ⟨_, _, _, _, p, splitOn_pubKey _ hyprj hymodule hyver, hp⟩

theorem restarted_lookup (h : InOrder calls)
    (hkeys : Listing (init index) (publishAll calls).1 keys) (pk : Bytes) :
    (restarted index calls keys).lookup pk =
      (keys.filterMap (entryAt (init index) (publishAll calls).1 pk)).foldl
        (keepFirst stamp) none :=
  loadPublish_publish (readable h hkeys) ∅ pk

/-! ## What a running control has -/

theorem mem_groups : (init index).index ∈ x.message.groups ↔
    own index ∈ x.c.gids.map (fun gid => uchar ((gid.toNat : Int) % 255)) := by
  unfold Publication.groups Call.message
  rw [List.map_map, List.mem_map, List.mem_map]
  constructor
  · rintro ⟨gid, hgid, he⟩
    have hown : [uchar ((gid.toNat : Int) % 255)] = [own index] := getHexString_inj he
    injection hown with hown _
    exact ⟨gid, hgid, hown⟩
  · rintro ⟨gid, hgid, he⟩
    refine ⟨gid, hgid, ?_⟩
    rw [Function.comp_apply, he]
    rfl

theorem running_lookup (h : InOrder calls) (hprj : 35 ∉ prj) :
    (running index calls).lookup ((init index).prjModule2Key (some prj) (some module)) =
      ((told index prj module calls).getLast?).map (fun x => x.message.entry) := by
  have hmessages : ((calls.map Call.message).filter (fun p => (init index).index ∈ p.groups)).filter
      (fun p => (init index).prjModule2Key (some prj) (some module) = p.key (init index)) =
      (told index prj module calls).map Call.message := by
    unfold told
    rw [List.filter_filter, List.filter_map]
    congr 1
    apply List.filter_congr
    intro x hx
    obtain ⟨hxprj, _, _⟩ := h.free x hx
    have hkey : (init index).prjModule2Key (some prj) (some module) = x.message.key (init index) ↔
        prj = x.c.prj ∧ module = x.c.module := init_key_inj hprj hxprj
    rw [Function.comp_apply, ← Bool.decide_and, decide_eq_decide, mem_groups, hkey]
    unfold Call.Of
    tauto
  have hmine : ∀ p ∈ (calls.map Call.message).filter (fun p => (init index).index ∈ p.groups),
      (init index).index ∈ p.groups := by
    intro p hp
    exact of_decide_eq_true (List.mem_filter.mp hp).2
  have hsorted : ((told index prj module calls).map (fun x => x.message.entry)).Pairwise
      (fun x y => stamp x ≤ stamp y) := by
    rw [List.pairwise_map]
    apply List.Pairwise.filter
    apply h.clock.imp
    intro x y hxy
    exact (strftime_le_iff x.now y.now).mpr hxy
  unfold running
  rw [publishAll_messages, deliver_mine, deliver_publish hmine, hmessages, List.map_map]
  exact (foldl_keepLast_sorted hsorted).trans (List.getLast?_map)

/-! ## The last calls -/

/-- A call that is stored for a control is told to it. -/
theorem told_of_stored (h : x ∈ stored index prj module calls) :
    x ∈ told index prj module calls := by
  obtain ⟨hcall, hof, hown⟩ := mem_stored.mp h
  unfold told
  rw [List.mem_filter, decide_eq_true_eq]
  refine ⟨hcall, hof, List.mem_map.mpr ⟨own index, hown, ?_⟩⟩
  -- the group of a control is below 255
  have hlt : (own index).toNat < 255 := by
    unfold own uchar
    rw [UInt8.toNat_ofNat']
    omega
  apply UInt8.toNat_inj.mp
  unfold uchar
  rw [UInt8.toNat_ofNat']
  omega

theorem latest_of_getLast {xs : List Call} {q : Call}
    (h : xs.Pairwise (fun x y => x.now.fields ≤ y.now.fields)) (hq : xs.getLast? = some q) :
    ∀ r ∈ xs, r.now.fields ≤ q.now.fields := by
  obtain ⟨ys, rfl⟩ := List.getLast?_eq_some_iff.mp hq
  intro r hr
  rcases List.mem_append.mp hr with hr | hr
  · exact (List.pairwise_append.mp h).2.2 r hr q (List.mem_singleton_self q)
  · rw [List.mem_singleton.mp hr]

/-- The last call of a module is the last of its version. -/
theorem lastOf_getLast {q : Call} (hq : (stored index prj module calls).getLast? = some q) :
    lastOf index prj module q.c.ver calls = some q := by
  unfold lastOf
  obtain ⟨ys, hys⟩ := List.getLast?_eq_some_iff.mp hq
  rw [hys, List.filter_append, List.filter_cons_of_pos (by simp), List.filter_nil,
    List.getLast?_concat]

/-- A version that is stored has a last call, and that is no earlier. -/
theorem lastOf_stored (h : InOrder calls) (hx : x ∈ stored index prj module calls) :
    ∃ y, lastOf index prj module x.c.ver calls = some y ∧ x.now.fields ≤ y.now.fields := by
  have hmem : x ∈ (stored index prj module calls).filter (fun y => y.c.ver = x.c.ver) := by
    rw [List.mem_filter, decide_eq_true_eq]
    exact ⟨hx, rfl⟩
  obtain ⟨y, hy⟩ := Option.isSome_iff_exists.mp (List.getLast?_isSome.mpr (List.ne_nil_of_mem hmem))
  exact ⟨y, hy, latest_of_getLast ((h.clock.filter _).filter _) hy x hmem⟩

theorem stamp_loaded_le {y : Call} : stamp x.loaded ≤ stamp y.loaded ↔
    x.now.fields ≤ y.now.fields :=
  strftime_le_iff x.now y.now

theorem content_loaded {y : Call} : content x.loaded = content y.message.entry ↔
    x.package = y.package := by
  unfold content Call.loaded Call.published Published.entry Call.message
    Publication.entry Call.package
  simp

/-- The keys in the order in which they are stored. -/
def allKeys (index : Int) (calls : List Call) : List Bytes :=
  (publishAll calls).1.keys.filter (fun key => decide ((init index).index ++ [35] <+: key))

theorem listing_all (index : Int) (calls : List Call) :
    Listing (init index) (publishAll calls).1 (allKeys index calls) := by
  constructor
  · exact (publishAll calls).1.nodupKeys.filter _
  · intro key
    unfold allKeys
    rw [List.mem_filter, decide_eq_true_eq]

theorem listing_first {key : Bytes} (h : key ∈ allKeys index calls) :
    Listing (init index) (publishAll calls).1 (key :: (allKeys index calls).erase key) := by
  obtain ⟨hnodup, hmem⟩ := listing_all index calls
  constructor
  · exact List.nodup_cons.mpr ⟨hnodup.not_mem_erase, hnodup.erase _⟩
  · intro k
    rw [← hmem, List.mem_cons, hnodup.mem_erase_iff]
    constructor
    · rintro (rfl | ⟨_, hin⟩)
      · exact h
      · exact hin
    · intro hin
      by_cases he : k = key
      · exact Or.inl he
      · exact Or.inr ⟨he, hin⟩

/-- A last call of a version that nothing later is stored behind is what a start has, when Redis
lists its key first. -/
theorem listed_first (h : InOrder calls) (hprj : 35 ∉ prj) (hmodule : 35 ∉ module)
    (hx : lastOf index prj module x.c.ver calls = some x)
    (hlatest : ∀ r ∈ stored index prj module calls, r.now.fields ≤ x.now.fields) :
    ∃ keys, Listing (init index) (publishAll calls).1 keys ∧
      (restarted index calls keys).lookup ((init index).prjModule2Key (some prj) (some module)) =
        some x.loaded := by
  obtain ⟨hstored, _⟩ := stored_of_getLast hx
  obtain ⟨hcall, ⟨rfl, rfl⟩, hown⟩ := mem_stored.mp hstored
  have hfirst := ((listing_all index calls).mem _).mpr (keyOf_mem hcall hown)
  have hkeys := listing_first hfirst
  refine ⟨_, hkeys, ?_⟩
  have hentry : entryAt (init index) (publishAll calls).1
      ((init index).prjModule2Key (some x.c.prj) (some x.c.module))
      (keyOf index x) = some x.loaded := by
    obtain ⟨hxprj, hxmodule, hxver⟩ := h.free x hcall
    unfold entryAt keyOf
    rw [splitOn_pubKey _ hxprj hxmodule hxver, stored_lookup h hxprj hxmodule hxver, hx]
    dsimp only [Option.map_some]
    rw [if_pos rfl]
    rfl
  rw [restarted_lookup h hkeys, List.filterMap_cons_some hentry]
  apply foldl_keepFirst_cons
  intro e he
  have he' : e ∈ (keyOf index x :: (allKeys index calls).erase (keyOf index x)).filterMap
      (entryAt (init index) (publishAll calls).1
      ((init index).prjModule2Key (some x.c.prj) (some x.c.module))) := by
    rw [List.filterMap_cons_some hentry]
    exact List.mem_cons_of_mem _ he
  obtain ⟨y, hy, rfl⟩ := (mem_entries h hkeys hprj hmodule e).mp he'
  obtain ⟨hy, _⟩ := stored_of_getLast hy
  exact stamp_loaded_le.mpr (hlatest y hy)

/-! ## The law -/

/-- What a start has for a settled module is its last package. -/
theorem restarted_settled (h : InOrder calls) (hprj : 35 ∉ prj) (hmodule : 35 ∉ module)
    (hkeys : Listing (init index) (publishAll calls).1 keys) {q : Call}
    (hq : (stored index prj module calls).getLast? = some q)
    (halone : ∀ r ∈ stored index prj module calls, r.now.fields = q.now.fields →
      r.c.ver = q.c.ver) :
    (restarted index calls keys).lookup ((init index).prjModule2Key (some prj) (some module)) =
      some q.loaded := by
  have hmem := (mem_entries h hkeys hprj hmodule q.loaded).mpr ⟨q, lastOf_getLast hq, rfl⟩
  have hleft : ∃ w, (keys.filterMap (entryAt (init index) (publishAll calls).1
      ((init index).prjModule2Key (some prj) (some module)))).foldl (keepFirst stamp) none =
          some w :=
    foldl_isSome keeps_keepFirst (Or.inl (List.ne_nil_of_mem hmem))
  obtain ⟨w, hw⟩ := hleft
  obtain ⟨hfrom, hgreatest⟩ := foldl_some keeps_keepFirst hw
  have hentry := hfrom.resolve_right (by simp)
  obtain ⟨x, hx, rfl⟩ := (mem_entries h hkeys hprj hmodule w).mp hentry
  -- it is as late as the last call, so it is of its version
  obtain ⟨hstored, _⟩ := stored_of_getLast hx
  have hle : x.now.fields ≤ q.now.fields := latest_of_getLast (h.clock.filter _) hq x hstored
  have hge : q.now.fields ≤ x.now.fields := stamp_loaded_le.mp (hgreatest.all_le _ hmem)
  have hver := halone x hstored (le_antisymm hle hge)
  rw [hver, lastOf_getLast hq] at hx
  cases hx
  rw [restarted_lookup h hkeys, hw]

theorem restarted_nothing (h : InOrder calls) (hprj : 35 ∉ prj) (hmodule : 35 ∉ module)
    (hkeys : Listing (init index) (publishAll calls).1 keys)
    (hnone : stored index prj module calls = []) :
    (restarted index calls keys).lookup ((init index).prjModule2Key (some prj) (some module)) =
      none := by
  have hnil : keys.filterMap (entryAt (init index) (publishAll calls).1
      ((init index).prjModule2Key (some prj) (some module))) = [] := by
    rw [List.eq_nil_iff_forall_not_mem]
    intro e he
    obtain ⟨x, hx, _⟩ := (mem_entries h hkeys hprj hmodule e).mp he
    obtain ⟨hstored, _⟩ := stored_of_getLast hx
    rw [hnone] at hstored
    cases hstored
  rw [restarted_lookup h hkeys, hnil]
  rfl

/-- A control has the same package for a module after a start just when the module is settled. -/
theorem a_start_has_what_is_settled (h : InOrder calls) (hprj : 35 ∉ prj) (hmodule : 35 ∉ module) :
    SameAfterStart index calls prj module ↔ Settled index prj module calls := by
  unfold SameAfterStart
  rw [running_lookup h hprj, Option.map_map]
  constructor
  · intro hsame p hp
    rw [hp] at hsame
    -- some package is loaded, so some call is stored
    have hstored : stored index prj module calls ≠ [] := by
      intro hnil
      have hnone := hsame _ (listing_all index calls)
      rw [restarted_nothing h hprj hmodule (listing_all index calls) hnil] at hnone
      cases hnone
    obtain ⟨q, hq⟩ := Option.isSome_iff_exists.mp (List.getLast?_isSome.mpr hstored)
    have hlatest := latest_of_getLast (h.clock.filter _) hq
    obtain ⟨keys, hkeys, hlookup⟩ := listed_first h hprj hmodule (lastOf_getLast hq) hlatest
    have hqp := hsame keys hkeys
    rw [hlookup] at hqp
    have hpackage := content_loaded.mp (Option.some.inj hqp)
    refine ⟨q, hq, hpackage, fun r hr hsecond => ?_⟩
    -- another version of the same second may be listed first
    obtain ⟨y, hy, hle⟩ := lastOf_stored h hr
    obtain ⟨_, hver⟩ := stored_of_getLast hy
    obtain ⟨keys', hkeys', hlookup'⟩ :=
      listed_first (x := y) h hprj hmodule (by rw [hver]; exact hy)
      (fun z hz => le_trans (hlatest z hz) (by rw [← hsecond]; exact hle))
    have hyp := hsame keys' hkeys'
    rw [hlookup'] at hyp
    have hpackage' := content_loaded.mp (Option.some.inj hyp)
    have hsamever := congrArg Prod.fst (hpackage'.trans hpackage.symm)
    exact hver.symm.trans hsamever
  · intro hsettled keys hkeys
    cases hlast : (told index prj module calls).getLast? with
    | none =>
      have hnil : stored index prj module calls = [] := by
        rw [List.eq_nil_iff_forall_not_mem]
        intro x hx
        rw [List.getLast?_eq_none_iff] at hlast
        have htold := told_of_stored hx
        rw [hlast] at htold
        cases htold
      rw [restarted_nothing h hprj hmodule hkeys hnil]
      rfl
    | some p =>
      obtain ⟨q, hq, hpackage, halone⟩ := hsettled p hlast
      rw [restarted_settled h hprj hmodule hkeys hq halone]
      exact congrArg some (content_loaded.mpr hpackage)

/-! ## A group that is lost, and two versions in one second -/

/-- A second of the first day of 2020. -/
def second (n : Nat) (h : n < 60) : Now :=
  ⟨2020, 1, 1, 0, 0, n, by decide, by decide, by decide, by decide, by decide, h⟩

/-- A version of one module for a group. -/
def version (gid : UInt8) (ver : Bytes) : Publishing :=
  ⟨[112], [109], ver, [gid], [], [99], [104], [117], [97]⟩

theorem settled_in_the_next_second :
    SameAfterStart 1
      [⟨second 0 (by decide), version 1 [49]⟩, ⟨second 1 (by decide), version 1 [50]⟩] [112] [109] ↔
      Settled 1 [112] [109]
        [⟨second 0 (by decide), version 1 [49]⟩, ⟨second 1 (by decide), version 1 [50]⟩] :=
  a_start_has_what_is_settled ⟨by decide, by decide⟩ (by decide) (by decide)

/-- Group 255 is counted as the first one, under whose index nothing is stored. Of two versions
that are published in one second the first one may be read first, and stays. -/
theorem a_start_may_have_another_package :
    ¬ SameAfterStart 0 [⟨second 0 (by decide), version 255 [49]⟩] [112] [109] ∧
    ¬ SameAfterStart 1 [⟨second 0 (by decide), version 1 [49]⟩,
      ⟨second 0 (by decide), version 1 [50]⟩] [112] [109] := by
  constructor
  · intro h
    have hsame := h _ (listing_all 0 [⟨second 0 (by decide), version 255 [49]⟩])
    revert hsame
    decide
  · intro h
    have hfirst : pubKey 1 [112] [109] [49] ∈
        allKeys 1 [⟨second 0 (by decide), version 1 [49]⟩,
          ⟨second 0 (by decide), version 1 [50]⟩] := by decide
    have hsame := h _ (listing_first hfirst)
    revert hsame
    decide

end publish_restart
