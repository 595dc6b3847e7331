-- The keys of `db_pub`, which `publish` puts together from a group and three names, and the readers
-- that take them apart: `InitDb`, and the queries of the REST service, which find them by patterns.
-- The law says for which names the readers get back what was put in, and get nothing of another
-- module.
import Aods.Glob
import Aods.PublishRestart

open machine std_map glob
open util.helper
open py.clock py.deploy_db py.db_engine
open publish_restart (splitOn_pubKey)

namespace py.composite_keys

/-! ## Keys and patterns -/

/-- What `publish` makes a key from. -/
structure Key where
  gid : UInt8
  prj : Bytes
  module : Bytes
  ver : Bytes
  deriving DecidableEq

def Key.text (k : Key) : Bytes := pubKey k.gid k.prj k.module k.ver

/-- The four parts of `key.decode().split('#')`. Another number of parts raises an exception. -/
def fourOf (key : Bytes) : Option (Bytes × Bytes × Bytes × Bytes) :=
  match key.splitOn 35 with
  | [gid, prj, module, ver] => some (gid, prj, module, ver)
  | _ => none

/-- "*#%s#%s#*". -/
def modulePattern (prj module : Bytes) : Bytes := 42 :: 35 :: (prj ++ 35 :: (module ++ [35, 42]))

/-- "*#%s#%s#%s". -/
def logPattern (prj module ver : Bytes) : Bytes := 42 :: 35 :: (prj ++ 35 :: (module ++ 35 :: ver))

/-- The pattern of `InitDb`: "%s#*". -/
def indexPattern (index : Bytes) : Bytes := index ++ [35, 42]

/-- `int(gid, 16)` of hex digits. -/
def int16 (gid : Bytes) : Option Nat :=
  if gid ≠ [] ∧ gid.all (fun c => (48 ≤ c ∧ c ≤ 57) ∨ (97 ≤ c ∧ c ≤ 102) ∨ (65 ≤ c ∧ c ≤ 70)) then
    some (gid.foldl (fun n c => 16 * n + (hexData c).toNat) 0)
  else none

/-! ## The queries -/

/-- A turn of the loop of `queryProjectModules`. -/
def addModule (prjs : StdMap (List Bytes)) (key : Bytes) : Option (StdMap (List Bytes)) :=
  match fourOf key with
  | none => none
  | some (_, prj, module, _) =>
    match prjs.lookup prj with
    | none => some (prjs.insert prj [module])
    | some modules =>
      some (if modules.contains module then prjs else prjs.insert prj (modules ++ [module]))

/-- `queryProjectModules`, with the keys of `db_pub` as Redis lists them. An exception ends it with
nothing. -/
def queryProjectModules (keys : List Bytes) : StdMap (List Bytes) :=
  (keys.foldlM addModule ∅).getD ∅

/-- What `queryModuleInfo` has for a version. -/
structure VersionInfo where
  dt : Bytes
  gid : Bytes
  hash : Bytes
  url : Bytes
  detail : Bytes
  usr : Bytes
  deriving DecidableEq

/-- Another group has the version too. -/
def VersionInfo.merge (i : VersionInfo) (dt gid : Bytes) : VersionInfo :=
  { i with dt := if i.dt < dt then dt else i.dt, gid := i.gid ++ [44, 32] ++ gid }

/-- A turn of the loop of `queryModuleInfo`. -/
def addVersion (db_pub : StdMap Published) (vis : List (Bytes × VersionInfo)) (key : Bytes) :
    Option (List (Bytes × VersionInfo)) :=
  match fourOf key, db_pub.lookup key with
  | some (gid, _, _, v), some p =>
    if (vis.map (·.1)).contains v then
      some (vis.map (fun e => if e.1 = v then (v, e.2.merge p.dt gid) else e))
    else some (vis ++ [(v, ⟨p.dt, gid, p.hash, p.url, p.detail, p.usr⟩)])
  | _, _ => none

/-- `queryModuleInfo`. -/
def queryModuleInfo (g : Bytes → Bytes → Bool) (db_pub : StdMap Published) (keys : List Bytes)
    (prj module : Bytes) :
    List (Bytes × VersionInfo) :=
  (((keys.filter (g (modulePattern prj module))).foldlM (addVersion db_pub) []).getD []).mergeSort
    (fun a b => a.2.dt ≤ b.2.dt)

/-- A turn of the first loop of `queryUpdateDetail`. -/
def addGroup (db_pub : StdMap Published) (ver : Bytes) (pubResult : List (Nat × Published))
    (key : Bytes) :
    Option (List (Nat × Published)) :=
  match fourOf key with
  | none => none
  | some (gid, _, _, v) =>
    match int16 gid, db_pub.lookup key with
    | some gid, some p => some (if v = ver then pubResult ++ [(gid, p)] else pubResult)
    | _, _ => none

/-- A turn of the second one, over the keys of `db_log`. A server that was deleted is passed
over. -/
def addResult (db_log : StdMap Bytes) (db_mgr : StdMap Srv)
    (result : List (Bytes × Bytes × Bytes × Bytes)) (key : Bytes) :
    Option (List (Bytes × Bytes × Bytes × Bytes)) :=
  let rid := (key.splitOn 35).headD []
  match (db_log.lookup key).map (fun log => log.splitOn 35) with
  | some [rlt, dt] =>
    match db_mgr.lookup rid with
    | none => some result
    | some srv => some (result ++ [(rid, srv.flag, rlt, dt)])
  | _ => none

/-- `queryUpdateDetail`. -/
def queryUpdateDetail (g : Bytes → Bytes → Bool) (db_pub : StdMap Published) (keys : List Bytes)
    (db_log : StdMap Bytes) (log_keys : List Bytes) (db_mgr : StdMap Srv) (prj module ver : Bytes) :
    List (Nat × Published) × List (Bytes × Bytes × Bytes × Bytes) :=
  match (keys.filter (g (modulePattern prj module))).foldlM (addGroup db_pub ver) [],
      (log_keys.filter (g (logPattern prj module ver))).foldlM (addResult db_log db_mgr) [] with
  | some pubResult, some result => (pubResult, result)
  | _, _ => ([], [])

/-! ## What is asked of a key -/

/-- A reader that lists by the pattern comes by the key, and splits it into what it was made
from. -/
def Splits (g : Bytes → Bytes → Bool) (pattern : Bytes) (k : Key) : Prop :=
  g pattern k.text = true ∧ fourOf k.text = some (getHexString [k.gid], k.prj, k.module, k.ver)

/-- So do all readers, the first one with the index of the group, and the last one gets its
number. -/
structure ReadBack (g : Bytes → Bytes → Bool) (k : Key) : Prop where
  initDb : Splits g (indexPattern (getHexString [k.gid])) k
  queryProjectModules : Splits g [42] k
  queryModuleInfo : Splits g (modulePattern k.prj k.module) k
  queryUpdateDetail : Splits g (modulePattern k.prj k.module) k ∧
    int16 (getHexString [k.gid]) = some k.gid.toNat

/-- If the modules are two, they have two places in the table of a control, and the patterns for the
one find no key of the other, of what is published and of the logs. -/
def Apart (g : Bytes → Bytes → Bool) (k k' : Key) : Prop :=
  (k.prj, k.module) ≠ (k'.prj, k'.module) →
    (∀ dc : DeployCtrl, dc.prjModule2Key (some k.prj) (some k.module) ≠
      dc.prjModule2Key (some k'.prj) (some k'.module)) ∧
    g (modulePattern k.prj k.module) k'.text = false ∧
    ∀ rid, g (logPattern k.prj k.module k.ver)
      (ridPrjModuleKeyVersion (getHexString rid) (some k'.prj) (some k'.module) (some k'.ver)) =
        false

/-- The names are without '#'. -/
structure HashFree (k : Key) : Prop where
  prj : 35 ∉ k.prj
  module : 35 ∉ k.module
  ver : 35 ∉ k.ver

/-- And those of the project and of the module are plain. -/
structure PlainNames (k : Key) : Prop where
  free : HashFree k
  prj : Plain k.prj
  module : Plain k.module

/-! ## Parts -/

theorem length_splitOn (b : UInt8) (s : Bytes) : (s.splitOn b).length = s.count b + 1 := by
  induction s with
  | nil => rfl
  | cons c s ih =>
    rw [List.splitOn_cons_eq_if_modifyHead]
    by_cases h : c = b
    · rw [if_pos (by simpa using h), List.length_cons, ih, h, List.count_cons_self]
    · rw [if_neg (by simpa using h), List.length_modifyHead, ih, List.count_cons_of_ne h]

theorem fourOf_some {key gid prj module ver : Bytes} :
    fourOf key = some (gid, prj, module, ver) ↔ key.splitOn 35 = [gid, prj, module, ver] := by
  unfold fourOf
  split
  · rename_i h
    rw [h]
    simp
  · rename_i h
    constructor
    · intro he
      cases he
    · intro he
      exact absurd he (h gid prj module ver)

theorem of_splitOn_one {b : UInt8} {s : Bytes} (h : (s.splitOn b).length = 1) : b ∉ s := by
  rw [length_splitOn] at h
  exact List.count_eq_zero.mp (by omega)

theorem fourOf_text (k : Key) :
    fourOf k.text = some (getHexString [k.gid], k.prj, k.module, k.ver) ↔ HashFree k := by
  rw [fourOf_some]
  constructor
  · intro h
    have hlen := congrArg List.length h
    unfold Key.text pubKey at hlen
    rw [List.splitOn_append_cons_self_of_not_mem (hash_notMem_getHexString _),
      List.splitOn_append_cons_self, List.splitOn_append_cons_self, List.length_cons,
      List.length_append, List.length_append] at hlen
    have hprj := length_splitOn 35 k.prj
    have hmodule := length_splitOn 35 k.module
    have hver := length_splitOn 35 k.ver
    simp only [List.length_cons, List.length_nil] at hlen
    exact ⟨of_splitOn_one (by omega), of_splitOn_one (by omega), of_splitOn_one (by omega)⟩
  · intro h
    exact splitOn_pubKey k.gid h.prj h.module h.ver

/-- Three '#' are in one place only. -/
theorem parts_inj {a b prj module gid prj' module' ver : Bytes} (hprj : 35 ∉ prj)
    (hmodule : 35 ∉ module) (hgid : 35 ∉ gid) (hprj' : 35 ∉ prj') (hmodule' : 35 ∉ module')
    (hver : 35 ∉ ver)
    (h : a ++ 35 :: (prj ++ 35 :: (module ++ 35 :: b)) =
      gid ++ 35 :: (prj' ++ 35 :: (module' ++ 35 :: ver))) :
    a = gid ∧ prj = prj' ∧ module = module' ∧ b = ver := by
  have hsplit := congrArg (fun s => s.splitOn 35) h
  rw [List.splitOn_append_cons_self, List.splitOn_append_cons_self_of_not_mem hprj,
    List.splitOn_append_cons_self_of_not_mem hmodule, List.splitOn_append_cons_self_of_not_mem hgid,
    List.splitOn_append_cons_self_of_not_mem hprj',
    List.splitOn_append_cons_self_of_not_mem hmodule', List.splitOn_eq_singleton hver] at hsplit
  have hlen := congrArg List.length hsplit
  simp only [List.length_append, List.length_cons, List.length_nil, length_splitOn] at hlen
  have ha : 35 ∉ a := List.count_eq_zero.mp (by omega)
  have hb : 35 ∉ b := List.count_eq_zero.mp (by omega)
  rw [List.splitOn_eq_singleton ha, List.splitOn_eq_singleton hb] at hsplit
  simp only [List.cons_append, List.nil_append, List.cons.injEq, and_true] at hsplit
  exact hsplit

/-! ## Plain names -/

variable {g : Bytes → Bytes → Bool} (hg : Lawful g)

/-- What a pattern has between its stars, '#' and all. -/
theorem plain_middle {prj module : Bytes} (hprj : Plain prj) (hmodule : Plain module) :
    Plain (35 :: (prj ++ 35 :: (module ++ [35]))) := by
  have hhash : Plain [35] := by
    intro b hb
    rw [List.mem_singleton.mp hb]
    decide
  have hall := hhash.append (hprj.append (hhash.append (hmodule.append hhash)))
  simpa using hall

theorem plain_index (gid : UInt8) : Plain (getHexString [gid] ++ [35]) := by
  have hchar : ∀ b : UInt8, hexChar b ∉ special := by
    intro b
    have h : ∀ n < 256, hexChar (UInt8.ofNat n) ∉ special := by decide +kernel
    have hb := h b.toNat b.toNat_lt
    rwa [UInt8.ofNat_toNat] at hb
  intro b hb
  simp only [getHexString, List.cons_append, List.nil_append, List.mem_cons, List.not_mem_nil,
    or_false] at hb
  rcases hb with rfl | rfl | rfl
  · exact hchar _
  · exact hchar _
  · decide

theorem int16_index (gid : UInt8) : int16 (getHexString [gid]) = some gid.toNat := by
  have h : ∀ n < 256, int16 (getHexString [UInt8.ofNat n]) = some n := by decide +kernel
  have hgid := h gid.toNat gid.toNat_lt
  rwa [UInt8.ofNat_toNat] at hgid

include hg

theorem modulePattern_iff {prj module : Bytes} (hprj : Plain prj) (hmodule : Plain module)
    (hprj' : 35 ∉ prj) (hmodule' : 35 ∉ module) {k : Key} (hk : HashFree k) :
    g (modulePattern prj module) k.text = true ↔ k.prj = prj ∧ k.module = module := by
  have hpattern : modulePattern prj module =
      42 :: (35 :: (prj ++ 35 :: (module ++ [35])) ++ [42]) := by
    simp [modulePattern]
  rw [hpattern, hg.between (plain_middle hprj hmodule)]
  constructor
  · rintro ⟨a, r, he, _⟩
    have he' : a ++ 35 :: (prj ++ 35 :: (module ++ 35 :: r)) =
        getHexString [k.gid] ++ 35 :: (k.prj ++ 35 :: (k.module ++ 35 :: k.ver)) := by
      rw [← pubKey, ← Key.text, he]
      simp
    obtain ⟨_, h1, h2, _⟩ :=
      parts_inj hprj' hmodule' (hash_notMem_getHexString _) hk.prj hk.module hk.ver he'
    exact ⟨h1.symm, h2.symm⟩
  · rintro ⟨rfl, rfl⟩
    exact ⟨getHexString [k.gid], k.ver, by simp [Key.text, pubKey], hg.star_nil _⟩

theorem indexPattern_own (k : Key) : g (indexPattern (getHexString [k.gid])) k.text = true := by
  have hindex : indexPattern (getHexString [k.gid]) = getHexString [k.gid] ++ [35] ++ [42] := by
    simp [indexPattern]
  rw [hindex, hg.plain (plain_index k.gid)]
  exact ⟨k.prj ++ 35 :: (k.module ++ 35 :: k.ver), by simp [Key.text, pubKey], hg.star_nil _⟩

theorem logPattern_other {k : Key} (h : PlainNames k) {k' : Key} (hk' : HashFree k') (rid : Bytes)
    (hmatch : g (logPattern k.prj k.module k.ver)
      (ridPrjModuleKeyVersion (getHexString rid) (some k'.prj) (some k'.module) (some k'.ver)) =
      true) :
    k.prj = k'.prj ∧ k.module = k'.module := by
  have hpattern : logPattern k.prj k.module k.ver =
      42 :: (35 :: (k.prj ++ 35 :: (k.module ++ [35])) ++ k.ver) := by
    simp [logPattern]
  rw [hpattern, hg.between (plain_middle h.prj h.module)] at hmatch
  obtain ⟨a, r, he, _⟩ := hmatch
  have he' : a ++ 35 :: (k.prj ++ 35 :: (k.module ++ 35 :: r)) =
      getHexString rid ++ 35 :: (k'.prj ++ 35 :: (k'.module ++ 35 :: k'.ver)) := by
    unfold ridPrjModuleKeyVersion pyText at he
    rw [Option.getD_some, Option.getD_some, Option.getD_some] at he
    rw [he]
    simp
  obtain ⟨_, h1, h2, _⟩ :=
    parts_inj h.free.prj h.free.module (hash_notMem_getHexString _) hk'.prj hk'.module hk'.ver he'
  exact ⟨h1, h2⟩

omit hg

/-! ## Other names -/

theorem first_hash {s t a r : Bytes} (hs : 35 ∉ s) (h : s ++ 35 :: t = a ++ 35 :: r) :
    (a = s ∧ r = t) ∨ ∃ a', a = s ++ 35 :: a' ∧ t = a' ++ 35 :: r := by
  rcases List.append_eq_append_iff.mp h with ⟨c, rfl, hc⟩ | ⟨c, rfl, hc⟩
  · cases c with
    | nil =>
      obtain ⟨_, rfl⟩ := List.cons.inj hc
      exact Or.inl ⟨by rw [List.append_nil], rfl⟩
    | cons x c =>
      obtain ⟨rfl, rfl⟩ := List.cons.inj hc
      exact Or.inr ⟨c, rfl, rfl⟩
  · cases c with
    | nil =>
      obtain ⟨_, rfl⟩ := List.cons.inj hc
      exact Or.inl ⟨by rw [List.append_nil], rfl⟩
    | cons x c =>
      obtain ⟨rfl, _⟩ := List.cons.inj hc
      exact absurd (List.mem_append_right a List.mem_cons_self) hs

/-- Modules with names that can be read have places of their own in the table of a control. -/
theorem prjModule2Key_inj {dc : DeployCtrl} {k k' : Key} (hk : HashFree k) (hk' : HashFree k')
    (h : dc.prjModule2Key (some k.prj) (some k.module) =
      dc.prjModule2Key (some k'.prj) (some k'.module)) :
    k.prj = k'.prj ∧ k.module = k'.module := by
  unfold DeployCtrl.prjModule2Key pyText at h
  have hnames := (List.cons.inj (List.append_cancel_left h)).2
  rw [Option.getD_some, Option.getD_some, Option.getD_some, Option.getD_some] at hnames
  rcases first_hash hk.prj hnames with ⟨h1, h2⟩ | ⟨a, h1, _⟩
  · exact ⟨h1.symm, h2.symm⟩
  · exact absurd (by simp [h1]) hk'.prj

theorem other_names {prj module b o e : Bytes} {x : UInt8} (hprj : 35 ∉ prj) (hmodule : 35 ∉ module)
    (hx : x ≠ 35) (ho : 35 ∉ o) (hox : o ≠ [x]) (h : prj ++ 35 :: module = b ++ (o ++ e)) :
    ∃ prj' module', 35 ∉ prj' ∧ 35 ∉ module' ∧ (prj', module') ≠ (prj, module) ∧
      b ++ x :: e = prj' ++ 35 :: module' := by
  have hother : ∀ d, d ++ x :: e ≠ d ++ (o ++ e) := by
    intro d he
    have he' : [x] ++ e = o ++ e := List.append_cancel_left he
    exact hox (List.append_cancel_right he').symm
  -- the byte is in the project
  have hfront : ∀ c, prj = b ++ c → o ++ e = c ++ 35 :: module →
      ∃ prj' module', 35 ∉ prj' ∧ 35 ∉ module' ∧ (prj', module') ≠ (prj, module) ∧
          b ++ x :: e = prj' ++ 35 :: module' := by
    rintro c rfl hc
    obtain ⟨d, rfl, rfl⟩ : ∃ d, c = o ++ d ∧ e = d ++ 35 :: module := by
      rcases List.append_eq_append_iff.mp hc with ⟨d, hd⟩ | ⟨d, rfl, hd⟩
      · exact ⟨d, hd⟩
      · cases d with
        | nil => exact ⟨[], by simp, by simpa using hd.symm⟩
        | cons y d =>
          obtain ⟨rfl, _⟩ := List.cons.inj hd
          exact absurd (List.mem_append_right c List.mem_cons_self) ho
    refine ⟨b ++ x :: d, module, ?_, hmodule, ?_, by simp⟩
    · simp only [List.mem_append, List.mem_cons, not_or] at hprj ⊢
      exact ⟨hprj.1, fun he => hx he.symm, hprj.2.2⟩
    · intro he
      have hsame := congrArg Prod.fst he
      have hsame' : [x] ++ d = o ++ d := List.append_cancel_left hsame
      exact hox (List.append_cancel_right hsame').symm
  rcases List.append_eq_append_iff.mp h with ⟨c, rfl, hc⟩ | ⟨c, hc, hc'⟩
  · cases c with
    | nil => exact hfront [] (by simp) hc.symm
    | cons y c =>
      obtain ⟨rfl, rfl⟩ := List.cons.inj hc
      have hc : 35 ∉ c := fun hm => hmodule (List.mem_append_left _ hm)
      have he : 35 ∉ e := fun hm => hmodule (List.mem_append_right _ (List.mem_append_right _ hm))
      refine ⟨prj, c ++ x :: e, hprj, ?_, ?_, by simp⟩
      · simp only [List.mem_append, List.mem_cons, not_or]
        exact ⟨hc, fun he => hx he.symm, he⟩
      · intro he
        exact hother c (congrArg Prod.snd he)
  · exact hfront c hc hc'

include hg

/-- The first star of a pattern takes all up to a '#'. -/
theorem modulePattern_behind {prj module r : Bytes}
    (hr : g (prj ++ 35 :: module ++ [35] ++ [42]) r = true) (a : Bytes) :
    g (modulePattern prj module) (a ++ 35 :: r) = true := by
  have hpattern : modulePattern prj module = 42 :: 35 :: (prj ++ 35 :: module ++ [35] ++ [42]) := by
    simp [modulePattern]
  rw [hpattern, hg.star]
  exact ⟨a, 35 :: r, rfl, (hg.lit _ _ (by decide)).mpr ⟨r, rfl, hr⟩⟩

omit hg

/-- The pattern of a key finds a key with two other names, for the same group and version. -/
theorem finds_other {k : Key} (hk : HashFree k) {prj' module' : Bytes} (hprj' : 35 ∉ prj')
    (hmodule' : 35 ∉ module') (hne : (prj', module') ≠ (k.prj, k.module))
    (hmatch : g (modulePattern k.prj k.module)
      (getHexString [k.gid] ++ 35 :: (prj' ++ 35 :: module' ++ [35] ++ k.ver)) = true) :
    ∃ k', HashFree k' ∧ (k.prj, k.module) ≠ (k'.prj, k'.module) ∧
      g (modulePattern k.prj k.module) k'.text = true := by
  refine ⟨⟨k.gid, prj', module', k.ver⟩, ⟨hprj', hmodule', hk.ver⟩, hne.symm, ?_⟩
  simpa [Key.text, pubKey] using hmatch

include hg

/-- It does so if it takes an 'a' in front of what is left of the names, or in place of a piece of
them. -/
theorem finds_other_byte {k : Key} (hk : HashFree k) {b o c : Bytes} (ho : 35 ∉ o) (hox : o ≠ [97])
    (hc : c ≠ []) (hbc : k.prj ++ 35 :: k.module ++ [35] = b ++ (o ++ c))
    (hmatch : g (k.prj ++ 35 :: k.module ++ [35] ++ [42]) (b ++ 97 :: (c ++ k.ver)) = true) :
    ∃ k', HashFree k' ∧ (k.prj, k.module) ≠ (k'.prj, k'.module) ∧
      g (modulePattern k.prj k.module) k'.text = true := by
  obtain ⟨e, z, rfl⟩ : ∃ e z, c = e ++ [z] :=
    ⟨c.dropLast, c.getLast hc, (List.dropLast_append_getLast hc).symm⟩
  rw [← List.append_assoc, ← List.append_assoc] at hbc
  obtain ⟨hnames, hz⟩ := List.append_inj' hbc rfl
  cases hz
  rw [List.append_assoc] at hnames
  obtain ⟨prj', module', hprj', hmodule', hne, he⟩ :=
    other_names hk.prj hk.module (by decide) ho hox hnames
  apply finds_other hk hprj' hmodule' hne
  rw [← he]
  apply modulePattern_behind hg
  simpa using hmatch

/-- The pattern of names that are not plain finds keys of others, if it finds its own. -/
theorem modulePattern_other {k : Key} (hk : HashFree k) (hplain : ¬ (Plain k.prj ∧ Plain k.module))
    (hown : g (modulePattern k.prj k.module) k.text = true) :
    ∃ k', HashFree k' ∧ (k.prj, k.module) ≠ (k'.prj, k'.module) ∧
      g (modulePattern k.prj k.module) k'.text = true := by
  have hw : ¬ Plain (k.prj ++ 35 :: k.module) := by
    intro hw
    apply hplain
    exact ⟨fun b hb => hw b (List.mem_append_left _ hb),
      fun b hb => hw b (List.mem_append_right _ (List.mem_cons_of_mem _ hb))⟩
  have hpattern : modulePattern k.prj k.module =
      42 :: 35 :: (k.prj ++ 35 :: k.module ++ [35] ++ [42]) := by
    simp [modulePattern]
  have htext : k.text =
      getHexString [k.gid] ++ 35 :: (k.prj ++ 35 :: k.module ++ [35] ++ k.ver) := by
    simp [Key.text, pubKey]
  rw [hpattern, hg.star] at hown
  obtain ⟨a, t, hat, ht⟩ := hown
  obtain ⟨r, rfl, hr⟩ := (hg.lit _ _ (by decide)).mp ht
  rw [htext] at hat
  rcases first_hash (hash_notMem_getHexString _) hat with ⟨rfl, rfl⟩ | ⟨a', rfl, ha'⟩
  · -- the first star takes the group, and the names take their own text
    rcases hg.other hw hr with ⟨b, c, hbc, hc, hroom⟩ | ⟨b, c, hbc, hroom⟩
    · exact finds_other_byte hg hk (o := []) (by simp) (by simp) hc hbc (hroom 97)
    · apply finds_other_byte hg hk (o := [63]) (by decide) (by decide) ?_ hbc (hroom 97)
      rintro rfl
      obtain ⟨_, hlast⟩ := List.append_inj' hbc rfl
      cases hlast
  · -- the first star takes more than the group, and so any project
    rw [List.append_assoc, List.append_assoc] at ha'
    have hcut : ∃ a'', 35 :: k.module ++ ([35] ++ k.ver) = a'' ++ 35 :: r := by
      rcases first_hash hk.prj ha' with ⟨_, rfl⟩ | ⟨a'', _, he⟩
      · exact ⟨[], rfl⟩
      · exact ⟨35 :: a'', congrArg (35 :: ·) he⟩
    obtain ⟨a'', ha''⟩ := hcut
    have hlonger : (k.prj ++ [97], k.module) ≠ (k.prj, k.module) := by
      intro he
      have hlen := congrArg List.length (congrArg Prod.fst he)
      simp at hlen
    have hshape : getHexString [k.gid] ++ 35 :: (k.prj ++ [97] ++ 35 :: k.module ++ [35] ++ k.ver) =
        getHexString [k.gid] ++ 35 :: (k.prj ++ [97] ++ a'') ++ 35 :: r := by
      have hassoc : k.prj ++ [97] ++ 35 :: k.module ++ [35] ++ k.ver =
          k.prj ++ [97] ++ (35 :: k.module ++ ([35] ++ k.ver)) := by simp
      rw [hassoc, ha'']
      simp
    apply finds_other hk (by simp [hk.prj]) hk.module hlonger
    rw [hshape]
    exact modulePattern_behind hg hr _

omit hg

/-! ## What the readers do -/

/-- A loop where no turn raises an exception comes to its end, with what its turns have done. -/
theorem foldlM_turns {α β : Type} {f : β → α → Option β} {P : List α → β → Prop} {b : β}
    (as : List α) (hnil : P [] b)
    (hturn : ∀ done a c, a ∈ as → P done c → ∃ c', f c a = some c' ∧ P (done ++ [a]) c') :
    ∃ c, as.foldlM f b = some c ∧ P as c := by
  induction as using List.reverseRecOn with
  | nil => exact ⟨b, rfl, hnil⟩
  | append_singleton as a ih =>
    obtain ⟨c, hc, hp⟩ := ih (fun done a' c ha' => hturn done a' c (List.mem_append_left _ ha'))
    obtain ⟨c', hc', hp'⟩ := hturn as a c (List.mem_append_right _ List.mem_cons_self) hp
    refine ⟨c', ?_, hp'⟩
    rw [List.foldlM_append, hc]
    simpa using hc'

theorem foldlM_raises {α β : Type} {f : β → α → Option β} {a : α} (as : List α) (b : β)
    (ha : a ∈ as) (hf : ∀ c, f c a = none) : as.foldlM f b = none := by
  induction as generalizing b with
  | nil => cases ha
  | cons a' as ih =>
    rw [List.foldlM_cons]
    rcases List.mem_cons.mp ha with rfl | ha
    · rw [hf]
      rfl
    · cases f b a' with
      | none => rfl
      | some c => exact ih c ha

/-- A loop goes through just when each of its turns does. -/
theorem foldlM_turns_iff {α β : Type} {f : β → α → Option β} {P : List α → β → Prop} {ok : α → Prop}
    {b : β} (as : List α) (hnil : P [] b)
    (hturn : ∀ done a c, a ∈ as → P done c → ok a → ∃ c', f c a = some c' ∧ P (done ++ [a]) c')
    (hraise : ∀ done a c, a ∈ as → P done c → ¬ ok a → f c a = none) :
    (∃ c, as.foldlM f b = some c) ↔ ∀ a ∈ as, ok a := by
  constructor
  · rintro ⟨c, hc⟩
    induction as using List.reverseRecOn generalizing c with
    | nil => simp
    | append_singleton as a ih =>
      rw [List.foldlM_append] at hc
      obtain ⟨d, hd, hlast⟩ := Option.bind_eq_some_iff.mp hc
      have hbefore : ∀ a' ∈ as, ok a' := by
        apply ih _ _ d hd
        · exact fun done a' c ha' => hturn done a' c (List.mem_append_left _ ha')
        · exact fun done a' c ha' => hraise done a' c (List.mem_append_left _ ha')
      obtain ⟨d', hd', hp⟩ := foldlM_turns as hnil (fun done a' c ha' hp =>
        hturn done a' c (List.mem_append_left _ ha') hp (hbefore a' ha'))
      rw [hd] at hd'
      cases hd'
      intro a' ha'
      rcases List.mem_append.mp ha' with ha' | ha'
      · exact hbefore a' ha'
      · rw [List.mem_singleton.mp ha']
        by_contra hnot
        have hnone := hraise as a d (List.mem_append_right _ List.mem_cons_self) hp hnot
        rw [List.foldlM_cons, hnone] at hlast
        cases hlast
  · intro h
    obtain ⟨c, hc, _⟩ := foldlM_turns as hnil (fun done a c ha hp => hturn done a c ha hp (h a ha))
    exact ⟨c, hc⟩

/-- One key that cannot be read, of whatever project, and no project is listed. -/
theorem queryProjectModules_unreadable {keys : List Bytes} {key : Bytes} (hkey : key ∈ keys)
    (h : fourOf key = none) :
    queryProjectModules keys = ∅ := by
  have hraises : ∀ prjs, addModule prjs key = none := by
    intro prjs
    rw [addModule, h]
  rw [queryProjectModules, foldlM_raises keys ∅ hkey hraises]
  rfl

include hg

/-- The keys of a module are read back, and its patterns find no key of another one that can be
read, just when the names are without '#' and those of the module and its project are plain. -/
theorem keys_are_read_back_just_when_plain (k : Key) :
    (ReadBack g k ∧ ∀ k', HashFree k' → Apart g k k') ↔ PlainNames k := by
  constructor
  · rintro ⟨hread, hapart⟩
    have hfree := (fourOf_text k).mp hread.queryProjectModules.2
    by_contra hnot
    have hplain : ¬ (Plain k.prj ∧ Plain k.module) := fun h => hnot ⟨hfree, h.1, h.2⟩
    obtain ⟨k', hk', hne, hmatch⟩ := modulePattern_other hg hfree hplain hread.queryModuleInfo.1
    have hfalse := (hapart k' hk' hne).2.1
    rw [hmatch] at hfalse
    cases hfalse
  · intro h
    have hfour := (fourOf_text k).mpr h.free
    have hown : g (modulePattern k.prj k.module) k.text = true :=
      (modulePattern_iff hg h.prj h.module h.free.prj h.free.module h.free).mpr ⟨rfl, rfl⟩
    refine ⟨⟨⟨indexPattern_own hg k, hfour⟩, ⟨hg.star_nil _, hfour⟩, ⟨hown, hfour⟩, ⟨hown, hfour⟩,
      int16_index k.gid⟩, ?_⟩
    intro k' hk' hne
    refine ⟨fun dc he => hne ?_, ?_, fun rid => ?_⟩
    · obtain ⟨h1, h2⟩ := prjModule2Key_inj h.free hk' he
      rw [h1, h2]
    · rw [Bool.eq_false_iff]
      intro hmatch
      obtain ⟨h1, h2⟩ :=
        (modulePattern_iff hg h.prj h.module h.free.prj h.free.module hk').mp hmatch
      exact hne (by rw [h1, h2])
    · rw [Bool.eq_false_iff]
      intro hmatch
      obtain ⟨h1, h2⟩ := logPattern_other hg h hk' rid hmatch
      exact hne (by rw [h1, h2])

omit hg

theorem keys_are_read_back_of_plain_names :
    (ReadBack stringmatch ⟨1, [112], [109], [49]⟩ ∧ ∀ k', HashFree k' →
      Apart stringmatch ⟨1, [112], [109], [49]⟩ k') ↔
      PlainNames ⟨1, [112], [109], [49]⟩ :=
  keys_are_read_back_just_when_plain stringmatch_lawful ⟨1, [112], [109], [49]⟩

/-- The project "a#b" cannot be read back, and with its key in the database no project is listed;
the pattern of the project "*" finds the key of the project "p". -/
theorem names_are_neither_split_nor_kept_apart :
    ¬ ReadBack stringmatch ⟨1, [97, 35, 98], [109], [49]⟩ ∧
    queryProjectModules [(⟨1, [112], [109], [49]⟩ : Key).text,
      (⟨1, [97, 35, 98], [109], [49]⟩ : Key).text] = ∅ ∧
    ¬ Apart stringmatch ⟨1, [42], [109], [49]⟩ ⟨1, [112], [109], [49]⟩ := by
  refine ⟨?_, ?_, ?_⟩
  · intro h
    have hfour := h.queryProjectModules.2
    revert hfour
    decide
  · exact queryProjectModules_unreadable (List.mem_cons_of_mem _ List.mem_cons_self) (by decide)
  · intro h
    have hfalse := (h (by decide)).2.1
    have htrue : stringmatch (modulePattern [42] [109]) (⟨1, [112], [109], [49]⟩ : Key).text =
        true := by
      have hg := stringmatch_lawful
      have hplain : Plain [35, 109, 35] := by simp [Plain, special]
      have hmodule : stringmatch [35, 109, 35, 42] [35, 109, 35, 49] = true :=
        (hg.plain hplain [42] _).mpr ⟨[49], rfl, hg.star_nil _⟩
      have hproject : stringmatch [35, 42, 35, 109, 35, 42] [35, 112, 35, 109, 35, 49] = true :=
        (hg.lit _ _ (by decide)).mpr ⟨_, rfl, (hg.star _ _).mpr ⟨[112], _, rfl, hmodule⟩⟩
      exact (hg.star _ _).mpr ⟨[48, 49], _, rfl, hproject⟩
    rw [htrue] at hfalse
    cases hfalse

end py.composite_keys
