-- The file of the versions that aods has: `SaveCfg` writes the managed modules to it, and
-- `StartUmiSyn` loads them from it and sends a confirmation for each.
import Aods.ResultReports

open machine std_map traced
open util.json msg_def
open aods.download_thread (enDrSuc)

namespace aods.update_module_mgr

/-! ## The pure model -/

/-- What `SendUmi` is called with. -/
structure Confirmation where
  prj : Bytes
  module : Bytes
  file_ver : Bytes
  file_hash : Bytes
  deriving DecidableEq

/-- `child` and its `next`s, with their names. The items of an array have none. -/
def children : CJson → List (Option Bytes × CJson)
  | .object members => members.map (fun m => (some (cstr m.1), m.2))
  | .array items => items.map (fun item => (none, item))
  | _ => []

/-- A string property, or the empty string. -/
def property (module : CJson) (name : String) : Bytes :=
  match module.getObjectItem name with
  | some (.string s) => cstr s
  | _ => []

def loadModule (module : CJson) : ModuleInfo where
  str_fv := property module "Version"
  str_fh := property module "Hash"
  str_wd := property module "WorkDir"
  str_cmd := property module "Command"

/-- `m_mapPM[prj][module] = mi`. -/
def State.put (s : State) (prj module : Bytes) (mi : ModuleInfo) : State :=
  { s with map_pm := s.map_pm.insert prj (((s.map_pm.lookup prj).getD ∅).insert module mi) }

/-- A turn of the inner loop of `StartUmiSyn`. -/
def synModule (prj : Option Bytes) (s : State) (module : Option Bytes × CJson) :
    Traced Confirmation Fault State :=
  match prj, module.1 with
  | some prj, some name => do
    let mi := loadModule module.2
    let _ ← attempt (sendUmi prj name mi.str_fv mi.str_fh)
    emit ⟨prj, name, mi.str_fv, mi.str_fh⟩
    pure (s.put prj name mi)
  | _, _ => attempt (.error .null_pointer)

/-- A turn of the outer loop. -/
def synProject (s : State) (prj : Option Bytes × CJson) : Traced Confirmation Fault State :=
  (children prj.2).foldlM (synModule prj.1) s

/-- `StartUmiSyn`, with what the file is parsed to. `none`: it is not read, or not parsed. -/
def startUmiSyn (app_path : AppPath) (file : Option CJson) (s : State) :
    Traced Confirmation Fault State := do
  let _ ← attempt (sprintfPath (cfgPath app_path))
  match file with
  | none => pure s
  | some json => (children json).foldlM synProject { s with map_pm := ∅ }

/-- What `SaveCfg` prints of a module, and of all. -/
def moduleItem (mi : ModuleInfo) : CJson :=
  obj [("Hash", .string mi.str_fh), ("Version", .string mi.str_fv), ("WorkDir", .string mi.str_wd),
    ("Command", .string mi.str_cmd)]

def cfgOf (s : State) : CJson :=
  .object ((inOrder s.map_pm).map
    (fun prj =>
      (prj.1, .object ((inOrder prj.2).map (fun module => (module.1, moduleItem module.2))))))

/-- A file has an entry for a module. -/
def HasEntry (json : CJson) (c : Confirmation) : Prop :=
  ∃ prj ∈ children json, ∃ module ∈ children prj.2, prj.1 = some c.prj ∧ module.1 = some c.module ∧
    (loadModule module.2).str_fv = c.file_ver ∧ (loadModule module.2).str_fh = c.file_hash

/-- The strings of the managed modules are C strings. -/
def Plain (s : State) : Prop :=
  ∀ prj module mi, s.find prj module = some mi →
    0 ∉ prj ∧ 0 ∉ module ∧ 0 ∉ mi.str_fv ∧ 0 ∉ mi.str_fh

/-! ## The specs -/

theorem find_put {s : State} {prj module prj' module' : Bytes} {mi : ModuleInfo} :
    (s.put prj module mi).find prj' module' =
      if prj' = prj ∧ module' = module then some mi else s.find prj' module' := by
  unfold State.put State.find
  dsimp only
  rw [find_insert]
  by_cases hprj : prj' = prj
  · subst hprj
    rw [if_pos rfl, Option.bind_some, find_insert]
    by_cases hmodule : module' = module
    · rw [if_pos hmodule, if_pos ⟨rfl, hmodule⟩]
    · rw [if_neg hmodule, if_neg (fun h => hmodule h.2)]
      cases s.map_pm.lookup prj' with
      | none => simp
      | some mm => rfl
  · rw [if_neg hprj, if_neg (fun h => hprj h.1)]

theorem find_record {s : State} {r : DownloadResult} {prj module : Bytes} {mi : ModuleInfo}
    (h : s.find r.prj r.module = some mi) :
    (s.record r).find prj module =
      if prj = r.prj ∧ module = r.module then some { mi with str_fh := r.hash, str_fv := r.fileVer }
      else s.find prj module := by
  obtain ⟨mm, hprj, hmodule⟩ := find_some h
  have hput : s.record r =
      s.put r.prj r.module { mi with str_fh := r.hash, str_fv := r.fileVer } := by
    unfold State.record State.put
    rw [hprj]
    dsimp only
    rw [hmodule]
    rfl
  rw [hput, find_put]

theorem plain_record {s : State} {r : DownloadResult} {mi : ModuleInfo} (h : Plain s)
    (hfind : s.find r.prj r.module = some mi) : Plain (s.record r) := by
  obtain ⟨hzprj, hzmodule, _, _⟩ := h _ _ _ hfind
  intro prj module mi' hfind'
  rw [find_record hfind] at hfind'
  split at hfind'
  · rename_i heq
    cases hfind'
    rw [heq.1, heq.2]
    exact ⟨hzprj, hzmodule, zero_notMem_cstr _, zero_notMem_cstr _⟩
  · exact h prj module mi' hfind'

theorem zero_notMem_property (module : CJson) (name : String) : 0 ∉ property module name := by
  unfold property
  split
  · exact zero_notMem_cstr _
  · simp

theorem zero_notMem_name {json : CJson} {item : Option Bytes × CJson} {name : Bytes}
    (h : item ∈ children json) (hname : item.1 = some name) : 0 ∉ name := by
  unfold children at h
  split at h
  · obtain ⟨m, _, rfl⟩ := List.mem_map.mp h
    cases hname
    exact zero_notMem_cstr _
  · obtain ⟨i, _, rfl⟩ := List.mem_map.mp h
    cases hname
  · cases h

/-- All managed modules come from entries of a file. -/
def Loaded (json : CJson) (s : State) : Prop :=
  Plain s ∧ ∀ prj module mi, s.find prj module = some mi →
    HasEntry json ⟨prj, module, mi.str_fv, mi.str_fh⟩

theorem Loaded.put {json : CJson} {s : State} (h : Loaded json s)
    {prj module : Option Bytes × CJson} {p m : Bytes} (hprj : prj ∈ children json)
    (hmodule : module ∈ children prj.2) (hp : prj.1 = some p) (hm : module.1 = some m) :
    Loaded json (s.put p m (loadModule module.2)) := by
  constructor
  · intro p' m' mi hfind
    rw [find_put] at hfind
    split at hfind
    · rename_i heq
      cases hfind
      rw [heq.1, heq.2]
      exact ⟨zero_notMem_name hprj hp, zero_notMem_name hmodule hm, zero_notMem_property _ _,
        zero_notMem_property _ _⟩
    · exact h.1 p' m' mi hfind
  · intro p' m' mi hfind
    rw [find_put] at hfind
    split at hfind
    · rename_i heq
      cases hfind
      rw [heq.1, heq.2]
      exact ⟨prj, hprj, module, hmodule, hp, hm, rfl, rfl⟩
    · exact h.2 p' m' mi hfind

theorem synModule_entries {json : CJson} {s : State} (h : Loaded json s)
    {prj module : Option Bytes × CJson} (hprj : prj ∈ children json)
    (hmodule : module ∈ children prj.2) :
    Leaves (HasEntry json) (synModule prj.1 s module) ∧
      ∀ s', (synModule prj.1 s module).result = .ok s' → Loaded json s' := by
  unfold synModule
  cases hp : prj.1 with
  | none => exact ⟨Leaves.attempt _, fun s' hs' => by cases hs'⟩
  | some p =>
    cases hm : module.1 with
    | none => exact ⟨Leaves.attempt _, fun s' hs' => by cases hs'⟩
    | some m =>
      dsimp only
      constructor
      · refine Leaves.bind (Leaves.attempt _) fun _ _ => ?_
        refine Leaves.bind (Leaves.emit ?_) fun _ _ => Leaves.pure _
        exact ⟨prj, hprj, module, hmodule, hp, hm, rfl, rfl⟩
      · intro s' hs'
        rw [result_bind, result_attempt] at hs'
        cases hsend : sendUmi p m (loadModule module.2).str_fv (loadModule module.2).str_fh with
        | error f =>
          rw [hsend] at hs'
          cases hs'
        | ok data =>
          rw [hsend] at hs'
          cases hs'
          exact h.put hprj hmodule hp hm

theorem synProject_entries {json : CJson} {s : State} (h : Loaded json s)
    {prj : Option Bytes × CJson} (hprj : prj ∈ children json) :
    Leaves (HasEntry json) (synProject s prj) ∧ ∀ s', (synProject s prj).result = .ok s' →
      Loaded json s' := by
  unfold synProject
  apply foldlM_keeps (I := Loaded json) _ h
  intro s h module hmodule
  exact synModule_entries h hprj hmodule

theorem startUmiSyn_entries (app_path : AppPath) (json : CJson) (s : State) :
    Leaves (HasEntry json) (startUmiSyn app_path (some json) s) ∧
      ∀ s', (startUmiSyn app_path (some json) s).result = .ok s' → Loaded json s' := by
  have hempty : Loaded json { s with map_pm := ∅ } := by
    constructor
    · intro prj module mi hfind
      cases hfind
    · intro prj module mi hfind
      cases hfind
  have hfold : Leaves (HasEntry json) ((children json).foldlM synProject { s with map_pm := ∅ }) ∧
      ∀ s', ((children json).foldlM synProject { s with map_pm := ∅ }).result = .ok s' →
          Loaded json s' := by
    apply foldlM_keeps (I := Loaded json) _ hempty
    intro s h prj hprj
    exact synProject_entries h hprj
  unfold startUmiSyn
  constructor
  · exact Leaves.bind (Leaves.attempt _) fun _ _ => hfold.1
  · intro s' hs'
    rw [result_bind, result_attempt] at hs'
    cases hpath : sprintfPath (cfgPath app_path) with
    | error f =>
      rw [hpath] at hs'
      cases hs'
    | ok path =>
      rw [hpath] at hs'
      exact hfold.2 s' hs'

theorem startUmiSyn_none (app_path : AppPath) (s : State) :
    (startUmiSyn app_path none s).trace = [] ∧
      ∀ s', (startUmiSyn app_path none s).result = .ok s' → s' = s := by
  unfold startUmiSyn
  cases hpath : sprintfPath (cfgPath app_path) with
  | error f => exact ⟨rfl, fun s' hs' => by cases hs'⟩
  | ok path =>
    refine ⟨rfl, fun s' hs' => ?_⟩
    cases hs'
    rfl

theorem loadModule_moduleItem {mi : ModuleInfo} (hfv : 0 ∉ mi.str_fv) (hfh : 0 ∉ mi.str_fh) :
    (loadModule (moduleItem mi)).str_fv = mi.str_fv ∧
      (loadModule (moduleItem mi)).str_fh = mi.str_fh := by
  have hhash : (moduleItem mi).getObjectItem "Hash" = some (.string mi.str_fh) := by
    have hname : sameName (text "Hash") (text "Hash") = true := by decide
    simp [moduleItem, obj, CJson.getObjectItem, hname]
  have hversion : (moduleItem mi).getObjectItem "Version" = some (.string mi.str_fv) := by
    have hother : sameName (text "Hash") (text "Version") = false := by decide
    have hname : sameName (text "Version") (text "Version") = true := by decide
    simp [moduleItem, obj, CJson.getObjectItem, hother, hname]
  unfold loadModule property
  dsimp only
  rw [hversion, hhash]
  exact ⟨cstr_of_notMem hfv, cstr_of_notMem hfh⟩

theorem hasEntry_cfgOf {s : State} (hplain : Plain s) {c : Confirmation}
    (h : HasEntry (cfgOf s) c) :
    ∃ mi, s.find c.prj c.module = some mi ∧ mi.str_fv = c.file_ver ∧ mi.str_fh = c.file_hash := by
  obtain ⟨prj, hprj, module, hmodule, hp, hm, hfv, hfh⟩ := h
  unfold cfgOf at hprj
  simp only [children, List.map_map, List.mem_map] at hprj
  obtain ⟨⟨p, mm⟩, hmm, rfl⟩ := hprj
  dsimp only [Function.comp_apply] at hmodule hp
  simp only [children, List.map_map, List.mem_map] at hmodule
  obtain ⟨⟨m, mi⟩, hmi, rfl⟩ := hmodule
  dsimp only [Function.comp_apply] at hm hfv hfh
  have hfind : s.find p m = some mi := by
    unfold State.find
    rw [mem_inOrder.mp hmm, Option.bind_some]
    exact mem_inOrder.mp hmi
  obtain ⟨hzp, hzm, hzfv, hzfh⟩ := hplain p m mi hfind
  obtain ⟨hload, hload'⟩ := loadModule_moduleItem hzfv hzfh
  rw [cstr_of_notMem hzp] at hp
  rw [cstr_of_notMem hzm] at hm
  cases hp
  cases hm
  exact ⟨mi, hfind, hload.symm.trans hfv, hload'.symm.trans hfh⟩

end aods.update_module_mgr
