-- `CUpdateModuleMgr` of aods: the modules that it manages, the confirmations of their
-- versions that it sends, and the orders for updates that it takes.
import Aods.MsgDef
import Aods.StdMap

open machine std_map
open util.json msg_def

namespace aods.update_module_mgr

def enMaxPathLen : Nat := 256

/-- `MODULE_INFO`. -/
structure ModuleInfo where
  str_fv : Bytes
  str_fh : Bytes
  str_wd : Bytes
  str_cmd : Bytes
  deriving DecidableEq, Repr

structure State where
  map_pm : StdMap (StdMap ModuleInfo)
  un_update_times : Nat

/-- `ms_szAppPath`: a C string in an array of `EN_MAX_PATH_LEN`. -/
abbrev AppPath := { b : Bytes // b.length < enMaxPathLen ∧ 0 ∉ b }

/-- `DOWNLOAD_ITEM`. -/
structure DownloadItem where
  str_url : Bytes
  str_pwd : Bytes
  str_save_file_name : Bytes
  str_prj : Bytes
  str_module : Bytes
  str_file_ver : Bytes
  str_file_hash : Bytes
  deriving DecidableEq, Repr

/-- The info of a module of a project in `m_mapPM`. -/
def State.find (s : State) (prj module : Bytes) : Option ModuleInfo :=
  (s.map_pm.lookup prj).bind (fun mm => mm.lookup module)

/-- `sprintf` into an array of `EN_MAX_PATH_LEN`. -/
def sprintfPath (b : Bytes) : Except Fault Bytes :=
  if b.length < enMaxPathLen then .ok b else .error .overrun

/-- `"%u"`. -/
def decimal (n : Nat) : Bytes := (Nat.toDigits 10 n).map (fun c => UInt8.ofNat c.toNat)

/-! ## Reports to aodc -/

def aodcClientName : Bytes := text "AodcClient"

/-- `Report2Aodc`: the bytes that go to the communication module, from an array of 1024. -/
def report2Aodc (un_msg_code : Nat) (data : Bytes) : Except Fault Bytes :=
  if (aodcClientName ++ 0 :: aodsAodcMsg un_msg_code data).length > 1024 then .error .overrun
  else .ok (aodcClientName ++ 0 :: aodsAodcMsg un_msg_code data)

/-- `SendUmi`, which puts its texts into an array of 1024. -/
def sendUmi (prj module file_ver file_hash : Bytes) : Except Fault Bytes :=
  let uc_data := names [prj, module, file_ver, file_hash]
  if uc_data.length > 1024 then .error .overrun else report2Aodc enAodsAodcUmi uc_data

/-! ## Orders -/

/-- What an order says. -/
structure Umi where
  prj_name : Bytes
  module_name : Bytes
  file_version : Bytes
  file_hash : Bytes
  download_url : Bytes
  password : Bytes
  c_force_update : UInt8
  deriving DecidableEq, Repr

/-- The C string at an offset, and the offset behind its NUL. -/
def field (sz_msg : Bytes) (un_offset : Nat) : Bytes × Nat :=
  (cstr (sz_msg.drop un_offset), un_offset + (cstr (sz_msg.drop un_offset)).length + 1)

/-- The first part of `OnRecvUmi`, down to the last guard. `none`: it returns. -/
def readUmi (s : State) (sz_msg : Bytes) : Option Umi := do
  let len := sz_msg.length
  guard (¬ (len < 2 ∨ sz_msg.getD (len - 2) 0 ≠ 0))
  let (prj_name, un_offset) := field sz_msg 0
  let mm ← s.map_pm.lookup prj_name
  guard (¬ un_offset + 1 ≥ len)
  let (module_name, un_offset) := field sz_msg un_offset
  let _ ← mm.lookup module_name
  guard (¬ un_offset + 1 ≥ len)
  let (file_version, un_offset) := field sz_msg un_offset
  guard (¬ un_offset + 1 ≥ len)
  let (file_hash, un_offset) := field sz_msg un_offset
  guard (¬ un_offset + 1 ≥ len)
  let (download_url, un_offset) := field sz_msg un_offset
  guard (¬ un_offset + 1 ≥ len)
  let (password, un_offset) := field sz_msg un_offset
  guard (¬ un_offset + 1 > len)
  some ⟨prj_name, module_name, file_version, file_hash, download_url, password,
    sz_msg.getD un_offset 0⟩

/-- The name of the file that a package is saved in. -/
def pubFileName (app_path prj_name module_name file_version : Bytes) (un_update_times tick : Nat) :
    Bytes :=
  app_path ++ text "/pub/" ++ prj_name ++ text "." ++ module_name ++ text "." ++
    file_version ++ text "." ++
    decimal un_update_times ++ text "." ++ decimal tick ++ text ".zip"

/-- `OnRecvUmi`, with what `CurrentTick` gives. The task goes to a download thread. -/
def onRecvUmi (app_path : AppPath) (tick : Int) (s : State) (sz_msg : Bytes) :
    Except Fault (State × Option DownloadItem) :=
  match readUmi s sz_msg with
  | none => .ok (s, none)
  | some u =>
    if u.c_force_update ≠ 1 then .ok (s, none)
    else do
      let _ ← sprintfPath (app_path.1 ++ text "/pub")
      let sz_file_name ← sprintfPath (pubFileName app_path.1 u.prj_name u.module_name u.file_version
        s.un_update_times (u32 tick))
      .ok ({ s with un_update_times := u32 (s.un_update_times + 1) },
        some ⟨u.download_url, u.password, sz_file_name, u.prj_name, u.module_name, u.file_version,
          u.file_hash⟩)

/-! ## What the functions do -/

theorem field_append {b p s t : Bytes} (hb : b = p ++ (s ++ 0 :: t)) (hs : 0 ∉ s) {n : Nat}
    (hn : p.length = n) : field b n = (s, n + s.length + 1) := by
  have hdrop : b.drop n = s ++ 0 :: t := by
    rw [hb, ← hn]
    exact List.drop_left ..
  unfold field
  rw [hdrop, cstr_append hs]

theorem sprintfPath_ok {b : Bytes} (h : b.length < enMaxPathLen) : sprintfPath b = .ok b := if_pos h

theorem sprintfPath_error {b : Bytes} (h : ¬ b.length < enMaxPathLen) :
    sprintfPath b = .error .overrun :=
  if_neg h

theorem find_some {s : State} {prj module : Bytes} {mi : ModuleInfo}
    (h : s.find prj module = some mi) :
    ∃ mm, s.map_pm.lookup prj = some mm ∧ mm.lookup module = some mi := by
  unfold State.find at h
  exact Option.bind_eq_some_iff.mp h

theorem of_guard {α : Type} {p : Prop} [Decidable p] {f : Unit → Option α} {a : α}
    (h : (guard p >>= f) = some a) :
    p ∧ f () = some a := by
  unfold guard at h
  split at h
  · rename_i hp
    exact ⟨hp, h⟩
  · cases h

theorem zero_notMem_field (sz_msg : Bytes) (un_offset : Nat) : 0 ∉ (field sz_msg un_offset).1 :=
  zero_notMem_cstr _

theorem readUmi_some {s : State} {sz_msg : Bytes} {u : Umi} (h : readUmi s sz_msg = some u) :
    (∃ mi, s.find u.prj_name u.module_name = some mi) ∧
      0 ∉ u.prj_name ∧ 0 ∉ u.module_name ∧ 0 ∉ u.file_version ∧ 0 ∉ u.file_hash := by
  unfold readUmi at h
  dsimp only at h
  obtain ⟨_, h⟩ := of_guard h
  obtain ⟨mm, hmm, h⟩ := Option.bind_eq_some_iff.mp h
  obtain ⟨_, h⟩ := of_guard h
  obtain ⟨mi, hmi, h⟩ := Option.bind_eq_some_iff.mp h
  obtain ⟨_, h⟩ := of_guard h
  obtain ⟨_, h⟩ := of_guard h
  obtain ⟨_, h⟩ := of_guard h
  obtain ⟨_, h⟩ := of_guard h
  obtain ⟨_, h⟩ := of_guard h
  cases h
  refine ⟨⟨mi, ?_⟩, zero_notMem_field _ _, zero_notMem_field _ _, zero_notMem_field _ _,
    zero_notMem_field _ _⟩
  unfold State.find
  dsimp only
  rw [hmm]
  exact hmi

/-- An order gives nothing, or the task of what it says. -/
theorem onRecvUmi_cases {app_path : AppPath} {tick : Int} {s : State} {sz_msg : Bytes}
    {y : State × Option DownloadItem} (h : onRecvUmi app_path tick s sz_msg = .ok y) :
    y = (s, none) ∨ ∃ u name, readUmi s sz_msg = some u ∧ u.c_force_update = 1 ∧
      y = ({ s with un_update_times := u32 (s.un_update_times + 1) },
        some ⟨u.download_url, u.password, name, u.prj_name, u.module_name, u.file_version,
          u.file_hash⟩) := by
  unfold onRecvUmi at h
  split at h
  · cases h
    exact Or.inl rfl
  · rename_i u hu
    split at h
    · cases h
      exact Or.inl rfl
    · rename_i hforce
      obtain ⟨_, _, h⟩ := bind_ok h
      obtain ⟨name, _, h⟩ := bind_ok h
      cases h
      exact Or.inr ⟨u, name, hu, not_not.mp hforce, rfl⟩

/-- A forced order of a managed module gives its task, or overruns when the file name is too
long. -/
theorem onRecvUmi_forced {s : State} {sz_msg : Bytes} {u : Umi} (hread : readUmi s sz_msg = some u)
    (hforce : u.c_force_update = 1) (app_path : AppPath) (tick : Int) :
    onRecvUmi app_path tick s sz_msg =
      if (pubFileName app_path.1 u.prj_name u.module_name u.file_version s.un_update_times
          (u32 tick)).length < enMaxPathLen then
        .ok ({ s with un_update_times := u32 (s.un_update_times + 1) },
          some ⟨u.download_url, u.password,
            pubFileName app_path.1 u.prj_name u.module_name u.file_version s.un_update_times
              (u32 tick), u.prj_name,
            u.module_name, u.file_version, u.file_hash⟩)
      else .error .overrun := by
  unfold onRecvUmi
  rw [hread]
  dsimp only
  rw [if_neg (not_not.mpr hforce)]
  split
  · rename_i hfits
    have hpub : (app_path.1 ++ text "/pub").length < enMaxPathLen := by
      have hlen : (text "/pub").length ≤ (text "/pub/").length := by decide
      unfold pubFileName at hfits
      simp only [List.length_append] at hfits ⊢
      omega
    rw [sprintfPath_ok hpub, sprintfPath_ok hfits]
    rfl
  · rename_i hlong
    rw [sprintfPath_error hlong]
    by_cases hpub : (app_path.1 ++ text "/pub").length < enMaxPathLen
    · rw [sprintfPath_ok hpub]
      rfl
    · rw [sprintfPath_error hpub]
      rfl

end aods.update_module_mgr
