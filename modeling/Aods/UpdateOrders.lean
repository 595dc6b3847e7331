-- Orders for updates, from the document that aodc gets to the task that aods appends. The
-- laws say that the texts of an order come through as they are, when the file name made
-- of them fits its array and the force of the order keeps its meaning in one byte.
import Aods.AodcUpdate
import Aods.UpdateModuleMgr

open machine std_map
open util.json msg_def
open aodc.update_module aods.update_module_mgr

namespace update_orders

/-- The six texts of an order. -/
structure Order where
  project : Bytes
  module : Bytes
  version : Bytes
  hash : Bytes
  url : Bytes
  code : Bytes
  deriving DecidableEq

/-- The texts in the order in which they are sent. -/
def Order.texts (o : Order) : List Bytes := [o.project, o.module, o.version, o.hash, o.url, o.code]

/-- C strings that fit the array of aodc, with a byte behind them. -/
structure Order.Fits (o : Order) : Prop where
  zero_notMem : ∀ t ∈ o.texts, 0 ∉ t
  room : (names o.texts).length + 1 ≤ enUmiRoom

/-- An update document with the texts of an order, and a force. -/
structure Carries (update : CJson) (o : Order) (force : Int) : Prop where
  project : update.getMember "project" = .ok (.string o.project)
  module : update.getMember "module" = .ok (.string o.module)
  version : update.getMember "version" = .ok (.string o.version)
  hash : update.getMember "hash" = .ok (.string o.hash)
  url : update.getMember "url" = .ok (.string o.url)
  code : update.getMember "code" = .ok (.string o.code)
  force : update.getMember "force" = .ok (.number force)

/-- The payload of an order. -/
def payload (o : Order) (force : UInt8) : Bytes := names o.texts ++ [force]

/-- The file name of a package fits its array. -/
def NameFits (app_path : AppPath) (tick : Int) (c : aods.update_module_mgr.State) (o : Order) :
    Prop :=
  (pubFileName app_path.1 o.project o.module o.version c.un_update_times (u32 tick)).length <
    enMaxPathLen

/-- The order that a task was made of. -/
def orderOf (di : DownloadItem) : Order :=
  ⟨di.str_prj, di.str_module, di.str_file_ver, di.str_file_hash, di.str_url, di.str_pwd⟩

/-- With force 1 the client appends the task of the order, and with another force no task. -/
def Obeyed (app_path : AppPath) (tick : Int) (c : aods.update_module_mgr.State) (sz_msg : Bytes)
    (o : Order) (force : Int) : Prop :=
  (force = 1 → ∃ c' di, onRecvUmi app_path tick c sz_msg = .ok (c', some di) ∧ orderOf di = o) ∧
  (force ≠ 1 → ∃ c', onRecvUmi app_path tick c sz_msg = .ok (c', none))

/-- A force of 1 comes with a file name that fits, and no other force has the byte 1. -/
def Plain (app_path : AppPath) (tick : Int) (c : aods.update_module_mgr.State) (o : Order)
    (force : Int) : Prop :=
  (force = 1 → NameFits app_path tick c o) ∧ (force ≠ 1 → force % 256 ≠ 1)

/-! ## The server -/

theorem copyMember_ok {update : CJson} {written t : Bytes} {name : String}
    (h : update.getMember name = .ok (.string t)) (ht : 0 ∉ t)
    (hroom : written.length + t.length + 1 ≤ enUmiRoom) :
    copyMember update written name = .ok (written ++ t ++ [0]) := by
  unfold copyMember
  simp only [h, bind, Except.bind, CJson.valuestring, cstr_of_notMem ht]
  rw [if_neg (by omega)]

theorem updateText_ok {update : CJson} {o : Order} {force : Int} (h : Carries update o force)
    (hfits : o.Fits) :
    updateText update = .ok (payload o (uchar force)) := by
  obtain ⟨hzero, hroom⟩ := hfits
  simp only [Order.texts, List.forall_mem_cons] at hzero
  obtain ⟨h1, h2, h3, h4, h5, h6, _⟩ := hzero
  simp only [Order.texts, names, List.flatMap_cons, List.flatMap_nil, List.length_append,
    List.length_singleton, List.length_nil] at hroom
  unfold updateText
  simp only [List.foldlM_cons, List.foldlM_nil, bind, Except.bind]
  rw [copyMember_ok h.project h1 (by simp; omega)]
  dsimp only
  rw [copyMember_ok h.module h2 (by simp; omega)]
  dsimp only
  rw [copyMember_ok h.version h3 (by simp; omega)]
  dsimp only
  rw [copyMember_ok h.hash h4 (by simp; omega)]
  dsimp only
  rw [copyMember_ok h.url h5 (by simp; omega)]
  dsimp only
  rw [copyMember_ok h.code h6 (by simp; omega)]
  simp only [pure, Except.pure, h.force]
  rw [if_neg (by simp; omega)]
  simp [payload, names, Order.texts, CJson.valueint]

/-! ## The client -/

/-- A guard that is met lets its function go on. -/
theorem guard_bind {α : Type} {p : Prop} [Decidable p] (h : p) {f : Unit → Option α} :
    (guard p >>= f) = f () := by
  rw [guard, if_pos h]
  rfl

/-- The client reads the texts of an order where the server put them. -/
theorem readUmi_payload {c : aods.update_module_mgr.State} {o : Order}
    (hzero : ∀ t ∈ o.texts, 0 ∉ t) {mi : ModuleInfo} (hmi : c.find o.project o.module = some mi)
    (force : UInt8) :
    readUmi c (payload o force) =
      some ⟨o.project, o.module, o.version, o.hash, o.url, o.code, force⟩ := by
  obtain ⟨mm, hprj, hmodule⟩ := find_some hmi
  simp only [Order.texts, List.forall_mem_cons] at hzero
  obtain ⟨h1, h2, h3, h4, h5, h6, _⟩ := hzero
  obtain ⟨project, module, version, hash, url, code⟩ := o
  dsimp only at h1 h2 h3 h4 h5 h6 hprj hmodule ⊢
  generalize hmsg : payload ⟨project, module, version, hash, url, code⟩ force = msg
  have hbytes : msg = project ++ 0 :: (module ++ 0 :: (version ++ 0 :: (hash ++ 0 :: (url ++ 0 ::
      (code ++ 0 :: [force]))))) := by
    rw [← hmsg]
    simp [payload, names, Order.texts]
  have hlen : msg.length =
      project.length + module.length + version.length + hash.length + url.length +
      code.length + 7 := by
    rw [hbytes]
    simp only [List.length_append, List.length_cons, List.length_nil]
    omega
  have hlast : msg.getD (msg.length - 2) 0 = 0 :=
    field_byte
      (p := project ++ 0 :: (module ++ 0 :: (version ++ 0 :: (hash ++ 0 :: (url ++ 0 :: code)))))
      (q := [force]) (by simp [hbytes])
      (by simp only [List.length_append, List.length_cons]; omega)
  have hf1 : field msg 0 = (project, project.length + 1) := by
    have hf := field_append (p := []) hbytes h1 rfl
    rw [List.length_nil, Nat.zero_add] at hf
    exact hf
  have hf2 : field msg (project.length + 1) = (module, _) :=
    field_append (p := project ++ [0]) (by simp [hbytes]; rfl) h2 (by simp)
  have hf3 : field msg (project.length + 1 + module.length + 1) = (version, _) :=
    field_append (p := project ++ 0 :: (module ++ [0])) (by simp [hbytes]; rfl) h3 (by simp; omega)
  have hf4 : field msg (project.length + 1 + module.length + 1 + version.length + 1) = (hash, _) :=
    field_append (p := project ++ 0 :: (module ++ 0 :: (version ++ [0]))) (by simp [hbytes]; rfl) h4
      (by simp; omega)
  have hf5 : field msg
      (project.length + 1 + module.length + 1 + version.length + 1 + hash.length + 1) =
      (url, _) :=
    field_append (p := project ++ 0 :: (module ++ 0 :: (version ++ 0 :: (hash ++ [0]))))
      (by simp [hbytes]; rfl)
      h5 (by simp; omega)
  have hf6 : field msg
      (project.length + 1 + module.length + 1 + version.length + 1 + hash.length + 1 +
      url.length + 1) = (code, _) :=
    field_append
      (p := project ++ 0 :: (module ++ 0 :: (version ++ 0 :: (hash ++ 0 :: (url ++ [0])))))
      (by simp [hbytes]; rfl) h6 (by simp; omega)
  have hforce : msg.getD (project.length + 1 + module.length + 1 + version.length + 1 +
      hash.length + 1 +
      url.length + 1 + code.length + 1) 0 = force :=
    field_byte
      (p := project ++
        0 :: (module ++ 0 :: (version ++ 0 :: (hash ++ 0 :: (url ++ 0 :: (code ++ [0]))))))
      (q := []) (by simp [hbytes]) (by simp; omega)
  unfold readUmi
  dsimp only
  rw [guard_bind (by rw [hlast]; simp; omega), hf1, hprj, Option.bind_eq_bind, Option.bind_some,
    guard_bind (by dsimp only; omega), hf2, hmodule, Option.bind_eq_bind, Option.bind_some]
  dsimp only
  rw [guard_bind (by omega), hf3, guard_bind (by dsimp only; omega), hf4,
    guard_bind (by dsimp only; omega), hf5, guard_bind (by dsimp only; omega), hf6,
    guard_bind (by dsimp only; omega), hforce]

/-- The task of an order. -/
def taskOf (app_path : AppPath) (tick : Int) (c : aods.update_module_mgr.State) (o : Order) :
    DownloadItem where
  str_url := o.url
  str_pwd := o.code
  str_save_file_name :=
    pubFileName app_path.1 o.project o.module o.version c.un_update_times (u32 tick)
  str_prj := o.project
  str_module := o.module
  str_file_ver := o.version
  str_file_hash := o.hash

variable {app_path : AppPath} {tick : Int} {c : aods.update_module_mgr.State} {o : Order}
  {mi : ModuleInfo}

theorem onRecvUmi_other (hzero : ∀ t ∈ o.texts, 0 ∉ t) (hmi : c.find o.project o.module = some mi)
    {force : UInt8} (hforce : force ≠ 1) :
    onRecvUmi app_path tick c (payload o force) = .ok (c, none) := by
  unfold onRecvUmi
  rw [readUmi_payload hzero hmi]
  dsimp only
  rw [if_pos hforce]

theorem onRecvUmi_fits (hzero : ∀ t ∈ o.texts, 0 ∉ t) (hmi : c.find o.project o.module = some mi)
    (hfits : NameFits app_path tick c o) :
    onRecvUmi app_path tick c (payload o 1) =
      .ok ({ c with un_update_times := u32 (c.un_update_times + 1) },
        some (taskOf app_path tick c o)) := by
  rw [onRecvUmi_forced (readUmi_payload hzero hmi 1) rfl]
  exact if_pos hfits

theorem onRecvUmi_long (hzero : ∀ t ∈ o.texts, 0 ∉ t) (hmi : c.find o.project o.module = some mi)
    (hlong : ¬ NameFits app_path tick c o) :
    onRecvUmi app_path tick c (payload o 1) = .error .overrun := by
  rw [onRecvUmi_forced (readUmi_payload hzero hmi 1) rfl]
  exact if_neg hlong

/-- The byte of a force is 1 when the force is 1 but for multiples of 256. -/
theorem uchar_eq_one {force : Int} : uchar force = 1 ↔ force % 256 = 1 := by
  rw [← UInt8.toNat_inj, toNat_uchar]
  have h1 : (1 : UInt8).toNat = 1 := rfl
  omega

theorem obeyed_iff (hzero : ∀ t ∈ o.texts, 0 ∉ t) (hmi : c.find o.project o.module = some mi)
    (force : Int) :
    Obeyed app_path tick c (payload o (uchar force)) o force ↔ Plain app_path tick c o force := by
  by_cases hbyte : uchar force = 1
  · rw [hbyte]
    have hmod := uchar_eq_one.mp hbyte
    constructor
    · rintro ⟨hone, hother⟩
      refine ⟨fun hforce => ?_, fun hforce => ?_⟩
      · by_contra hlong
        obtain ⟨c', di, hs, _⟩ := hone hforce
        rw [onRecvUmi_long hzero hmi hlong] at hs
        cases hs
      · obtain ⟨c', hs⟩ := hother hforce
        by_cases hfits : NameFits app_path tick c o
        · rw [onRecvUmi_fits hzero hmi hfits] at hs
          cases hs
        · rw [onRecvUmi_long hzero hmi hfits] at hs
          cases hs
    · rintro ⟨hone, hother⟩
      exact ⟨fun hforce => ⟨_, _, onRecvUmi_fits hzero hmi (hone hforce), rfl⟩,
        fun hforce => absurd hmod (hother hforce)⟩
  · have hmod : force % 256 ≠ 1 := fun h => hbyte (uchar_eq_one.mpr h)
    have hne : force ≠ 1 := by
      intro h
      rw [h] at hmod
      exact hmod rfl
    exact iff_of_true ⟨fun h => absurd h hne, fun _ => ⟨c, onRecvUmi_other hzero hmi hbyte⟩⟩
      ⟨fun h => absurd h hne, fun _ => hmod⟩

/-! ## Two orders -/

/-- The update document of the deployment script. -/
def updateOf (rid : Bytes) (o : Order) (force : Int) : CJson :=
  obj [("rid", .string rid), ("project", .string o.project), ("module", .string o.module),
    ("version", .string o.version), ("hash", .string o.hash), ("url", .string o.url),
      ("code", .string o.code),
    ("force", .number force)]

theorem carries_updateOf (rid : Bytes) (o : Order) (force : Int) :
    Carries (updateOf rid o force) o force where
  project := by
    unfold updateOf
    iterate 1 rw [getMember_other (by decide)]
    exact getMember_same (by decide)
  module := by
    unfold updateOf
    iterate 2 rw [getMember_other (by decide)]
    exact getMember_same (by decide)
  version := by
    unfold updateOf
    iterate 3 rw [getMember_other (by decide)]
    exact getMember_same (by decide)
  hash := by
    unfold updateOf
    iterate 4 rw [getMember_other (by decide)]
    exact getMember_same (by decide)
  url := by
    unfold updateOf
    iterate 5 rw [getMember_other (by decide)]
    exact getMember_same (by decide)
  code := by
    unfold updateOf
    iterate 6 rw [getMember_other (by decide)]
    exact getMember_same (by decide)
  force := by
    unfold updateOf
    iterate 7 rw [getMember_other (by decide)]
    exact getMember_same (by decide)

/-- The document that a message from Kafka holds. -/
def docOf (rid : Bytes) (o : Order) (force : Int) : CJson := obj [("update", updateOf rid o force)]

/-- An order of which the last four texts are empty. -/
def shortest : Order := ⟨[112], [109], [], [], [], []⟩

/-- An order with a version of 256 bytes. -/
def longVersion : Order := { shortest with version := List.replicate 256 118 }

/-- A client that manages one module. -/
def managing : aods.update_module_mgr.State where
  map_pm := (∅ : StdMap _).insert [112] ((∅ : StdMap _).insert [109] ⟨[], [], [], []⟩)
  un_update_times := 0

def appPath : AppPath := ⟨[47], by decide, by decide⟩

/-- A server that has authenticated one client. -/
def granted : aodc.update_module.State := State.empty.grant [114] [99]

theorem find_managing : managing.find [112] [109] = some ⟨[], [], [], []⟩ := by
  simp [managing, aods.update_module_mgr.State.find]
  rfl

theorem lookup_granted : granted.map_ruo.lookup [114] = some ⟨[99], [114]⟩ := by
  simp [granted, State.grant]

theorem shortest_fits : NameFits appPath 0 managing shortest := by
  unfold NameFits
  decide

theorem longVersion_fits : longVersion.Fits where
  zero_notMem := by
    have hversion : 0 ∉ longVersion.version :=
      fun h => absurd (List.eq_of_mem_replicate h) (by decide)
    simp only [Order.texts, List.forall_mem_cons]
    exact ⟨by decide, by decide, hversion, by decide, by decide, by decide, by simp⟩
  room := by
    have hversion : longVersion.version.length = 256 := List.length_replicate
    simp only [Order.texts, names, List.flatMap_cons, List.flatMap_nil, List.length_append,
      hversion]
    decide

theorem longVersion_notFits : ¬ NameFits appPath 0 managing longVersion := by
  unfold NameFits pubFileName
  simp only [List.length_append, longVersion, List.length_replicate, enMaxPathLen]
  omega

/-! ## The law -/

/-- The order that a document carries goes to the client of its server, and the client that
manages its module appends just its task, or none where it is not forced, if and only if
the file name of a forced order fits and no other force has the byte 1. -/
theorem an_order_is_obeyed_just_when_its_file_name_fits_and_its_force_is_a_byte
    {s : aodc.update_module.State} {doc update : CJson} {rid : Bytes} {ruo : UpdateObj}
    {force : Int}
    (hdoc : doc.getObjectItem "update" = some update)
    (hrid : update.getMember "rid" = .ok (.string rid))
    (hruo : s.map_ruo.lookup (cstr rid) = some ruo) (hcarries : Carries update o force)
    (hfits : o.Fits) (hmi : c.find o.project o.module = some mi) :
    ∃ sz_msg, onRecvFromKafka s (some doc) =
        .ok (s, [.channel_send_data ruo.str_channel_name (aodsAodcMsg enAodcAodsUmi sz_msg)]) ∧
      (Obeyed app_path tick c sz_msg o force ↔ Plain app_path tick c o force) := by
  refine ⟨payload o (uchar force), ?_, obeyed_iff hfits.zero_notMem hmi force⟩
  simp only [onRecvFromKafka, hdoc, hrid, CJson.valuestring, bind, Except.bind, hruo,
    updateText_ok hcarries hfits]

/-- The shortest order is obeyed. -/
theorem the_shortest_order_is_obeyed :
    ∃ sz_msg, onRecvFromKafka granted (some (docOf [114] shortest 1)) =
      .ok (granted, [.channel_send_data [99] (aodsAodcMsg enAodcAodsUmi sz_msg)]) ∧
    Obeyed appPath 0 managing sz_msg shortest 1 := by
  have hdoc : (docOf [114] shortest 1).getObjectItem "update" = some (updateOf [114] shortest 1) :=
    rfl
  have hrid : (updateOf [114] shortest 1).getMember "rid" = .ok (.string [114]) := rfl
  have hlaw : ∃ sz_msg, onRecvFromKafka granted (some (docOf [114] shortest 1)) =
        .ok (granted, [.channel_send_data [99] (aodsAodcMsg enAodcAodsUmi sz_msg)]) ∧
      (Obeyed appPath 0 managing sz_msg shortest 1 ↔ Plain appPath 0 managing shortest 1) :=
    an_order_is_obeyed_just_when_its_file_name_fits_and_its_force_is_a_byte hdoc hrid lookup_granted
      (carries_updateOf [114] shortest 1) ⟨by decide, by decide⟩ find_managing
  obtain ⟨sz_msg, hsent, hiff⟩ := hlaw
  exact ⟨sz_msg, hsent, hiff.mpr ⟨fun _ => shortest_fits, fun h => absurd rfl h⟩⟩

/-- A forced order with a version of 256 bytes overruns the file name of the client, and an order
with force 257 is taken for one with force 1. -/
theorem a_long_version_and_a_large_force_are_not_obeyed :
    longVersion.Fits ∧
      managing.find longVersion.project longVersion.module = some ⟨[], [], [], []⟩ ∧
    onRecvFromKafka granted (some (docOf [114] longVersion 1)) =
      .ok (granted, [.channel_send_data [99] (aodsAodcMsg enAodcAodsUmi (payload longVersion 1))]) ∧
    onRecvUmi appPath 0 managing (payload longVersion 1) = .error .overrun ∧
    ¬ Obeyed appPath 0 managing (payload longVersion (uchar 1)) longVersion 1 ∧
    ¬ Obeyed appPath 0 managing (payload shortest (uchar 257)) shortest 257 := by
  refine ⟨longVersion_fits, find_managing, ?_,
    onRecvUmi_long longVersion_fits.zero_notMem find_managing
    longVersion_notFits, ?_, ?_⟩
  · have hdoc : (docOf [114] longVersion 1).getObjectItem "update" =
        some (updateOf [114] longVersion 1) := rfl
    have hrid : (updateOf [114] longVersion 1).getMember "rid" = .ok (.string [114]) := rfl
    have hcstr : cstr [114] = [114] := rfl
    simp only [onRecvFromKafka, hdoc, hrid, CJson.valuestring, bind, Except.bind, hcstr,
      lookup_granted, updateText_ok (carries_updateOf [114] longVersion 1) longVersion_fits]
    rfl
  · rw [obeyed_iff longVersion_fits.zero_notMem find_managing]
    exact fun hplain => longVersion_notFits (hplain.1 rfl)
  · rw [obeyed_iff (by decide) find_managing]
    exact fun hplain => hplain.2 (by decide) (by decide)

end update_orders
