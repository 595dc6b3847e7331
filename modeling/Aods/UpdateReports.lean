-- Reports of updates, from a client to Kafka. aodc counts the NULs of a payload and then
-- walks over four strings in it; a walk that leaves the payload is a fault here. The law
-- says that no payload leads it out, and that the payloads of a client come through.
import Aods.AodcUpdate
import Aods.DownloadThread

open machine
open util.json msg_def
open aodc.update_module
open aods.update_module_mgr (DownloadItem aodcClientName sendUmi report2Aodc)
open aods.download_thread (downloadResult resultTexts)

namespace update_reports

/-! ## The reads -/

/-- The C string at an offset. A read past the end of the payload is a fault. -/
def strAt (data : Bytes) (offset : Nat) : Except Fault Bytes :=
  if 0 ∈ data.drop offset then .ok (cstr (data.drop offset)) else .error .overrun

/-- `pucData[0]`. -/
def byteAt (data : Bytes) : Except Fault UInt8 :=
  match data with
  | [] => .error .overrun
  | b :: _ => .ok b

/-- The four strings that `pszValue` goes over, from an offset on. -/
def values (data : Bytes) (offset : Nat) : Except Fault (Bytes × Bytes × Bytes × Bytes) := do
  let project ← strAt data offset
  let offset := offset + project.length + 1
  let module ← strAt data offset
  let offset := offset + module.length + 1
  let version ← strAt data offset
  let offset := offset + version.length + 1
  let hash ← strAt data offset
  .ok (project, module, version, hash)

/-- The object of a report. -/
def members (rid : Bytes) (v : Bytes × Bytes × Bytes × Bytes) (more : List (String × CJson)) :
    CJson :=
  obj ([("project", .string v.1), ("module", .string v.2.1), ("version", .string v.2.2.1),
    ("hash", .string v.2.2.2), ("rid", .string rid)] ++ more)

/-- `OnRecvUpdateModuleInfo` with its reads. -/
def updateModuleInfo (rid data : Bytes) : Except Fault (List Out) :=
  if data.count 0 < 4 then .ok []
  else do
    let v ← values data 0
    .ok [.snd2kafka (obj [("check_update", members rid v [])])]

/-- `OnRecvUpdateModuleResult` with its reads. -/
def updateModuleResult (rid data : Bytes) : Except Fault (List Out) :=
  if (data.drop 1).count 0 < 4 then .ok []
  else do
    let v ← values data 1
    let result ← byteAt data
    .ok [.snd2kafka (obj [("update_result", members rid v [("result", .number result.toNat)])])]

/-! ## Every payload -/

/-- A payload with NULs from an offset on has a string there, and one NUL fewer behind it. -/
theorem strAt_ok {data : Bytes} {offset n : Nat} (h : n + 1 ≤ (data.drop offset).count 0) :
    strAt data offset = .ok (cstr (data.drop offset)) ∧
      data.drop (offset + (cstr (data.drop offset)).length + 1) = pastCstr (data.drop offset) ∧
      n ≤ (pastCstr (data.drop offset)).count 0 := by
  have hmem : 0 ∈ data.drop offset := by
    apply List.count_pos_iff.mp
    omega
  refine ⟨if_pos hmem, ?_, ?_⟩
  · rw [pastCstr, List.drop_drop, Nat.add_assoc]
  · have hbytes := cstr_pastCstr hmem
    have hzero : (cstr (data.drop offset)).count 0 = 0 :=
      List.count_eq_zero.mpr (zero_notMem_cstr _)
    rw [hbytes, List.count_append, hzero, List.count_cons_self] at h
    omega

/-- Four NULs from an offset on are enough for the walk. -/
theorem values_ok {data : Bytes} {offset : Nat} (h : 4 ≤ (data.drop offset).count 0) :
    values data offset = .ok (cstr (data.drop offset), cstr (pastCstr (data.drop offset)),
      cstr (pastCstr (pastCstr (data.drop offset))),
      cstr (pastCstr (pastCstr (pastCstr (data.drop offset))))) := by
  obtain ⟨h1, hrest1, hcount1⟩ := strAt_ok (n := 3) h
  rw [← hrest1] at hcount1
  obtain ⟨h2, hrest2, hcount2⟩ := strAt_ok (n := 2) hcount1
  rw [← hrest2] at hcount2
  obtain ⟨h3, hrest3, hcount3⟩ := strAt_ok (n := 1) hcount2
  rw [← hrest3] at hcount3
  obtain ⟨h4, _, _⟩ := strAt_ok (n := 0) hcount3
  unfold values
  simp only [h1, bind, Except.bind]
  rw [h2]
  dsimp only
  rw [h3]
  dsimp only
  rw [h4, hrest3, hrest2, hrest1]

/-- The reads of `OnRecvUpdateModuleInfo` stay in its payload. -/
theorem updateModuleInfo_eq (rid data : Bytes) :
    updateModuleInfo rid data = .ok (onRecvUpdateModuleInfo rid data) := by
  unfold updateModuleInfo onRecvUpdateModuleInfo
  split
  · rfl
  · rename_i h
    rw [values_ok (by rw [List.drop_zero]; omega), List.drop_zero]
    rfl

/-- The reads of `OnRecvUpdateModuleResult` stay in its payload. -/
theorem updateModuleResult_eq (rid data : Bytes) :
    updateModuleResult rid data = .ok (onRecvUpdateModuleResult rid data) := by
  unfold updateModuleResult onRecvUpdateModuleResult
  split
  · rfl
  · rename_i h
    rw [values_ok (by omega)]
    cases data with
    | nil => simp at h
    | cons b data => rfl

/-! ## The payloads of a client -/

/-- The object of a report with the texts of a client. -/
def report (rid project module version hash : Bytes) (more : List (String × CJson)) : CJson :=
  members rid (project, module, version, hash) more

theorem info_names {project module version hash : Bytes} (h1 : 0 ∉ project) (h2 : 0 ∉ module)
    (h3 : 0 ∉ version) (h4 : 0 ∉ hash) (rid : Bytes) :
    updateModuleInfo rid (names [project, module, version, hash]) =
      .ok [.snd2kafka (obj [("check_update", report rid project module version hash [])])] := by
  obtain ⟨hcount, ht1, ht2, ht3, ht4⟩ := cstrs_names h1 h2 h3 h4 []
  unfold updateModuleInfo
  rw [if_neg (by omega), values_ok (by rw [List.drop_zero]; exact hcount), List.drop_zero, ht1, ht2,
    ht3, ht4]
  rfl

theorem result_names {project module version hash : Bytes} (h1 : 0 ∉ project) (h2 : 0 ∉ module)
    (h3 : 0 ∉ version) (h4 : 0 ∉ hash) (more : List Bytes) (rid : Bytes) (uc_rlt : UInt8) :
    updateModuleResult rid (uc_rlt :: names (project :: module :: version :: hash :: more)) =
      .ok [.snd2kafka (obj [("update_result",
        report rid project module version hash [("result", .number uc_rlt.toNat)])])] := by
  obtain ⟨hcount, ht1, ht2, ht3, ht4⟩ := cstrs_names h1 h2 h3 h4 more
  unfold updateModuleResult
  rw [if_neg (by rw [List.drop_one, List.tail_cons]; omega),
    values_ok (by rw [List.drop_one, List.tail_cons]; exact hcount), List.drop_one, List.tail_cons,
    ht1, ht2, ht3, ht4]
  rfl

/-- Texts that fit the arrays of `SendUmi` and `Report2Aodc`. -/
def UmiFits (project module version hash : Bytes) : Prop :=
  aodcClientName.length + 1 + enAodsAodcMsgSize + (names [project, module, version, hash]).length ≤
    1024

theorem sendUmi_fits {project module version hash : Bytes}
    (h : UmiFits project module version hash) :
    sendUmi project module version hash =
      .ok (aodcClientName ++
        0 :: aodsAodcMsg enAodsAodcUmi (names [project, module, version, hash])) := by
  unfold UmiFits at h
  unfold sendUmi report2Aodc
  dsimp only
  rw [if_neg (by omega), if_neg]
  simp only [aodsAodcMsg, List.length_append, List.length_cons, length_le32,
    enAodsAodcMsgSize] at h ⊢
  omega

/-! ## The law -/

/-- What a client sends of the version of a module, and of the result of a task, becomes the
record of its texts, where they fit the arrays; and no payload leads a parser out of it. -/
theorem reports_come_through_and_no_payload_is_overrun (rid : Bytes) :
    (∀ project module version hash, 0 ∉ project → 0 ∉ module → 0 ∉ version → 0 ∉ hash →
      UmiFits project module version hash →
      ∃ sz_msg, sendUmi project module version hash =
          .ok (aodcClientName ++ 0 :: aodsAodcMsg enAodsAodcUmi sz_msg) ∧
        updateModuleInfo rid sz_msg =
          .ok [.snd2kafka (obj [("check_update", report rid project module version hash [])])]) ∧
    (∀ uc_rlt di, (∀ t ∈ resultTexts di, 0 ∉ t) → 1 + (names (resultTexts di)).length ≤ 5120 →
      ∃ uc_result, downloadResult uc_rlt di = .ok uc_result ∧
        updateModuleResult rid uc_result =
          .ok [.snd2kafka (obj [("update_result", report rid di.str_prj di.str_module
            di.str_file_ver di.str_file_hash [("result", .number uc_rlt.toNat)])])]) ∧
    ∀ data, (∃ os, updateModuleInfo rid data = .ok os) ∧
      ∃ os, updateModuleResult rid data = .ok os := by
  refine ⟨fun project module version hash h1 h2 h3 h4 hfits => ?_, fun uc_rlt di hzero hfits => ?_,
    fun data => ⟨⟨_, updateModuleInfo_eq rid data⟩, _, updateModuleResult_eq rid data⟩⟩
  · exact ⟨_, sendUmi_fits hfits, info_names h1 h2 h3 h4 rid⟩
  · have hresult : downloadResult uc_rlt di = .ok (uc_rlt :: names (resultTexts di)) := by
      unfold downloadResult
      rw [if_neg (by rw [List.length_cons]; omega)]
    simp only [resultTexts, List.forall_mem_cons] at hzero
    obtain ⟨h1, h2, h3, h4, _⟩ := hzero
    exact ⟨_, hresult, result_names h1 h2 h3 h4 _ rid uc_rlt⟩

/-- The version of a module with texts of one letter. -/
theorem a_short_report_comes_through : ∃ sz_msg,
    sendUmi [112] [109] [118] [104] =
      .ok (aodcClientName ++ 0 :: aodsAodcMsg enAodsAodcUmi sz_msg) ∧
    updateModuleInfo [114] sz_msg =
      .ok [.snd2kafka (obj [("check_update", report [114] [112] [109] [118] [104] [])])] :=
  (reports_come_through_and_no_payload_is_overrun [114]).1 [112] [109] [118] [104]
    (by decide) (by decide)
    (by decide) (by decide) (by unfold UmiFits; decide)

end update_reports
