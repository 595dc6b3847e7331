-- `CAodsAuthModule` of aods: the AUTH message that it builds from the file that
-- install saved.
import Aods.InstallActive

open machine
open util.encrypt util.helper msg_def
open install.active_module

namespace aods.auth_module

/-- `ReadActiveData`: the file is decoded and sliced. `none`: there is too little of it. -/
def readActiveData (file : Bytes) : Option AodsAodcAuthen :=
  if file.length < enAodsAodcAuthenSize then none
  else
    let buf := fileCipher.decode file
    some {
      uc_res_id := buf.take enResIdLen
      uc_rd_serial := (buf.drop enResIdLen).take enRdSerialLen
      uc_ip_num := buf.getD (enResIdLen + enRdSerialLen) 0
      un_ip_addr := (buf.drop (enResIdLen + enRdSerialLen + 1)).take (enMaxIpAddrNum * 4)
      uc_act_code :=
        (buf.drop (enResIdLen + enRdSerialLen + 1 + enMaxIpAddrNum * 4)).take enActCodeLen }

/-- `OnAuthen`: the AUTH message that goes out, with the present addresses in the place of the
saved ones. `none`: the process ends instead. -/
def onAuthen (file : Option Bytes) (ifaddrs : Option (List (Option (Arr 4)))) :
    Except Fault (Option AodsAodcAuthen) :=
  match file.bind readActiveData with
  | none => .ok none
  | some a => do
    let addrs ← getIpAddrs ifaddrs a.uc_ip_num a.un_ip_addr
    .ok (addrs.map (fun (num, ips) => { a with uc_ip_num := num, un_ip_addr := ips }))

/-! ## The laws -/

theorem readActiveData_saveActive {i : Install} (h : i.Packed) {uc_res_id uc_act_code : Bytes}
    (hrid : uc_res_id.length = enResIdLen) (hcode : uc_act_code.length = enActCodeLen) :
    readActiveData (saveActive i uc_res_id uc_act_code) =
      some ⟨i.uc_ip_num, i.un_ip_addr, uc_res_id, i.uc_rd_serial, uc_act_code⟩ := by
  obtain ⟨b_actived, uc_index, serial, num, ips⟩ := i
  obtain ⟨hserial, _, hips⟩ := h
  dsimp only at hserial hips ⊢
  have hlen : (saveActive ⟨b_actived, uc_index, serial, num, ips⟩ uc_res_id uc_act_code).length =
      enAodsAodcAuthenSize := by
    simp [saveActive, hrid, hserial, hips, hcode, enResIdLen, enRdSerialLen, enActCodeLen,
      enAodsAodcAuthenSize]
  have hbuf : fileCipher.decode
      (saveActive ⟨b_actived, uc_index, serial, num, ips⟩ uc_res_id uc_act_code) =
      uc_res_id ++ serial ++ [num] ++ ips ++ uc_act_code := by
    rw [saveActive]
    exact CAoEncrypt.decode_encode (CAoEncrypt.paired_setKey CAoEncrypt.paired_default _ _) _
  generalize hall : uc_res_id ++ serial ++ [num] ++ ips ++ uc_act_code = buf at hbuf
  have h1 : (buf.drop 0).take enResIdLen = uc_res_id :=
    field_eq (p := []) (q := serial ++ [num] ++ ips ++ uc_act_code) (by simp [← hall]) rfl hrid
  have h2 : (buf.drop enResIdLen).take enRdSerialLen = serial :=
    field_eq (p := uc_res_id) (q := [num] ++ ips ++ uc_act_code) (by simp [← hall]) hrid hserial
  have h3 : buf.getD (enResIdLen + enRdSerialLen) 0 = num :=
    field_byte (p := uc_res_id ++ serial) (q := ips ++ uc_act_code) (by simp [← hall])
      (by simp [hrid, hserial])
  have h4 : (buf.drop (enResIdLen + enRdSerialLen + 1)).take (enMaxIpAddrNum * 4) = ips :=
    field_eq (p := uc_res_id ++ serial ++ [num]) (q := uc_act_code) (by simp [← hall])
      (by simp only [List.length_append, hrid, hserial, List.length_singleton]) hips
  have h5 : (buf.drop (enResIdLen + enRdSerialLen + 1 + enMaxIpAddrNum * 4)).take enActCodeLen =
      uc_act_code :=
    field_eq (p := uc_res_id ++ serial ++ [num] ++ ips) (q := []) (by simp [← hall])
      (by simp only [List.length_append, hrid, hserial, hips, List.length_singleton]; rfl) hcode
  rw [List.drop_zero] at h1
  rw [readActiveData, hlen, if_neg (by decide), hbuf]
  dsimp only
  rw [h1, h2, h3, h4, h5]

/-- The AUTH message of a server that install activated has the saved resource id, serial and
code, and some addresses. Without a list of addresses there is none. -/
theorem onAuthen_saveActive {i : Install} (h : i.Packed) {uc_res_id uc_act_code : Bytes}
    (hrid : uc_res_id.length = enResIdLen) (hcode : uc_act_code.length = enActCodeLen)
    (ifaddrs : Option (List (Option (Arr 4)))) :
    (ifaddrs = none ∧ onAuthen (some (saveActive i uc_res_id uc_act_code)) ifaddrs = .ok none) ∨
      ∃ num ips, ips.length = 64 ∧ onAuthen (some (saveActive i uc_res_id uc_act_code)) ifaddrs =
        .ok (some ⟨num, ips, uc_res_id, i.uc_rd_serial, uc_act_code⟩) := by
  have hread := readActiveData_saveActive h hrid hcode
  rcases getIpAddrs_sixteen ifaddrs h.ip_num h.ip_addr with ⟨hnone, haddrs⟩ |
    ⟨num, ips, haddrs, _, hips⟩
  · left
    refine ⟨hnone, ?_⟩
    simp [onAuthen, hread, haddrs, bind, Except.bind]
  · right
    refine ⟨num, ips, hips, ?_⟩
    simp [onAuthen, hread, haddrs, bind, Except.bind]

end aods.auth_module
