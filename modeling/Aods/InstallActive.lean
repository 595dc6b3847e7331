-- `CAodsActiveModule` of install: it asks for an activation when its channel to aodc
-- is built, and saves what an activation says in a file that aods reads.
import Aods.MsgDef

open machine
open util.encrypt util.helper util.json msg_def

namespace install.active_module

/-- The module. Its serial, its number of addresses and its addresses are those of the last
request. -/
structure Install where
  b_actived : Bool
  uc_index : UInt8
  uc_rd_serial : Bytes
  uc_ip_num : UInt8
  un_ip_addr : Bytes
  deriving DecidableEq, Repr

/-- The module at first. The serial is not set before a request. -/
def Install.start : Install := ⟨false, 0, List.replicate 14 0, 0, List.replicate 64 0⟩

/-- The arrays of the module have the lengths that it gives them. -/
structure Install.Packed (i : Install) : Prop where
  rd_serial : i.uc_rd_serial.length = enRdSerialLen
  ip_num : i.uc_ip_num.toNat ≤ enMaxIpAddrNum
  ip_addr : i.un_ip_addr.length = 64

/-- The channel to aodc. -/
def aodcClient : Bytes := text "AodcClient"

def onSetActivePara (i : Install) (uc_index : UInt8) : Install := { i with uc_index := uc_index }

/-- The request, with a resource id of zeros. -/
def activeOf (i : Install) : AodsAodcActive where
  uc_index := i.uc_index
  uc_ip_num := i.uc_ip_num
  un_ip_addr := i.un_ip_addr
  uc_res_id := List.replicate enResIdLen 0
  uc_rd_serial := i.uc_rd_serial

/-- `OnChannelBuild`, with what `rand` gives for the serial. It gives what is sent to aodc.
A list of addresses that the system does not give leaves the old ones, as sixteen. -/
def onChannelBuild (i : Install) (data : Bytes) (rd_serial : Arr 14)
    (ifaddrs : Option (List (Option (Arr 4)))) : Except Fault (Install × List Bytes) := do
  let name ← channelName data
  if i.b_actived ∨ name ≠ aodcClient then .ok (i, [])
  else
    let addrs ← getIpAddrs ifaddrs (UInt8.ofNat enMaxIpAddrNum) i.un_ip_addr
    let (num, ips) := addrs.getD (UInt8.ofNat enMaxIpAddrNum, i.un_ip_addr)
    let asking := { i with uc_rd_serial := rd_serial.1, uc_ip_num := num, un_ip_addr := ips }
    .ok (asking, [aodsAodcMsg enAodsAodcActv (activeOf asking).bytes])

/-- The cipher of the file, which install and aods both set up. -/
def fileCipher : CAoEncrypt :=
  CAoEncrypt.default.setKey ((List.range 16).map (fun n => UInt8.ofNat (n + 0xBC))) 16

/-- What `SaveActive` writes to `data/aoauth.db`. -/
def saveActive (i : Install) (uc_res_id uc_act_code : Bytes) : Bytes :=
  fileCipher.encode (uc_res_id ++ i.uc_rd_serial ++ [i.uc_ip_num] ++ i.un_ip_addr ++ uc_act_code)

/-- `ActiveSuccess`, with an `AODS_ACTIVE_SUC`. `none`: no file is written. -/
def activeSuccess (i : Install) (act_data : Bytes) : Option Bytes :=
  if act_data.length ≠ enAodsActiveSucSize then none
  else some (saveActive i (act_data.take enResIdLen) ((act_data.drop enResIdLen).take enActCodeLen))

/-- `OnRecvChannelData`. It gives the file that is written. -/
def onRecvChannelData (i : Install) (data : Bytes) : Except Fault (Install × Option Bytes) := do
  let name ← channelName data
  if name ≠ aodcClient then .ok (i, none)
  else if data.length ≤ name.length + 1 + enAodsAodcMsgSize then .ok (i, none)
  else
    let msg := pastCstr data
    if msgCode msg ≠ enAodcAodsActv then .ok (i, none)
    else
      match msg.drop enAodsAodcMsgSize with
      -- shorter than `AODC_AODS_ACTIVE`
      | [] => .ok (i, none)
      | uc_result :: uc_data =>
        .ok ({ i with b_actived := true },
          if uc_result = enActSuccess then activeSuccess i uc_data else none)

/-! ## The laws -/

theorem Install.start_packed : Install.start.Packed := ⟨rfl, by decide, rfl⟩

theorem zero_notMem_aodcClient : 0 ∉ aodcClient := by decide

theorem activeOf_packed {i : Install} (h : i.Packed) : (activeOf i).Packed where
  ip_addr := h.ip_addr
  res_id := rfl
  rd_serial := h.rd_serial

/-- When the channel to aodc is built, an install that is not activated asks, with a serial of
its own. -/
theorem onChannelBuild_asks {i : Install} (h : i.Packed) (hnew : i.b_actived = false)
    (rd_serial : Arr 14) (ifaddrs : Option (List (Option (Arr 4)))) (t : Bytes) :
    ∃ asking : Install, asking.Packed ∧ asking.b_actived = false ∧
      asking.uc_rd_serial = rd_serial.1 ∧ asking.uc_index = i.uc_index ∧
      onChannelBuild i (aodcClient ++ 0 :: t) rd_serial ifaddrs =
        .ok (asking, [aodsAodcMsg enAodsAodcActv (activeOf asking).bytes]) := by
  have hname := channelName_append zero_notMem_aodcClient t
  have hsixteen : (UInt8.ofNat enMaxIpAddrNum).toNat ≤ enMaxIpAddrNum := by decide
  rcases getIpAddrs_sixteen ifaddrs hsixteen h.ip_addr with ⟨_, haddrs⟩ |
    ⟨num, ips, haddrs, hnum, hips⟩
  · refine ⟨{ i with uc_rd_serial := rd_serial.1, uc_ip_num := UInt8.ofNat enMaxIpAddrNum },
      ⟨rd_serial.2, hsixteen, h.ip_addr⟩, hnew, rfl, rfl, ?_⟩
    simp [onChannelBuild, hname, hnew, haddrs, bind, Except.bind]
  · refine ⟨{ i with uc_rd_serial := rd_serial.1, uc_ip_num := num, un_ip_addr := ips },
      ⟨rd_serial.2, hnum, hips⟩, hnew, rfl, rfl, ?_⟩
    simp [onChannelBuild, hname, hnew, haddrs, bind, Except.bind]

theorem onChannelBuild_actived {i : Install} (h : i.b_actived = true) (rd_serial : Arr 14)
    (ifaddrs : Option (List (Option (Arr 4)))) (t : Bytes) :
    onChannelBuild i (aodcClient ++ 0 :: t) rd_serial ifaddrs = .ok (i, []) := by
  simp [onChannelBuild, channelName_append zero_notMem_aodcClient, h, bind, Except.bind]

/-- A message from aodc, with its code and a result: it is the end of the activation, and a
success of the right length writes the file. -/
theorem onRecvChannelData_actv (i : Install) (uc_result : UInt8) (uc_data : Bytes) :
    onRecvChannelData i (aodcClient ++ 0 :: aodsAodcMsg enAodcAodsActv (uc_result :: uc_data)) =
      .ok ({ i with b_actived := true },
        if uc_result = enActSuccess then activeSuccess i uc_data else none) := by
  have hname := channelName_append zero_notMem_aodcClient
    (aodsAodcMsg enAodcAodsActv (uc_result :: uc_data))
  have hlen : ¬ (aodcClient ++ 0 :: aodsAodcMsg enAodcAodsActv (uc_result :: uc_data)).length ≤
      aodcClient.length + 1 + enAodsAodcMsgSize := by
    simp [aodsAodcMsg, enAodsAodcMsgSize]
    omega
  have hcode : msgCode (aodsAodcMsg enAodcAodsActv (uc_result :: uc_data)) = enAodcAodsActv :=
    msgCode_aodsAodcMsg (by decide) _
  have hdrop : (aodsAodcMsg enAodcAodsActv (uc_result :: uc_data)).drop enAodsAodcMsgSize =
      uc_result :: uc_data := rfl
  simp only [onRecvChannelData, hname, hlen, pastCstr_append zero_notMem_aodcClient, hcode, hdrop,
    bind, Except.bind, ne_eq, not_true_eq_false, if_false]

theorem activeSuccess_suc (i : Install) {uc_res_id uc_act_code : Bytes}
    (hrid : uc_res_id.length = enResIdLen) (hcode : uc_act_code.length = enActCodeLen) :
    activeSuccess i (uc_res_id ++ uc_act_code) = some (saveActive i uc_res_id uc_act_code) := by
  have hlen : (uc_res_id ++ uc_act_code).length = enAodsActiveSucSize := by
    rw [List.length_append, hrid, hcode]
    rfl
  have htake : (uc_res_id ++ uc_act_code).take enResIdLen = uc_res_id := by
    rw [← hrid]
    exact List.take_left ..
  have hdrop : (uc_res_id ++ uc_act_code).drop enResIdLen = uc_act_code := by
    rw [← hrid]
    exact List.drop_left ..
  rw [activeSuccess, if_neg (not_not.mpr hlen), htake, hdrop, ← hcode, List.take_length]

end install.active_module
