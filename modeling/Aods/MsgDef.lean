-- The messages between aods and aodc, packed structs one field behind another,
-- and what the modules of a process hand on to each other.
import Aods.Json
import Aods.Encrypt
import Aods.Helper

open machine
open util.encrypt util.helper util.json

namespace msg_def

def enAodsAodcActv : Nat := 1
def enAodcAodsActv : Nat := 2
def enAodsAodcAuth : Nat := 3
def enAodcAodsAuth : Nat := 4
def enAodsAodcUmi : Nat := 5
def enAodcAodsUmi : Nat := 6
def enAodsAodcUdr : Nat := 7
def enAodcAodsKeepalive : Nat := 14

def enAodsAodcMsgSize : Nat := 4
def enResIdLen : Nat := 6
def enRdSerialLen : Nat := 14
def enMaxIpAddrNum : Nat := 16
def enActCodeLen : Nat := 20
def enAodsAodcActivateSize : Nat := 86
def enAodcAodsActiveSize : Nat := 1
def enAodsActiveSucSize : Nat := 26
def enAodsAodcAuthenSize : Nat := 105

def enActSuccess : UInt8 := 0
def enActRltDbbusy : UInt8 := 3
def enActRltDatainv : UInt8 := 6
def enAuthResultDif : UInt8 := 2

/-- `AODS_AODC_AUTHEN`. -/
structure AodsAodcAuthen where
  uc_ip_num : UInt8
  un_ip_addr : Bytes
  uc_res_id : Bytes
  uc_rd_serial : Bytes
  uc_act_code : Bytes
  deriving DecidableEq, Repr

/-- The struct that lies over bytes. -/
def AodsAodcAuthen.over (b : Bytes) : AodsAodcAuthen where
  uc_ip_num := b.getD 0 0
  un_ip_addr := (b.drop 1).take 64
  uc_res_id := (b.drop 65).take 6
  uc_rd_serial := (b.drop 71).take 14
  uc_act_code := (b.drop 85).take 20

def AodsAodcAuthen.bytes (a : AodsAodcAuthen) : Bytes :=
  a.uc_ip_num :: (a.un_ip_addr ++ a.uc_res_id ++ a.uc_rd_serial ++ a.uc_act_code)

/-- The arrays of the struct have the lengths that it gives them. -/
structure AodsAodcAuthen.Packed (a : AodsAodcAuthen) : Prop where
  ip_addr : a.un_ip_addr.length = 64
  res_id : a.uc_res_id.length = 6
  rd_serial : a.uc_rd_serial.length = 14
  act_code : a.uc_act_code.length = 20

/-- `AODS_AODC_ACTIVE`. -/
structure AodsAodcActive where
  uc_index : UInt8
  uc_ip_num : UInt8
  un_ip_addr : Bytes
  uc_res_id : Bytes
  uc_rd_serial : Bytes
  deriving DecidableEq, Repr

def AodsAodcActive.over (b : Bytes) : AodsAodcActive where
  uc_index := b.getD 0 0
  uc_ip_num := b.getD 1 0
  un_ip_addr := (b.drop 2).take 64
  uc_res_id := (b.drop 66).take 6
  uc_rd_serial := (b.drop 72).take 14

def AodsAodcActive.bytes (a : AodsAodcActive) : Bytes :=
  a.uc_index :: a.uc_ip_num :: (a.un_ip_addr ++ a.uc_res_id ++ a.uc_rd_serial)

/-- The arrays of the struct have the lengths that it gives them. -/
structure AodsAodcActive.Packed (a : AodsAodcActive) : Prop where
  ip_addr : a.un_ip_addr.length = 64
  res_id : a.uc_res_id.length = 6
  rd_serial : a.uc_rd_serial.length = 14

/-- A message: its code and its text behind it. -/
def aodsAodcMsg (un_msg_code : Nat) (sz_msg : Bytes) : Bytes := le32 un_msg_code ++ sz_msg

/-- The message code at the front of some bytes. -/
def msgCode (data : Bytes) : Nat := word (data.take 4)

/-- `CalcActiveCode` of both modules of aodc: the last byte becomes the check byte of
the others, then all are encrypted. -/
def calcActiveCode (active_code : Bytes) : Bytes :=
  let checked := active_code.take 19 ++ [calcCrc8 (active_code.take 19)]
  let key := (List.range 16).map (fun n => UInt8.ofNat (n + 0x3f))
  (CAoEncrypt.default.setKey key 16).encode checked

/-- `GetIpAddrs` of install and of aods: the IPv4 addresses of the interfaces go over the
front of the list, at most `uc_num` of them. An interface may have none, and `none` for all of
them says that the system gives no list. -/
def getIpAddrs (ifaddrs : Option (List (Option (Arr 4)))) (uc_num : UInt8) (un_ip_addrs : Bytes) :
    Except Fault (Option (UInt8 × Bytes)) :=
  match ifaddrs with
  | none => .ok none
  | some ifaddrs =>
    let taken := (ifaddrs.filterMap id).take uc_num.toNat
    if taken.length * 4 > un_ip_addrs.length then .error .overrun
    else
      .ok (some (UInt8.ofNat taken.length,
        taken.flatMap Subtype.val ++ un_ip_addrs.drop (taken.length * 4)))

/-! ## Between modules -/

/-- What a module of aodc sends out. -/
inductive Out where
  | channel_send_data (channel : Bytes) (data : Bytes)
  | channel_free (channel : Bytes)
  | snd2kafka (doc : CJson)
  | auth_suc (data : Bytes)

/-- Names one behind another, each with its NUL. -/
def names (ns : List Bytes) : Bytes := ns.flatMap (fun n => n ++ [0])

/-- The channel name at the front of a message from the communication module. A name
without a NUL is read past the end of the message. -/
def channelName (data : Bytes) : Except Fault Bytes :=
  if 0 ∈ data then .ok (cstr data) else .error .overrun

def aodsChannelName : Bytes := text "AodsServer"

/-- The channel is one of a client of aodc. -/
def isAods (channel : Bytes) : Bool := strstr channel aodsChannelName

/-- The channel that a message tells of, when it is one of a client. -/
def clientChannel (data : Bytes) : Option Bytes :=
  if 0 ∈ data ∧ isAods (cstr data) then some (cstr data) else none

/-- What a handler of a lost channel does: it drops the channel of a client. -/
def lostChannel {σ : Type} (drop : σ → Bytes → σ) (s : σ) (data : Bytes) :
    Except Fault (σ × List Out) :=
  match channelName data with
  | .error f => .error f
  | .ok channel => .ok (if isAods channel then drop s channel else s, [])

/-! ## The laws -/

theorem calcActiveCode_eq (c : Bytes) :
    calcActiveCode c = (c.take 19 ++ [calcCrc8 (c.take 19)]).map (· + 10) := by
  rw [calcActiveCode]
  exact CAoEncrypt.encode_of_default (CAoEncrypt.setKey_en _ _ _) _

@[simp] theorem length_calcActiveCode {c : Bytes} (h : c.length = 20) :
    (calcActiveCode c).length = 20 := by
  rw [calcActiveCode_eq]
  simp [h]

theorem channelName_append {c : Bytes} (h : 0 ∉ c) (t : Bytes) :
    channelName (c ++ 0 :: t) = .ok c := by
  rw [channelName, if_pos (by simp), cstr_append h]

theorem channelName_eq {data c : Bytes} (h : channelName data = .ok c) :
    0 ∈ data ∧ c = cstr data := by
  rw [channelName] at h
  split at h
  · rename_i hz
    cases h
    exact ⟨hz, rfl⟩
  · cases h

theorem channelName_error {data : Bytes} {f : Fault} (h : channelName data = .error f) :
    f = .overrun := by
  unfold channelName at h
  split at h
  · cases h
  · cases h
    rfl

theorem channelName_ok {data c : Bytes} (h : channelName data = .ok c) :
    0 ∉ c ∧ data = c ++ 0 :: pastCstr data := by
  obtain ⟨hz, rfl⟩ := channelName_eq h
  exact ⟨zero_notMem_cstr data, cstr_pastCstr hz⟩

theorem clientChannel_some {data c : Bytes} (h : clientChannel data = some c) :
    channelName data = .ok c ∧ isAods c = true := by
  unfold clientChannel at h
  split at h
  · rename_i hz
    cases h
    exact ⟨if_pos hz.1, hz.2⟩
  · cases h

theorem clientChannel_none {data c : Bytes} (h : clientChannel data = none)
    (hc : channelName data = .ok c) : ¬ isAods c = true := by
  obtain ⟨hz, rfl⟩ := channelName_eq hc
  unfold clientChannel at h
  intro haods
  rw [if_pos ⟨hz, haods⟩] at h
  cases h

theorem clientChannel_of_name {data c : Bytes} (hc : channelName data = .ok c)
    (haods : isAods c = true) : clientChannel data = some c := by
  obtain ⟨hz, rfl⟩ := channelName_eq hc
  exact if_pos ⟨hz, haods⟩

theorem clientChannel_append {c : Bytes} (hc : 0 ∉ c) (haods : isAods c = true) (t : Bytes) :
    clientChannel (c ++ 0 :: t) = some c :=
  clientChannel_of_name (channelName_append hc t) haods

theorem lostChannel_client {σ : Type} (drop : σ → Bytes → σ) (s : σ) {data c : Bytes}
    (h : clientChannel data = some c) : lostChannel drop s data = .ok (drop s c, []) := by
  obtain ⟨hname, haods⟩ := clientChannel_some h
  simp only [lostChannel, hname, haods, if_true]

theorem lostChannel_other {σ : Type} {drop : σ → Bytes → σ} {s s' : σ} {data : Bytes}
    {os : List Out} (h : clientChannel data = none) (hs : lostChannel drop s data = .ok (s', os)) :
    s' = s ∧ os = [] := by
  unfold lostChannel at hs
  cases hname : channelName data with
  | error f =>
    rw [hname] at hs
    cases hs
  | ok c =>
    rw [hname] at hs
    dsimp only at hs
    rw [if_neg (clientChannel_none h hname)] at hs
    cases hs
    exact ⟨rfl, rfl⟩

theorem lostChannel_cases {σ : Type} {drop : σ → Bytes → σ} {s s' : σ} {data : Bytes}
    {os : List Out} (hs : lostChannel drop s data = .ok (s', os)) :
    os = [] ∧ ((∃ c, clientChannel data = some c ∧ s' = drop s c) ∨
      (clientChannel data = none ∧ s' = s)) := by
  cases hc : clientChannel data with
  | none =>
    obtain ⟨hsame, hnil⟩ := lostChannel_other hc hs
    exact ⟨hnil, Or.inr ⟨rfl, hsame⟩⟩
  | some c =>
    rw [lostChannel_client drop s hc] at hs
    cases hs
    exact ⟨rfl, Or.inl ⟨c, rfl, rfl⟩⟩

theorem field_eq {b p x q : Bytes} {n k : Nat} (hb : b = p ++ (x ++ q)) (hn : p.length = n)
    (hk : x.length = k) : (b.drop n).take k = x := by
  rw [hb, ← hn, List.drop_left, ← hk]
  exact List.take_left ..

theorem field_byte {b p q : Bytes} {x : UInt8} {n : Nat} (hb : b = p ++ x :: q)
    (hn : p.length = n) :
    b.getD n 0 = x := by
  simp [hb, ← hn]

theorem AodsAodcAuthen.length_bytes {a : AodsAodcAuthen} (h : a.Packed) : a.bytes.length = 105 := by
  simp [AodsAodcAuthen.bytes, h.ip_addr, h.res_id, h.rd_serial, h.act_code]

theorem AodsAodcAuthen.over_bytes {a : AodsAodcAuthen} (h : a.Packed) : .over a.bytes = a := by
  obtain ⟨num, ips, rid, serial, code⟩ := a
  obtain ⟨h1, h2, h3, h4⟩ := h
  dsimp only at h1 h2 h3 h4
  have e1 := field_eq (b := num :: (ips ++ rid ++ serial ++ code)) (p := [num]) (x := ips)
    (q := rid ++ serial ++ code) (by simp) rfl h1
  have e2 := field_eq (b := num :: (ips ++ rid ++ serial ++ code)) (p := num :: ips) (x := rid)
    (q := serial ++ code) (n := 65) (by simp) (by simp [h1]) h2
  have e3 := field_eq (b := num :: (ips ++ rid ++ serial ++ code)) (p := num :: (ips ++ rid))
    (x := serial) (q := code) (n := 71) (by simp) (by simp [h1, h2]) h3
  have e4 :=
    field_eq (b := num :: (ips ++ rid ++ serial ++ code)) (p := num :: (ips ++ rid ++ serial))
    (x := code) (q := []) (n := 85) (by simp) (by simp [h1, h2, h3]) h4
  rw [AodsAodcAuthen.over, AodsAodcAuthen.bytes]
  dsimp only at e1 ⊢
  rw [e2, e3, e4]
  exact congrArg (fun x => AodsAodcAuthen.mk num x rid serial code) e1

theorem AodsAodcActive.length_bytes {a : AodsAodcActive} (h : a.Packed) : a.bytes.length = 86 := by
  simp [AodsAodcActive.bytes, h.ip_addr, h.res_id, h.rd_serial]

theorem AodsAodcActive.over_bytes {a : AodsAodcActive} (h : a.Packed) : .over a.bytes = a := by
  obtain ⟨index, num, ips, rid, serial⟩ := a
  obtain ⟨h1, h2, h3⟩ := h
  dsimp only at h1 h2 h3
  have e1 := field_eq (b := index :: num :: (ips ++ rid ++ serial)) (p := [index, num]) (x := ips)
    (q := rid ++ serial) (by simp) rfl h1
  have e2 :=
    field_eq (b := index :: num :: (ips ++ rid ++ serial)) (p := index :: num :: ips) (x := rid)
    (q := serial) (n := 66) (by simp) (by simp [h1]) h2
  have e3 :=
    field_eq (b := index :: num :: (ips ++ rid ++ serial)) (p := index :: num :: (ips ++ rid))
    (x := serial) (q := []) (n := 72) (by simp) (by simp [h1, h2]) h3
  rw [AodsAodcActive.over, AodsAodcActive.bytes]
  dsimp only at e1 ⊢
  rw [e2, e3]
  exact congrArg (fun x => AodsAodcActive.mk index num x rid serial) e1

theorem msgCode_aodsAodcMsg {n : Nat} (h : n < 4294967296) (msg : Bytes) :
    msgCode (aodsAodcMsg n msg) = n := by
  have htake : (aodsAodcMsg n msg).take 4 = le32 n := rfl
  rw [msgCode, htake, word_le32]
  exact u32_of_lt h

theorem length_flatMap_arr {n : Nat} (as : List (Arr n)) :
    (as.flatMap Subtype.val).length = as.length * n := by
  induction as with
  | nil => simp
  | cons a as ih =>
    rw [List.flatMap_cons, List.length_append, ih, a.2, List.length_cons, Nat.add_mul, Nat.one_mul,
      Nat.add_comm]

/-- A list of sixteen addresses takes all that are asked for when no more are asked for. -/
theorem getIpAddrs_sixteen (ifaddrs : Option (List (Option (Arr 4)))) {uc_num : UInt8} {ips : Bytes}
    (hnum : uc_num.toNat ≤ enMaxIpAddrNum) (hips : ips.length = 64) :
    (ifaddrs = none ∧ getIpAddrs ifaddrs uc_num ips = .ok none) ∨
      ∃ num ips', getIpAddrs ifaddrs uc_num ips = .ok (some (num, ips')) ∧
        num.toNat ≤ enMaxIpAddrNum ∧ ips'.length = 64 := by
  cases ifaddrs with
  | none => exact Or.inl ⟨rfl, rfl⟩
  | some ifaddrs =>
    have hsix : enMaxIpAddrNum = 16 := rfl
    have htaken : ((ifaddrs.filterMap id).take uc_num.toNat).length ≤ 16 := by
      rw [List.length_take]
      omega
    right
    simp only [getIpAddrs]
    rw [if_neg (by omega)]
    refine ⟨_, _, rfl, ?_, ?_⟩
    · rw [UInt8.toNat_ofNat']
      omega
    · rw [List.length_append, length_flatMap_arr, List.length_drop]
      omega

theorem isAods_ne_nil {c : Bytes} (h : isAods c = true) : c ≠ [] := by
  rintro rfl
  exact absurd h (by decide)

theorem cstrs_names {t1 t2 t3 t4 : Bytes} (h1 : 0 ∉ t1) (h2 : 0 ∉ t2) (h3 : 0 ∉ t3) (h4 : 0 ∉ t4)
    (more : List Bytes) :
    4 ≤ (names (t1 :: t2 :: t3 :: t4 :: more)).count 0 ∧
    cstr (names (t1 :: t2 :: t3 :: t4 :: more)) = t1 ∧
    cstr (pastCstr (names (t1 :: t2 :: t3 :: t4 :: more))) = t2 ∧
    cstr (pastCstr (pastCstr (names (t1 :: t2 :: t3 :: t4 :: more)))) = t3 ∧
    cstr (pastCstr (pastCstr (pastCstr (names (t1 :: t2 :: t3 :: t4 :: more))))) = t4 := by
  have hbytes : names (t1 :: t2 :: t3 :: t4 :: more) =
      t1 ++ 0 :: (t2 ++ 0 :: (t3 ++ 0 :: (t4 ++ 0 :: names more))) := by
    simp [names]
  rw [hbytes, cstr_append h1, pastCstr_append h1, cstr_append h2, pastCstr_append h2,
    cstr_append h3, pastCstr_append h3, cstr_append h4]
  refine ⟨?_, rfl, rfl, rfl, rfl⟩
  simp only [List.count_append, List.count_cons_self]
  omega

end msg_def
