-- `CAodsAuthModule` of aodc: which channel a server's resource id is bound to.
-- An AUTH message binds, the loss of a channel unbinds, and the answer of the
-- deploy control goes to the channel that is bound when it comes.
import Aods.MsgDef
import Aods.Runs
import Aods.StdMap

open machine runs std_map
open util.helper util.json msg_def

namespace aodc.auth_module

/-- `AUTH_INFO`. -/
structure AuthInfo where
  uc_ip_num : UInt8
  str_channel_name : Bytes
  un_ip_addr : Bytes
  deriving DecidableEq, Repr

/-- The entry that `operator[]` makes of a key that is not there. -/
def AuthInfo.blank : AuthInfo := ⟨0, [], List.replicate 64 0⟩

structure State where
  map_rc : StdMap AuthInfo
  map_cr : StdMap Bytes

def State.empty : State := ⟨∅, ∅⟩

/-- The messages that the module handles. With a message from a channel comes what lies
behind it in the queue, and whether the bytes behind its list of addresses are those
behind the stored list. -/
inductive Event where
  | recv_data (data behind : Bytes) (alike_behind : Bool)
  | send_data_fail (data : Bytes)
  | freed (data : Bytes)
  | rcvfkafka (doc : Option CJson)

/-- `memcmp` of the addresses finds a difference. The count is the stored one, and past
the sixteenth address it compares what lies behind the lists. -/
def addrsDiffer (ai : AuthInfo) (a : AodsAodcAuthen) (alike_behind : Bool) : Bool :=
  let n := ai.uc_ip_num.toNat * 4
  ai.un_ip_addr.take n ≠ a.un_ip_addr.take n || (decide (64 < n) && !alike_behind)

def reportAuthenMsg (active_code hex_res_id : Bytes) : Out :=
  .snd2kafka (obj [("auth", obj [("active_code", .string (getHexString active_code)),
    ("rid", .string hex_res_id)])])

/-- The answer to a client, `AODC_AODS_AUTHEN` behind the code. -/
def authResult (channel : Bytes) (uc_rlt : UInt8) : Out :=
  .channel_send_data channel (aodsAodcMsg enAodcAodsAuth [uc_rlt])

/-- The local check of the activation code. `ucResId` and `ucRDSerial` lie side by side
and are copied as one block. -/
def locallyValid (a : AodsAodcAuthen) : Bool :=
  calcActiveCode (a.uc_res_id ++ a.uc_rd_serial) = a.uc_act_code

/-- The resource id of a message as the maps hold it. -/
def ridOf (a : AodsAodcAuthen) : Bytes := getHexString a.uc_res_id

/-- The state with the resource id of `a` bound to the channel. -/
def State.bind (s : State) (channel : Bytes) (a : AodsAodcAuthen) : State where
  map_rc := s.map_rc.insert (ridOf a) ⟨a.uc_ip_num, channel, a.un_ip_addr⟩
  map_cr := s.map_cr.insert channel (ridOf a)

/-- The end of `OnRecvAodsMsg`, for a message that passed its checks. -/
def State.judge (s : State) (channel : Bytes) (a : AodsAodcAuthen) (alike_behind : Bool) :
    State × List Out :=
  -- `operator[]` enters a blank entry under a new key; the last branch fills it
  let ai := (s.map_rc.lookup (ridOf a)).getD AuthInfo.blank
  if ai.str_channel_name.length > 0 then
    if ai.uc_ip_num ≠ a.uc_ip_num ∨ addrsDiffer ai a alike_behind then
      (s, [authResult channel enAuthResultDif, .channel_free channel])
    else (s, [.channel_free ai.str_channel_name, .channel_free channel])
  else (s.bind channel a, [reportAuthenMsg a.uc_act_code (ridOf a)])

def onRecvAodsMsg (s : State) (channel data behind : Bytes) (alike_behind : Bool) :
    State × List Out :=
  -- the code is read before any check of the length
  if msgCode (data ++ behind) ≠ enAodsAodcAuth then (s, [])
  else if data.length ≠ enAodsAodcAuthenSize + enAodsAodcMsgSize then (s, [.channel_free channel])
  else
    let a := AodsAodcAuthen.over (data.drop enAodsAodcMsgSize)
    if ¬ locallyValid a then (s, [.channel_free channel]) else s.judge channel a alike_behind

def onRecvChannelData (s : State) (data behind : Bytes) (alike_behind : Bool) :
    Except Fault (State × List Out) :=
  match channelName data with
  | .error f => .error f
  | .ok channel =>
    if channel.length + 1 ≥ data.length then .ok (s, [])
    else if isAods channel then .ok (onRecvAodsMsg s channel (pastCstr data) behind alike_behind)
    else .ok (s, [])

/-- The two maps without the channel, and without the resource id that `m_mapCR` has for it. -/
def State.drop (s : State) (channel : Bytes) : State :=
  match s.map_cr.lookup channel with
  | none => s
  | some rid => ⟨s.map_rc.erase rid, s.map_cr.erase channel⟩

def onSendChannelDataFail := lostChannel State.drop

def onChannelFreed := lostChannel State.drop

/-- The broadcast that a server is authenticated on a channel. -/
def authSuc (rid channel : Bytes) : Out := .auth_suc (names [rid, channel])

def onRecvFromKafka (s : State) (doc : Option CJson) : Except Fault (State × List Out) :=
  match doc with
  | none => .ok (s, [])
  | some doc =>
    match doc.getObjectItem "auth_ack" with
    | none => .ok (s, [])
    | some auth => do
      let p_rid ← auth.getMember "rid"
      let rid ← p_rid.valuestring
      match s.map_rc.lookup rid with
      | none => .ok (s, [])
      | some ai =>
        let p_ack ← auth.getMember "ack"
        let result := authResult ai.str_channel_name (uchar p_ack.valueint)
        if p_ack.valueint = 0 then .ok (s, [authSuc rid ai.str_channel_name, result])
        else .ok (s, [result])

def handle : Handler State Event Out Fault
  | s, .recv_data data behind alike_behind => onRecvChannelData s data behind alike_behind
  | s, .send_data_fail data => onSendChannelDataFail s data
  | s, .freed data => onChannelFreed s data
  | s, .rcvfkafka doc => onRecvFromKafka s doc

/-! ## What an event can do -/

/-- The struct in an AUTH message, behind the message code. -/
def authenOf (data : Bytes) : AodsAodcAuthen := .over (data.drop enAodsAodcMsgSize)

/-- The message is an AUTH message of the right size that passes the local check. -/
def Checked (data : Bytes) : Prop :=
  msgCode data = enAodsAodcAuth ∧ data.length = enAodsAodcAuthenSize + enAodsAodcMsgSize ∧
    locallyValid (authenOf data) = true

instance (data : Bytes) : Decidable (Checked data) := inferInstanceAs (Decidable (_ ∧ _))

/-- The channel and the content of an AUTH message that passes the local check. -/
def authOf : Event → Option (Bytes × AodsAodcAuthen)
  | .recv_data data _ _ =>
    match clientChannel data with
    | some channel =>
      if Checked (pastCstr data) then some (channel, authenOf (pastCstr data)) else none
    | none => none
  | _ => none

/-- The channel of a client that an event tells is lost. -/
def lostOf : Event → Option Bytes
  | .send_data_fail data => clientChannel data
  | .freed data => clientChannel data
  | _ => none

/-- The maps hold no channel for the resource id. -/
def State.Unbound (s : State) (rid : Bytes) : Prop :=
  ((s.map_rc.lookup rid).getD AuthInfo.blank).str_channel_name = []

/-- The event is an answer of the deploy control. -/
def IsAck : Event → Prop
  | .rcvfkafka (some doc) => doc.getObjectItem "auth_ack" ≠ none
  | _ => False

/-- What a handler sends that is neither a report nor a grant. -/
def Plain (o : Out) : Prop := (∃ c d, o = .channel_send_data c d) ∨ ∃ c, o = .channel_free c

theorem msgCode_append {data : Bytes} (h : 4 ≤ data.length) (behind : Bytes) :
    msgCode (data ++ behind) = msgCode data := by
  rw [msgCode, msgCode, List.take_append_of_le_length h]

theorem onRecvAodsMsg_checked {data : Bytes} (h : Checked data) (s : State) (c behind : Bytes)
    (alike : Bool) : onRecvAodsMsg s c data behind alike = s.judge c (authenOf data) alike := by
  obtain ⟨hcode, hlen, hvalid⟩ := h
  have hfour : 4 ≤ data.length := by
    rw [hlen]
    decide
  have h1 : ¬ msgCode (data ++ behind) ≠ enAodsAodcAuth := by
    rw [msgCode_append hfour]
    exact not_not.mpr hcode
  have h2 : ¬ data.length ≠ enAodsAodcAuthenSize + enAodsAodcMsgSize := not_not.mpr hlen
  have h3 : ¬ ¬ locallyValid (.over (data.drop enAodsAodcMsgSize)) = true := not_not.mpr hvalid
  rw [onRecvAodsMsg, if_neg h1, if_neg h2]
  exact if_neg h3

theorem onRecvAodsMsg_unchecked {data : Bytes} (h : ¬ Checked data) (s : State) (c behind : Bytes)
    (alike : Bool) : (onRecvAodsMsg s c data behind alike).1 = s ∧
      ∀ o ∈ (onRecvAodsMsg s c data behind alike).2, Plain o := by
  have hfree : ∀ o ∈ [Out.channel_free c], Plain o :=
    fun o ho => Or.inr ⟨c, List.mem_singleton.mp ho⟩
  rw [onRecvAodsMsg]
  by_cases h1 : msgCode (data ++ behind) ≠ enAodsAodcAuth
  · rw [if_pos h1]
    exact ⟨rfl, by simp⟩
  rw [if_neg h1]
  by_cases h2 : data.length ≠ enAodsAodcAuthenSize + enAodsAodcMsgSize
  · rw [if_pos h2]
    exact ⟨rfl, hfree⟩
  rw [if_neg h2]
  have hfour : 4 ≤ data.length := by
    rw [not_not.mp h2]
    decide
  have h3 : ¬ locallyValid (.over (data.drop enAodsAodcMsgSize)) = true := by
    intro hv
    rw [msgCode_append hfour] at h1
    exact h ⟨not_not.mp h1, not_not.mp h2, hv⟩
  dsimp only
  rw [if_pos h3]
  exact ⟨rfl, hfree⟩

theorem authOf_some {e : Event} {c : Bytes} {a : AodsAodcAuthen} (h : authOf e = some (c, a)) :
    isAods c = true ∧ ∃ data behind alike, e = .recv_data data behind alike ∧
      channelName data = .ok c ∧ Checked (pastCstr data) ∧ a = authenOf (pastCstr data) := by
  cases e with
  | recv_data data behind alike =>
    simp only [authOf] at h
    cases hclient : clientChannel data with
    | none =>
      rw [hclient] at h
      cases h
    | some channel =>
      obtain ⟨hname, haods⟩ := clientChannel_some hclient
      rw [hclient] at h
      dsimp only at h
      split at h
      · rename_i hchecked
        cases h
        exact ⟨haods, data, behind, alike, rfl, hname, hchecked, rfl⟩
      · cases h
  | _ => cases h

theorem handle_valid {e : Event} {c : Bytes} {a : AodsAodcAuthen} (h : authOf e = some (c, a))
    (s : State) : ∃ alike, handle s e = .ok (s.judge c a alike) := by
  obtain ⟨haods, data, behind, alike, rfl, hname, hchecked, rfl⟩ := authOf_some h
  have hdata : ¬ c.length + 1 ≥ data.length := by
    rw [(channelName_ok hname).2, List.length_append, List.length_cons, hchecked.2.1]
    simp [enAodsAodcAuthenSize, enAodsAodcMsgSize]
  refine ⟨alike, ?_⟩
  simp only [handle, onRecvChannelData, hname, hdata, if_false, haods, if_true,
    onRecvAodsMsg_checked hchecked]

theorem judge_unbound {s : State} {a : AodsAodcAuthen} (h : s.Unbound (ridOf a)) (c : Bytes)
    (alike : Bool) :
    s.judge c a alike = (s.bind c a, [reportAuthenMsg a.uc_act_code (ridOf a)]) := by
  have hlen : ¬ ((s.map_rc.lookup (ridOf a)).getD AuthInfo.blank).str_channel_name.length > 0 := by
    rw [h]
    decide
  rw [State.judge]
  exact if_neg hlen

theorem judge_bound {s : State} {a : AodsAodcAuthen} (h : ¬ s.Unbound (ridOf a)) (c : Bytes)
    (alike : Bool) : (s.judge c a alike).1 = s ∧ ∀ o ∈ (s.judge c a alike).2, Plain o := by
  have hlen : ((s.map_rc.lookup (ridOf a)).getD AuthInfo.blank).str_channel_name.length > 0 :=
    List.length_pos_iff.mpr h
  rw [State.judge, if_pos hlen]
  split
  · refine ⟨rfl, fun o ho => ?_⟩
    rcases List.mem_cons.mp ho with rfl | ho
    · exact Or.inl ⟨_, _, rfl⟩
    · exact Or.inr ⟨c, List.mem_singleton.mp ho⟩
  · refine ⟨rfl, fun o ho => ?_⟩
    rcases List.mem_cons.mp ho with rfl | ho
    · exact Or.inr ⟨_, rfl⟩
    · exact Or.inr ⟨c, List.mem_singleton.mp ho⟩

theorem judge_same {s : State} {a : AodsAodcAuthen} {ai : AuthInfo}
    (hrc : s.map_rc.lookup (ridOf a) = some ai) (hname : ai.str_channel_name ≠ [])
    (hnum : ai.uc_ip_num = a.uc_ip_num) {alike : Bool} (haddrs : addrsDiffer ai a alike = false)
    (c : Bytes) :
    s.judge c a alike = (s, [.channel_free ai.str_channel_name, .channel_free c]) := by
  have hlen : ai.str_channel_name.length > 0 := List.length_pos_iff.mpr hname
  simp [State.judge, hrc, hlen, hnum, haddrs]

theorem handle_auth {s : State} {e : Event} {c : Bytes} {a : AodsAodcAuthen}
    (h : authOf e = some (c, a)) (hu : s.Unbound (ridOf a)) :
    handle s e = .ok (s.bind c a, [reportAuthenMsg a.uc_act_code (ridOf a)]) := by
  obtain ⟨alike, hs⟩ := handle_valid h s
  rw [hs, judge_unbound hu]

theorem handle_recv_other {s s' : State} {data behind : Bytes} {alike : Bool} {os : List Out}
    (h : authOf (.recv_data data behind alike) = none)
    (hs : handle s (.recv_data data behind alike) = .ok (s', os)) : s' = s ∧ ∀ o ∈ os, Plain o := by
  simp only [handle, onRecvChannelData] at hs
  cases hname : channelName data with
  | error f =>
    rw [hname] at hs
    cases hs
  | ok c =>
    rw [hname] at hs
    dsimp only at hs
    split at hs
    · cases hs
      exact ⟨rfl, by simp⟩
    split at hs
    · rename_i haods
      have hunchecked : ¬ Checked (pastCstr data) := by
        intro hc
        simp only [authOf, clientChannel_of_name hname haods, if_pos hc] at h
        cases h
      obtain ⟨hsame, hplain⟩ := onRecvAodsMsg_unchecked hunchecked s c behind alike
      rw [Except.ok.inj hs] at hsame hplain
      exact ⟨hsame, hplain⟩
    · cases hs
      exact ⟨rfl, by simp⟩

theorem handle_lost {e : Event} {c : Bytes} (h : lostOf e = some c) (s : State) :
    handle s e = .ok (s.drop c, []) := by
  cases e with
  | send_data_fail data => exact lostChannel_client State.drop s h
  | freed data => exact lostChannel_client State.drop s h
  | _ => cases h

/-- The Kafka handler leaves the maps alone. It grants only what the document
acknowledges, to the channel that is bound. -/
theorem onRecvFromKafka_cases {s s' : State} {doc : Option CJson} {os : List Out}
    (hs : onRecvFromKafka s doc = .ok (s', os)) :
    s' = s ∧ ∀ o ∈ os, Plain o ∨ (IsAck (.rcvfkafka doc) ∧
      ∃ rid ai, s.map_rc.lookup rid = some ai ∧ o = authSuc rid ai.str_channel_name) := by
  cases doc with
  | none =>
    cases hs
    exact ⟨rfl, by simp⟩
  | some doc =>
    simp only [onRecvFromKafka] at hs
    cases hauth : doc.getObjectItem "auth_ack" with
    | none =>
      rw [hauth] at hs
      cases hs
      exact ⟨rfl, by simp⟩
    | some auth =>
      rw [hauth] at hs
      obtain ⟨p_rid, _, hs⟩ := bind_ok hs
      obtain ⟨rid, _, hs⟩ := bind_ok hs
      cases hrc : s.map_rc.lookup rid with
      | none =>
        rw [hrc] at hs
        cases hs
        exact ⟨rfl, by simp⟩
      | some ai =>
        rw [hrc] at hs
        obtain ⟨p_ack, _, hs⟩ := bind_ok hs
        split at hs
        · cases hs
          refine ⟨rfl, fun o ho => ?_⟩
          rcases List.mem_cons.mp ho with rfl | ho
          · exact Or.inr ⟨by simp [IsAck, hauth], rid, ai, hrc, rfl⟩
          · exact Or.inl (Or.inl ⟨_, _, List.mem_singleton.mp ho⟩)
        · cases hs
          exact ⟨rfl, fun o ho => Or.inl (Or.inl ⟨_, _, List.mem_singleton.mp ho⟩)⟩

/-- What one event can do to the maps: bind, drop, or nothing. -/
theorem handle_cases {s s' : State} {e : Event} {os : List Out} (h : handle s e = .ok (s', os)) :
    (∃ c a, authOf e = some (c, a) ∧ s.Unbound (ridOf a) ∧ s' = s.bind c a ∧
      os = [reportAuthenMsg a.uc_act_code (ridOf a)]) ∨
    (∃ c, authOf e = none ∧ lostOf e = some c ∧ s' = s.drop c ∧ os = []) ∨
    (lostOf e = none ∧ s' = s ∧ (∀ c a, authOf e = some (c, a) → ¬ s.Unbound (ridOf a)) ∧
      ∀ o ∈ os, Plain o ∨ (IsAck e ∧
        ∃ rid ai, s.map_rc.lookup rid = some ai ∧ o = authSuc rid ai.str_channel_name)) := by
  cases e with
  | recv_data data behind alike =>
    cases hauth : authOf (.recv_data data behind alike) with
    | some q =>
      obtain ⟨c, a⟩ := q
      by_cases hu : s.Unbound (ridOf a)
      · rw [handle_auth hauth hu] at h
        cases h
        exact Or.inl ⟨c, a, rfl, hu, rfl, rfl⟩
      · obtain ⟨alike', hs⟩ := handle_valid hauth s
        obtain ⟨hsame, hplain⟩ := judge_bound hu c alike'
        rw [h] at hs
        obtain ⟨rfl, rfl⟩ := Prod.mk.inj (Except.ok.inj hs)
        refine Or.inr (Or.inr ⟨rfl, hsame, fun c' a' he => ?_, fun o ho => Or.inl (hplain o ho)⟩)
        cases he
        exact hu
    | none =>
      obtain ⟨hsame, hplain⟩ := handle_recv_other hauth h
      exact Or.inr (Or.inr ⟨rfl, hsame, by simp, fun o ho => Or.inl (hplain o ho)⟩)
  | send_data_fail data =>
    obtain ⟨rfl, ⟨c, hc, hdrop⟩ | ⟨hc, hsame⟩⟩ := lostChannel_cases h
    · exact Or.inr (Or.inl ⟨c, rfl, hc, hdrop, rfl⟩)
    · exact Or.inr (Or.inr ⟨hc, hsame, by simp [authOf], by simp⟩)
  | freed data =>
    obtain ⟨rfl, ⟨c, hc, hdrop⟩ | ⟨hc, hsame⟩⟩ := lostChannel_cases h
    · exact Or.inr (Or.inl ⟨c, rfl, hc, hdrop, rfl⟩)
    · exact Or.inr (Or.inr ⟨hc, hsame, by simp [authOf], by simp⟩)
  | rcvfkafka doc =>
    obtain ⟨hsame, hos⟩ := onRecvFromKafka_cases h
    exact Or.inr (Or.inr ⟨rfl, hsame, by simp [authOf], hos⟩)

/-! ## Messages as a client builds them -/

/-- An AUTH message of a channel. -/
def authEvent (channel : Bytes) (a : AodsAodcAuthen) (alike_behind : Bool) : Event :=
  .recv_data (channel ++ 0 :: aodsAodcMsg enAodsAodcAuth a.bytes) [] alike_behind

/-- A struct with the activation code that its ids call for. -/
def signed (uc_ip_num : UInt8) (un_ip_addr uc_res_id uc_rd_serial : Bytes) : AodsAodcAuthen where
  uc_ip_num := uc_ip_num
  un_ip_addr := un_ip_addr
  uc_res_id := uc_res_id
  uc_rd_serial := uc_rd_serial
  uc_act_code := calcActiveCode (uc_res_id ++ uc_rd_serial)

theorem locallyValid_signed (n : UInt8) (ips rid serial : Bytes) :
    locallyValid (signed n ips rid serial) = true := by
  simp [locallyValid, signed]

theorem checked_msg {a : AodsAodcAuthen} (hp : a.Packed) (hv : locallyValid a = true) :
    Checked (aodsAodcMsg enAodsAodcAuth a.bytes) ∧
      authenOf (aodsAodcMsg enAodsAodcAuth a.bytes) = a := by
  have hover : authenOf (aodsAodcMsg enAodsAodcAuth a.bytes) = a := AodsAodcAuthen.over_bytes hp
  refine ⟨⟨msgCode_aodsAodcMsg (by decide) _, ?_, by rw [hover]; exact hv⟩, hover⟩
  rw [aodsAodcMsg, List.length_append, AodsAodcAuthen.length_bytes hp]
  rfl

theorem authOf_authEvent {c : Bytes} {a : AodsAodcAuthen} (hc : 0 ∉ c) (haods : isAods c = true)
    (hp : a.Packed) (hv : locallyValid a = true) (alike : Bool) :
    authOf (authEvent c a alike) = some (c, a) := by
  obtain ⟨hchecked, hover⟩ := checked_msg hp hv
  have hclient := clientChannel_append hc haods (aodsAodcMsg enAodsAodcAuth a.bytes)
  have hpast := pastCstr_append hc (aodsAodcMsg enAodsAodcAuth a.bytes)
  simp only [authEvent, authOf, hclient, hpast, hover, hchecked, if_true]

theorem packed_signed {n : UInt8} {ips rid serial : Bytes} (h1 : ips.length = 64)
    (h2 : rid.length = 6) (h3 : serial.length = 14) : (signed n ips rid serial).Packed where
  ip_addr := h1
  res_id := h2
  rd_serial := h3
  act_code := length_calcActiveCode (by rw [List.length_append, h2, h3])

theorem authOf_signed {c : Bytes} {n : UInt8} {ips rid serial : Bytes} (hc : 0 ∉ c)
    (haods : isAods c = true) (h1 : ips.length = 64) (h2 : rid.length = 6) (h3 : serial.length = 14)
    (alike : Bool) : authOf (authEvent c (signed n ips rid serial) alike) =
      some (c, signed n ips rid serial) :=
  authOf_authEvent hc haods (packed_signed h1 h2 h3) (locallyValid_signed ..) alike

theorem lostOf_freed {c : Bytes} (hc : 0 ∉ c) (haods : isAods c = true) :
    lostOf (.freed (c ++ [0])) = some c :=
  clientChannel_append hc haods []

end aodc.auth_module
