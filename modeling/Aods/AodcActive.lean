-- `CAodsActiveModule` of aodc: a client asks for an activation, the request goes out
-- under a uuid, and the answer of the deploy control is brought back to the channel
-- by three maps that are erased together.
import Aods.DeployCtrl
import Aods.MsgDef
import Aods.Runs

open machine runs std_map
open util.helper util.json msg_def
open py.deploy_ctrl

namespace aodc.active_module

/-- `ACTIVE_INFO`. -/
structure ActiveInfo where
  str_channel_name : Bytes
  sz_active_code : Bytes
  deriving DecidableEq, Repr

structure State where
  map_uai : StdMap ActiveInfo
  map_cu : StdMap Bytes
  map_ca : StdMap Bytes

def State.empty : State := ⟨∅, ∅, ∅⟩

/-- The messages that the module handles. With a message from a channel comes what lies
behind it in the queue, and what `rand` gives for a uuid. -/
inductive Event where
  | builded (data : Bytes)
  | recv_data (data behind rands : Bytes)
  | send_data_fail (data : Bytes)
  | freed (data : Bytes)
  | rcvfkafka (doc : Option CJson)

/-- The two functions of the system that turn addresses into text and back. -/
structure Inet where
  inet_addr : Bytes → Nat
  inet_ntoa : Nat → Bytes

variable (inet : Inet)

def enMaxTextLen : Nat := 1024

/-! ## Channels -/

def onChannelBuilded (s : State) (data : Bytes) : State :=
  if data.getLast? ≠ some 0 then s
  else if ¬ isAods (cstr data) then s
  else
    let local_addr := pastCstr data
    if local_addr.length < 1 then s
    else
      let peer_addr := pastCstr local_addr
      if peer_addr.length < 1 then s
      else { s with map_ca := s.map_ca.insert (cstr data) (cstr peer_addr) }

def onSendChannelDataFail (s : State) (data : Bytes) : Except Fault (State × List Out) :=
  match channelName data with
  | .error f => .error f
  | .ok channel => .ok (s, if isAods channel then [.channel_free channel] else [])

/-- The maps without a channel and a uuid. -/
def State.forget (s : State) (channel uuid : Bytes) : State where
  map_uai := s.map_uai.erase uuid
  map_cu := s.map_cu.erase channel
  map_ca := s.map_ca.erase channel

def onChannelFreed (s : State) (data : Bytes) : Except Fault (State × List Out) :=
  match channelName data with
  | .error f => .error f
  | .ok channel =>
    if ¬ isAods channel then .ok (s, [])
    else
      match s.map_cu.lookup channel with
      | none => .ok (s, [])
      | some uuid =>
        match s.map_uai.lookup uuid with
        -- the end of the map is erased
        | none => .error .bad_iterator
        | some _ => .ok (s.forget channel uuid, [])

/-! ## Requests -/

def onActiveFailedResult (channel : Bytes) (uc_rlt : UInt8) : Except Fault (List Out) :=
  if channel.length + 1 + enAodsAodcMsgSize + enAodcAodsActiveSize > enMaxTextLen then
    .error .overrun
  else .ok [.channel_send_data channel (aodsAodcMsg enAodcAodsActv [uc_rlt])]

/-- The address of a peer, from its text with the port; 0 where there is none. -/
def peerIp (addr : Bytes) : Except Fault Nat :=
  if addr.length ≥ 256 then .error .overrun
  else if 58 ∉ addr then .ok 0
  else .ok (inet.inet_addr (addr.takeWhile (· != 58)))

/-- The addresses of a request, as many as it says, past its list where that is too few. -/
def ipAddrs (a : AodsAodcActive) (bytes : Bytes) : List Nat :=
  (List.range a.uc_ip_num.toNat).map (fun n => word ((bytes.drop (4 * n)).take 4))

/-- The addresses of a client with the one that it is connected from. -/
def ipTexts (un_con_ip : Nat) (addrs : List Nat) : CJson :=
  .array ((if un_con_ip ∈ addrs then addrs else addrs ++ [un_con_ip]).map
    (fun n => .string (inet.inet_ntoa n)))

def activeDoc (a : AodsAodcActive) (ip : CJson) (uuid : Bytes) : CJson :=
  obj [("active", obj [("ip", ip), ("uuid", .string uuid),
    ("rid", .string (getHexString a.uc_res_id)), ("rds", .string (getHexString a.uc_rd_serial)),
    ("index", .number a.uc_index.toNat)])]

/-- The state with a request of a channel under a uuid. -/
def State.ask (s : State) (channel uuid active_code : Bytes) : State where
  map_uai := s.map_uai.insert uuid ⟨channel, active_code⟩
  map_cu := s.map_cu.insert channel uuid
  map_ca := s.map_ca

def onRecvAodsChannel (s : State) (channel data behind rands : Bytes) :
    Except Fault (State × List Out) :=
  if data.length < enAodsAodcMsgSize then
    (onActiveFailedResult channel enActRltDatainv).map (fun os => (s, os))
  else if msgCode data ≠ enAodsAodcActv then .ok (s, [])
  else if data.length ≠ enAodsAodcMsgSize + enAodsAodcActivateSize then
    (onActiveFailedResult channel enActRltDatainv).map (fun os => (s, os))
  else
    match s.map_ca.lookup channel with
    | none => (onActiveFailedResult channel enActRltDbbusy).map (fun os => (s, os))
    | some addr => do
      let un_con_ip ← peerIp inet addr
      if un_con_ip = 0 then (onActiveFailedResult channel enActRltDbbusy).map (fun os => (s, os))
      else
        let a := AodsAodcActive.over (data.drop enAodsAodcMsgSize)
        let addrs := ipAddrs a (data.drop (enAodsAodcMsgSize + 2) ++ behind)
        let uuid := getUuid rands
        -- the resource id and the serial are copied as one block
        .ok (s.ask channel uuid (a.uc_res_id ++ a.uc_rd_serial),
          [.snd2kafka (activeDoc a (ipTexts inet un_con_ip addrs) uuid)])

def onRecvChannelData (s : State) (data behind rands : Bytes) : Except Fault (State × List Out) :=
  match channelName data with
  | .error f => .error f
  | .ok channel =>
    if isAods channel then onRecvAodsChannel inet s channel (pastCstr data) behind rands
    else .ok (s, [])

/-! ## Answers -/

def reportActiveSuc (active_code uc_res_id : Bytes) : Out :=
  .snd2kafka (obj [("active_suc", obj [("active_code", .string (getHexString active_code)),
    ("rid", .string (getHexString uc_res_id))])])

/-- `AODC_AODS_ACTIVE` with an `AODS_ACTIVE_SUC` behind it. -/
def rspActiveSuc (channel active_code uc_res_id : Bytes) : Out :=
  .channel_send_data channel
    (aodsAodcMsg enAodcAodsActv (enActSuccess :: (uc_res_id ++ active_code)))

def onActiveSucc (channel active_code : Bytes) : List Out :=
  let uc_res_id := active_code.take enResIdLen
  let checked := calcActiveCode active_code
  [reportActiveSuc checked uc_res_id, rspActiveSuc channel checked uc_res_id]

/-- What an answer makes of a pending request. -/
def answerRequest (active_ack : CJson) (ai : ActiveInfo) : Except Fault (List Out) := do
  let p_ack ← active_ack.getMember "ack"
  if p_ack.valueint = 0 then
    let p_rid ← active_ack.getMember "rid"
    let rid ← p_rid.valuestring
    let active_code ← getHexData ai.sz_active_code rid
    .ok (onActiveSucc ai.str_channel_name active_code)
  else onActiveFailedResult ai.str_channel_name (uchar p_ack.valueint)

def onRecvFromKafka (s : State) (doc : Option CJson) : Except Fault (State × List Out) :=
  match doc with
  | none => .ok (s, [])
  | some doc =>
    match doc.getObjectItem "active_ack" with
    | none => .ok (s, [])
    | some active_ack => do
      let p_uuid ← active_ack.getMember "uuid"
      let uuid ← p_uuid.valuestring
      match s.map_uai.lookup uuid with
      | none => .ok (s, [])
      | some ai =>
        match s.map_cu.lookup ai.str_channel_name with
        -- the end of the map is read for the channel's name
        | none => .error .bad_iterator
        | some _ =>
          let os ← answerRequest active_ack ai
          .ok (s.forget ai.str_channel_name uuid, os ++ [.channel_free ai.str_channel_name])

def handle : Handler State Event Out Fault
  | s, .builded data => .ok (onChannelBuilded s data, [])
  | s, .recv_data data behind rands => onRecvChannelData inet s data behind rands
  | s, .send_data_fail data => onSendChannelDataFail s data
  | s, .freed data => onChannelFreed s data
  | s, .rcvfkafka doc => onRecvFromKafka s doc

/-! ## What an event can do -/

/-- The channel and the uuid that an event takes out of the maps. -/
def forgetting (s : State) : Event → Option (Bytes × Bytes)
  | .freed data =>
    match clientChannel data with
    | none => none
    | some channel => (s.map_cu.lookup channel).map (fun uuid => (channel, uuid))
  | .rcvfkafka (some doc) =>
    match (doc.getObjectItem "active_ack").bind (fun ack => ack.getObjectItem "uuid") with
    | some (.string uuid) =>
      (s.map_uai.lookup (cstr uuid)).map (fun ai => (ai.str_channel_name, cstr uuid))
    | _ => none
  | _ => none

variable {inet}

/-- An answer for a request that is pending under its uuid. -/
theorem handle_ack (inet : Inet) {s : State} {doc active_ack : CJson} {uuid : Bytes}
    {ai : ActiveInfo} (hdoc : doc.getObjectItem "active_ack" = some active_ack)
    (huuid : active_ack.getMember "uuid" >>= CJson.valuestring = .ok uuid)
    (hai : s.map_uai.lookup uuid = some ai) :
    handle inet s (.rcvfkafka (some doc)) = match s.map_cu.lookup ai.str_channel_name with
      | none => .error .bad_iterator
      | some _ => (answerRequest active_ack ai).map (fun os =>
          (s.forget ai.str_channel_name uuid, os ++ [.channel_free ai.str_channel_name])) := by
  obtain ⟨p_uuid, hp, hv⟩ := bind_ok huuid
  simp only [handle, onRecvFromKafka, hdoc, hp, hv, bind, Except.bind, hai]
  cases s.map_cu.lookup ai.str_channel_name with
  | none => rfl
  | some u => cases answerRequest active_ack ai <;> rfl

theorem handle_freed (inet : Inet) {s : State} {data c uuid : Bytes}
    (hc : clientChannel data = some c) (huuid : s.map_cu.lookup c = some uuid) :
    handle inet s (.freed data) = match s.map_uai.lookup uuid with
      | none => .error .bad_iterator
      | some _ => .ok (s.forget c uuid, []) := by
  obtain ⟨hname, haods⟩ := clientChannel_some hc
  simp [handle, onChannelFreed, hname, haods, huuid]

theorem onActiveFailedResult_error {c : Bytes} {rlt : UInt8} {f : Fault}
    (h : onActiveFailedResult c rlt = .error f) : f = .overrun := by
  unfold onActiveFailedResult at h
  split at h
  · cases h
    rfl
  · cases h

/-- To answer a request reads and erases no map. -/
theorem answerRequest_error {active_ack : CJson} {ai : ActiveInfo} {f : Fault}
    (h : answerRequest active_ack ai = .error f) : f ≠ .bad_iterator := by
  rcases bind_error h with h | ⟨p_ack, _, h⟩
  · rw [CJson.getMember_error h]
    decide
  split at h
  · rcases bind_error h with h | ⟨p_rid, _, h⟩
    · rw [CJson.getMember_error h]
      decide
    rcases bind_error h with h | ⟨rid, _, h⟩
    · rw [CJson.valuestring_error h]
      decide
    rcases bind_error h with h | ⟨code, _, h⟩
    · rw [getHexData_error h]
      decide
    · cases h
  · rw [onActiveFailedResult_error h]
    decide

theorem handle_no_ack (inet : Inet) {s : State} {doc : Option CJson}
    (h : forgetting s (.rcvfkafka doc) = none) :
    handle inet s (.rcvfkafka doc) = .ok (s, []) ∨
      handle inet s (.rcvfkafka doc) = .error .null_pointer := by
  cases doc with
  | none => exact Or.inl rfl
  | some doc =>
    cases hdoc : doc.getObjectItem "active_ack" with
    | none => exact Or.inl (by simp only [handle, onRecvFromKafka, hdoc])
    | some ack =>
      cases huuid : ack.getObjectItem "uuid" with
      | none =>
        have hnull : ack.getMember "uuid" = .error .null_pointer := by rw [CJson.getMember, huuid]
        exact Or.inr (by simp only [handle, onRecvFromKafka, hdoc, hnull]; rfl)
      | some item =>
        have hitem := CJson.getMember_some huuid
        cases item with
        | string uuid =>
          have hnone : s.map_uai.lookup (cstr uuid) = none := by
            simpa [forgetting, hdoc, huuid] using h
          left
          simp only [handle, onRecvFromKafka, hdoc, hitem, bind, Except.bind, CJson.valuestring,
            hnone]
        | _ => exact Or.inr (by simp only [handle, onRecvFromKafka, hdoc, hitem]; rfl)

theorem forgetting_kafka {s : State} {doc : Option CJson} {c u : Bytes}
    (h : forgetting s (.rcvfkafka doc) = some (c, u)) :
    ∃ d ack ai, doc = some d ∧ d.getObjectItem "active_ack" = some ack ∧
      ack.getMember "uuid" >>= CJson.valuestring = .ok u ∧ s.map_uai.lookup u = some ai ∧
      ai.str_channel_name = c := by
  cases doc with
  | none => cases h
  | some d =>
    simp only [forgetting] at h
    split at h
    · rename_i uuid hack
      obtain ⟨ack, hack, huuid⟩ := Option.bind_eq_some_iff.mp hack
      obtain ⟨ai, hai, hpair⟩ := Option.map_eq_some_iff.mp h
      cases hpair
      refine ⟨d, ack, ai, rfl, hack, ?_, hai, rfl⟩
      rw [CJson.getMember_some huuid]
      rfl
    · cases h

theorem forgetting_freed {s : State} {data c u : Bytes}
    (h : forgetting s (.freed data) = some (c, u)) :
    clientChannel data = some c ∧ s.map_cu.lookup c = some u := by
  simp only [forgetting] at h
  cases hc : clientChannel data with
  | none =>
    rw [hc] at h
    cases h
  | some c' =>
    rw [hc] at h
    obtain ⟨uuid, huuid, hpair⟩ := Option.map_eq_some_iff.mp h
    cases hpair
    exact ⟨rfl, huuid⟩

theorem handle_no_freed (inet : Inet) {s : State} {data : Bytes}
    (h : forgetting s (.freed data) = none) :
    handle inet s (.freed data) = .ok (s, []) ∨ handle inet s (.freed data) = .error .overrun := by
  cases hname : channelName data with
  | error f =>
    right
    simp only [handle, onChannelFreed, hname, channelName_error hname]
  | ok c =>
    left
    by_cases haods : isAods c
    · have hcu : s.map_cu.lookup c = none := by
        simpa [forgetting, clientChannel_of_name hname haods] using h
      simp [handle, onChannelFreed, hname, haods, hcu]
    · simp [handle, onChannelFreed, hname, haods]

/-- What a client is told or loses when its request fails. -/
def Refusal (o : Out) : Prop :=
  (∃ c rlt, rlt ≠ enActSuccess ∧ o = .channel_send_data c (aodsAodcMsg enAodcAodsActv [rlt])) ∨
    ∃ c, o = .channel_free c

theorem failed_result (s : State) (c : Bytes) {rlt : UInt8} (hrlt : rlt ≠ enActSuccess) :
    (∃ os, (onActiveFailedResult c rlt).map (fun os => (s, os)) = .ok (s, os) ∧
      ∀ o ∈ os, Refusal o) ∨
      (onActiveFailedResult c rlt).map (fun os => (s, os)) = .error .overrun := by
  unfold onActiveFailedResult
  split
  · exact Or.inr rfl
  · exact Or.inl ⟨_, rfl, fun o ho => Or.inl ⟨c, rlt, hrlt, List.mem_singleton.mp ho⟩⟩

/-- An event brings a request of a channel that is taken in under a uuid. -/
def Asks (inet : Inet) (s : State) (e : Event) (c u : Bytes) : Prop :=
  ∃ data behind rands addr ip, e = .recv_data data behind rands ∧ clientChannel data = some c ∧
    (pastCstr data).length = enAodsAodcMsgSize + enAodsAodcActivateSize ∧
    msgCode (pastCstr data) = enAodsAodcActv ∧ s.map_ca.lookup c = some addr ∧
    peerIp inet addr = .ok ip ∧ ip ≠ 0 ∧ u = getUuid rands

theorem length_requestCode {msg : Bytes}
    (h : msg.length = enAodsAodcMsgSize + enAodsAodcActivateSize) :
    ((AodsAodcActive.over (msg.drop enAodsAodcMsgSize)).uc_res_id ++
      (AodsAodcActive.over (msg.drop enAodsAodcMsgSize)).uc_rd_serial).length = enActCodeLen := by
  have hmsg : msg.length = 90 := h
  simp only [AodsAodcActive.over, List.length_append, List.length_take, List.length_drop,
    enAodsAodcMsgSize, hmsg]
  rfl

/-- A message of a channel is refused, or it is a request that is taken in. -/
theorem onRecvAodsChannel_cases (inet : Inet) (s : State) {data c : Bytes}
    (hc : clientChannel data = some c) (behind rands : Bytes) :
    (∃ os, onRecvAodsChannel inet s c (pastCstr data) behind rands = .ok (s, os) ∧
      ∀ o ∈ os, Refusal o) ∨
    (∃ a ip, Asks inet s (.recv_data data behind rands) c (getUuid rands) ∧
      a = .over ((pastCstr data).drop enAodsAodcMsgSize) ∧
        onRecvAodsChannel inet s c (pastCstr data) behind rands =
        .ok (s.ask c (getUuid rands) (a.uc_res_id ++ a.uc_rd_serial),
          [.snd2kafka (activeDoc a ip (getUuid rands))])) ∨
    onRecvAodsChannel inet s c (pastCstr data) behind rands = .error .overrun := by
  have hinv : enActRltDatainv ≠ enActSuccess := by decide
  have hbusy : enActRltDbbusy ≠ enActSuccess := by decide
  unfold onRecvAodsChannel
  split
  · exact (failed_result s c hinv).imp id Or.inr
  split
  · exact Or.inl ⟨[], rfl, by simp⟩
  rename_i hcode
  split
  · exact (failed_result s c hinv).imp id Or.inr
  rename_i hlen
  cases haddr : s.map_ca.lookup c with
  | none => exact (failed_result s c hbusy).imp id Or.inr
  | some addr =>
    by_cases hlong : addr.length ≥ 256
    · simp only [peerIp, if_pos hlong]
      exact Or.inr (Or.inr rfl)
    · obtain ⟨ip, hip⟩ : ∃ ip, peerIp inet addr = .ok ip := by
        unfold peerIp
        rw [if_neg hlong]
        split
        · exact ⟨_, rfl⟩
        · exact ⟨_, rfl⟩
      simp only [hip, bind, Except.bind]
      split
      · exact (failed_result s c hbusy).imp id Or.inr
      · rename_i hne
        exact Or.inr (Or.inl ⟨_, _,
          ⟨data, behind, rands, addr, ip, rfl, hc, not_not.mp hlen, not_not.mp hcode, haddr,
          hip, hne, rfl⟩, rfl, rfl⟩)

theorem onRecvChannelData_cases (inet : Inet) (s : State) (data behind rands : Bytes) :
    (∃ os, onRecvChannelData inet s data behind rands = .ok (s, os) ∧ ∀ o ∈ os, Refusal o) ∨
    (∃ c a ip, Asks inet s (.recv_data data behind rands) c (getUuid rands) ∧
      a = .over ((pastCstr data).drop enAodsAodcMsgSize) ∧
        onRecvChannelData inet s data behind rands =
        .ok (s.ask c (getUuid rands) (a.uc_res_id ++ a.uc_rd_serial),
          [.snd2kafka (activeDoc a ip (getUuid rands))])) ∨
    onRecvChannelData inet s data behind rands = .error .overrun := by
  unfold onRecvChannelData
  cases hname : channelName data with
  | error f =>
    rw [channelName_error hname]
    exact Or.inr (Or.inr rfl)
  | ok c =>
    dsimp only
    split
    · rename_i haods
      rcases onRecvAodsChannel_cases inet s (clientChannel_of_name hname haods) behind
        rands with h | ⟨a, ip, h⟩ | h
      · exact Or.inl h
      · exact Or.inr (Or.inl ⟨c, a, ip, h⟩)
      · exact Or.inr (Or.inr h)
    · exact Or.inl ⟨[], rfl, by simp⟩

theorem handle_asks {s : State} {e : Event} {c u : Bytes} (h : Asks inet s e c u) :
    ∃ code doc, code.length = enActCodeLen ∧
      handle inet s e = .ok (s.ask c u code, [.snd2kafka doc]) := by
  obtain ⟨data, behind, rands, addr, ip, rfl, hc, hlen, hcode, haddr, hip, hne, rfl⟩ := h
  have hids := length_requestCode hlen
  obtain ⟨hname, haods⟩ := clientChannel_some hc
  have hlong : ¬ (pastCstr data).length < enAodsAodcMsgSize := by
    rw [hlen]
    decide
  simp only [handle, onRecvChannelData, hname, haods, if_true]
  rw [onRecvAodsChannel, if_neg hlong]
  simp only [hcode, hlen, ne_eq, not_true_eq_false, if_false, haddr, hip, bind, Except.bind, hne]
  exact ⟨_, _, hids, rfl⟩

/-- What an event makes of the maps: nothing, the address of a channel, a request, or a pair
less. -/
inductive Changes (inet : Inet) (s : State) (e : Event) : State → Prop
  | kept (nothing : forgetting s e = none) : Changes inet s e s
  | built {data addr : Bytes} (builded : e = .builded data) :
      Changes inet s e { s with map_ca := s.map_ca.insert (cstr data) addr }
  | asked {c u code : Bytes} (asks : Asks inet s e c u) (ids : code.length = enActCodeLen) :
      Changes inet s e (s.ask c u code)
  | forgot {c u : Bytes} (takes : forgetting s e = some (c, u)) : Changes inet s e (s.forget c u)

theorem onChannelBuilded_cases (s : State) (data : Bytes) :
    onChannelBuilded s data = s ∨
      ∃ addr, onChannelBuilded s data = { s with map_ca := s.map_ca.insert (cstr data) addr } := by
  unfold onChannelBuilded
  split
  · exact Or.inl rfl
  split
  · exact Or.inl rfl
  dsimp only
  split
  · exact Or.inl rfl
  split
  · exact Or.inl rfl
  · exact Or.inr ⟨_, rfl⟩

theorem handle_changes {s s' : State} {e : Event} {os : List Out}
    (h : handle inet s e = .ok (s', os)) :
    Changes inet s e s' := by
  cases e with
  | builded data =>
    cases h
    rcases onChannelBuilded_cases s data with hs | ⟨addr, hs⟩
    · rw [hs]
      exact .kept rfl
    · rw [hs]
      exact .built rfl
  | recv_data data behind rands =>
    have hrecv : onRecvChannelData inet s data behind rands = .ok (s', os) := h
    rcases onRecvChannelData_cases inet s data behind rands with ⟨os', hs, _⟩ |
      ⟨c, a, ip, hasks, rfl, hs⟩ | hs
    · rw [hs] at hrecv
      cases hrecv
      exact .kept rfl
    · rw [hs] at hrecv
      cases hrecv
      obtain ⟨_, _, _, _, _, heq, _, hlen, _⟩ := id hasks
      cases heq
      exact .asked hasks (length_requestCode hlen)
    · rw [hs] at hrecv
      cases hrecv
  | send_data_fail data =>
    simp only [handle, onSendChannelDataFail] at h
    split at h
    · cases h
    · cases h
      exact .kept rfl
  | freed data =>
    cases hforget : forgetting s (.freed data) with
    | none =>
      rcases handle_no_freed inet hforget with hs | hs
      · rw [hs] at h
        cases h
        exact .kept hforget
      · rw [hs] at h
        cases h
    | some pair =>
      obtain ⟨hclient, hcu⟩ := forgetting_freed hforget
      rw [handle_freed inet hclient hcu] at h
      split at h
      · cases h
      · cases h
        exact .forgot hforget
  | rcvfkafka doc =>
    cases hforget : forgetting s (.rcvfkafka doc) with
    | none =>
      rcases handle_no_ack inet hforget with hs | hs
      · rw [hs] at h
        cases h
        exact .kept hforget
      · rw [hs] at h
        cases h
    | some pair =>
      obtain ⟨c, u⟩ := pair
      obtain ⟨d, ack, ai, rfl, hdoc, huuid, hai, rfl⟩ := forgetting_kafka hforget
      rw [handle_ack inet hdoc huuid hai] at h
      split at h
      · cases h
      · cases hanswer : answerRequest ack ai with
        | error f =>
          rw [hanswer] at h
          cases h
        | ok os' =>
          rw [hanswer] at h
          cases h
          exact .forgot hforget

/-- An event that takes no pair of keys out of the maps reads and erases none. -/
theorem handle_fault {s : State} {e : Event} {f : Fault} (h : forgetting s e = none)
    (hs : handle inet s e = .error f) : f ≠ .bad_iterator := by
  cases e with
  | builded data => cases hs
  | recv_data data behind rands =>
    have hrecv : onRecvChannelData inet s data behind rands = .error f := hs
    rcases onRecvChannelData_cases inet s data behind rands with ⟨os, hok, _⟩ |
      ⟨c, a, ip, _, _, hok⟩ | herror
    · rw [hok] at hrecv
      cases hrecv
    · rw [hok] at hrecv
      cases hrecv
    · rw [herror] at hrecv
      cases hrecv
      decide
  | send_data_fail data =>
    simp only [handle, onSendChannelDataFail] at hs
    cases hname : channelName data with
    | error f' =>
      rw [hname] at hs
      cases hs
      rw [channelName_error hname]
      decide
    | ok c =>
      rw [hname] at hs
      cases hs
  | freed data =>
    rcases handle_no_freed inet h with hok | herror
    · rw [hok] at hs
      cases hs
    · rw [herror] at hs
      cases hs
      decide
  | rcvfkafka doc =>
    rcases handle_no_ack inet h with hok | herror
    · rw [hok] at hs
      cases hs
    · rw [herror] at hs
      cases hs
      decide

/-- An answer to no request that is pending is read, and nothing changes. -/
theorem handle_unasked {s s' : State} {doc : Option CJson} {os : List Out}
    (h : forgetting s (.rcvfkafka doc) = none)
    (hs : handle inet s (.rcvfkafka doc) = .ok (s', os)) :
    s' = s ∧ os = [] := by
  rcases handle_no_ack inet h with hok | herror
  · rw [hok] at hs
    cases hs
    exact ⟨rfl, rfl⟩
  · rw [herror] at hs
    cases hs

/-- What an event that takes no pair of keys out of the maps can do. -/
theorem handle_keep (inet : Inet) {s : State} {e : Event} (h : forgetting s e = none) :
    (∃ s' os, handle inet s e = .ok (s', os) ∧ ((s'.map_uai = s.map_uai ∧ s'.map_cu = s.map_cu) ∨
      ∃ c u code, s' = s.ask c u code)) ∨
    ∃ f, handle inet s e = .error f ∧ f ≠ .bad_iterator := by
  cases hs : handle inet s e with
  | error f => exact Or.inr ⟨f, rfl, handle_fault h hs⟩
  | ok r =>
    obtain ⟨s', os⟩ := r
    refine Or.inl ⟨s', os, rfl, ?_⟩
    cases handle_changes hs with
    | kept _ => exact Or.inl ⟨rfl, rfl⟩
    | built _ => exact Or.inl ⟨rfl, rfl⟩
    | asked _ _ => exact Or.inr ⟨_, _, _, rfl⟩
    | forgot takes =>
      rw [h] at takes
      cases takes

/-- What an event does that takes a pair of keys out of the maps, where both are there. -/
theorem handle_forget (inet : Inet) {s : State} {e : Event} {c u : Bytes}
    (h : forgetting s e = some (c, u)) {ai : ActiveInfo} {u' : Bytes}
    (hu : s.map_uai.lookup u = some ai) (hc : s.map_cu.lookup c = some u') :
    (∃ os, handle inet s e = .ok (s.forget c u, os)) ∨
    ∃ f, handle inet s e = .error f ∧ f ≠ .bad_iterator := by
  cases e with
  | freed data =>
    obtain ⟨hclient, hcu⟩ := forgetting_freed h
    left
    rw [handle_freed inet hclient hcu, hu]
    exact ⟨_, rfl⟩
  | rcvfkafka doc =>
    obtain ⟨d, ack, ai', rfl, hdoc, huuid, hai, rfl⟩ := forgetting_kafka h
    rw [handle_ack inet hdoc huuid hai, hc]
    cases hanswer : answerRequest ack ai' with
    | ok os => exact Or.inl ⟨_, rfl⟩
    | error f => exact Or.inr ⟨f, rfl, answerRequest_error hanswer⟩
  | _ => cases h

/-- An event of the channels enters no request but the one that it brings. -/
theorem handle_channels {s s' : State} {e : Event} {os : List Out}
    (hchannels : ∀ doc, e ≠ .rcvfkafka doc) (h : handle inet s e = .ok (s', os)) :
    ((∀ u ai, s'.map_uai.lookup u = some ai → s.map_uai.lookup u = some ai) ∧ ∀ o ∈ os, Refusal o) ∨
    ∃ data behind rands c a ip u, e = .recv_data data behind rands ∧ channelName data = .ok c ∧
      (pastCstr data).length = enAodsAodcMsgSize + enAodsAodcActivateSize ∧
      a = .over ((pastCstr data).drop enAodsAodcMsgSize) ∧
      s' = s.ask c u (a.uc_res_id ++ a.uc_rd_serial) ∧ os = [.snd2kafka (activeDoc a ip u)] := by
  cases e with
  | builded data =>
    obtain ⟨rfl, rfl⟩ := Prod.mk.inj (Except.ok.inj h)
    refine Or.inl ⟨fun u ai hu => ?_, by simp⟩
    rcases onChannelBuilded_cases s data with hs | ⟨addr, hs⟩
    · rw [hs] at hu
      exact hu
    · rw [hs] at hu
      exact hu
  | recv_data data behind rands =>
    have hrecv : onRecvChannelData inet s data behind rands = .ok (s', os) := h
    rcases onRecvChannelData_cases inet s data behind rands with ⟨os', hs, hos⟩ |
      ⟨c, a, ip, hasks, ha, hs⟩ | hs
    · rw [hs] at hrecv
      cases hrecv
      exact Or.inl ⟨fun _ _ hu => hu, hos⟩
    · rw [hs] at hrecv
      cases hrecv
      obtain ⟨_, _, _, _, _, heq, hclient, hlen, _⟩ := hasks
      cases heq
      exact Or.inr ⟨data, behind, rands, c, a, ip, _, rfl, (clientChannel_some hclient).1,
        hlen, ha, rfl, rfl⟩
    · rw [hs] at hrecv
      cases hrecv
  | send_data_fail data =>
    simp only [handle, onSendChannelDataFail] at h
    cases hname : channelName data with
    | error f =>
      rw [hname] at h
      cases h
    | ok c =>
      rw [hname] at h
      cases h
      refine Or.inl ⟨fun _ _ hu => hu, fun o ho => ?_⟩
      split at ho
      · exact Or.inr ⟨c, List.mem_singleton.mp ho⟩
      · cases ho
  | freed data =>
    cases hforget : forgetting s (.freed data) with
    | none =>
      rcases handle_no_freed inet hforget with hs | hs
      · rw [hs] at h
        cases h
        exact Or.inl ⟨fun _ _ hu => hu, by simp⟩
      · rw [hs] at h
        cases h
    | some p =>
      obtain ⟨c, u⟩ := p
      obtain ⟨hclient, hcu⟩ := forgetting_freed hforget
      rw [handle_freed inet hclient hcu] at h
      split at h
      · cases h
      · cases h
        exact Or.inl ⟨fun u' ai hu' => (find_erase_some.mp hu').2, by simp⟩
  | rcvfkafka doc => exact absurd rfl (hchannels doc)

/-! ## Messages as their senders build them -/

/-- An ACTV message of a channel. -/
def actvEvent (channel : Bytes) (a : AodsAodcActive) (behind rands : Bytes) : Event :=
  .recv_data (channel ++ 0 :: aodsAodcMsg enAodsAodcActv a.bytes) behind rands

/-- The message that a channel is built, with its two addresses. -/
def buildedEvent (channel local_addr peer_addr : Bytes) : Event :=
  .builded (names [channel, local_addr, peer_addr])

theorem onChannelBuilded_names {c local_addr peer_addr : Bytes} (hc : 0 ∉ c)
    (haods : isAods c = true) (hlocal : 0 ∉ local_addr) (hpeer : 0 ∉ peer_addr) (s : State) :
    onChannelBuilded s (names [c, local_addr, peer_addr]) =
      { s with map_ca := s.map_ca.insert c peer_addr } := by
  have hdata : names [c, local_addr, peer_addr] =
      c ++ 0 :: (local_addr ++ 0 :: (peer_addr ++ 0 :: [])) := by simp [names]
  have hend : names [c, local_addr, peer_addr] =
      (c ++ 0 :: (local_addr ++ 0 :: peer_addr)) ++ [0] := by
    simp [names]
  have hlast : ¬ (names [c, local_addr, peer_addr]).getLast? ≠ some 0 := by
    rw [hend, List.getLast?_concat]
    exact not_not.mpr rfl
  have hname : cstr (names [c, local_addr, peer_addr]) = c := by rw [hdata, cstr_append hc]
  have hrest : pastCstr (names [c, local_addr, peer_addr]) =
      local_addr ++ 0 :: (peer_addr ++ 0 :: []) := by rw [hdata, pastCstr_append hc]
  simp [onChannelBuilded, hlast, hname, haods, hrest, pastCstr_append hlocal, cstr_append hpeer]

theorem handle_actv (inet : Inet) {s : State} {c addr : Bytes} {a : AodsAodcActive} {ip : Nat}
    (hc : 0 ∉ c) (haods : isAods c = true) (ha : a.Packed) (haddr : s.map_ca.lookup c = some addr)
    (hip : peerIp inet addr = .ok ip) (hne : ip ≠ 0) (behind rands : Bytes) :
    handle inet s (actvEvent c a behind rands) =
      .ok (s.ask c (getUuid rands) (a.uc_res_id ++ a.uc_rd_serial),
        [.snd2kafka (activeDoc a (ipTexts inet ip (ipAddrs a (a.bytes.drop 2 ++ behind)))
          (getUuid rands))]) := by
  have hlen : (aodsAodcMsg enAodsAodcActv a.bytes).length =
      enAodsAodcMsgSize + enAodsAodcActivateSize := by
    rw [aodsAodcMsg, List.length_append, AodsAodcActive.length_bytes ha]
    rfl
  have h1 : ¬ enAodsAodcMsgSize + enAodsAodcActivateSize < enAodsAodcMsgSize := by decide
  have hcode : msgCode (aodsAodcMsg enAodsAodcActv a.bytes) = enAodsAodcActv :=
    msgCode_aodsAodcMsg (by decide) _
  have hdrop : (aodsAodcMsg enAodsAodcActv a.bytes).drop enAodsAodcMsgSize = a.bytes := rfl
  have hdrop2 : (aodsAodcMsg enAodsAodcActv a.bytes).drop (enAodsAodcMsgSize + 2) =
      a.bytes.drop 2 := rfl
  simp only [actvEvent, handle, onRecvChannelData, channelName_append hc, haods, if_true,
    pastCstr_append hc, onRecvAodsChannel, if_neg h1, hcode, hlen, ne_eq, not_true_eq_false,
    if_false, haddr, hip, bind, Except.bind, hne, hdrop, hdrop2, AodsAodcActive.over_bytes ha]

/-- The answer that the deploy control sends for a uuid, below its name. -/
def ackMembers (uuid rid : Bytes) : CJson :=
  obj [("uuid", .string uuid), ("rid", .string rid), ("ack", .number 0)]

theorem activeAck_item (uuid : CJson) (rid : Bytes) :
    (activeAck uuid rid).getObjectItem "active_ack" =
      some (obj [("uuid", uuid), ("rid", .string rid), ("ack", .number 0)]) := by
  simp [activeAck, obj, CJson.getObjectItem, sameName]

theorem activeAck_members (uuid rid : Bytes) :
    (activeAck (.string uuid) rid).getObjectItem "active_ack" = some (ackMembers uuid rid) :=
  activeAck_item _ _

theorem ackMembers_uuid {uuid : Bytes} (h : 0 ∉ uuid) (rid : Bytes) :
    (ackMembers uuid rid).getMember "uuid" >>= CJson.valuestring = .ok uuid := by
  have hitem : (ackMembers uuid rid).getObjectItem "uuid" = some (.string uuid) := by
    simp [ackMembers, obj, CJson.getObjectItem, sameName]
  rw [CJson.getMember_some hitem]
  exact congrArg Except.ok (cstr_of_notMem h)

theorem answerRequest_granted {ai : ActiveInfo} {rid : Bytes} (uuid : CJson)
    (hcode : ai.sz_active_code.length = enActCodeLen) (hrid : rid.length = enResIdLen) :
    answerRequest (obj [("uuid", uuid), ("rid", .string (getHexString rid)), ("ack", .number 0)])
      ai =
      .ok (onActiveSucc ai.str_channel_name (rid ++ ai.sz_active_code.drop enResIdLen)) := by
  have h1 : sameName (text "uuid") (text "ack") = false := by decide
  have h2 : sameName (text "rid") (text "ack") = false := by decide
  have h3 : sameName (text "ack") (text "ack") = true := by decide
  have h4 : sameName (text "uuid") (text "rid") = false := by decide
  have h5 : sameName (text "rid") (text "rid") = true := by decide
  have hack : (obj [("uuid", uuid), ("rid", .string (getHexString rid)),
      ("ack", .number 0)]).getMember "ack" = .ok (.number 0) :=
    CJson.getMember_some (by simp [obj, CJson.getObjectItem, h1, h2, h3])
  have hread : (obj [("uuid", uuid), ("rid", .string (getHexString rid)),
      ("ack", .number 0)]).getMember "rid" = .ok (.string (getHexString rid)) :=
    CJson.getMember_some (by simp [obj, CJson.getObjectItem, h4, h5])
  have hhex : getHexData ai.sz_active_code (getHexString rid) =
      .ok (rid ++ ai.sz_active_code.drop rid.length) :=
    getHexData_getHexString (by rw [hcode, hrid]; decide) (by rw [hrid]; decide)
  simp only [answerRequest, hack, bind, Except.bind, CJson.valueint, if_true, hread,
    CJson.valuestring, cstr_of_notMem (zero_notMem_getHexString rid), hhex, hrid]

/-- The deploy control's answer to a pending request: the resource id goes where the request
had its own, the channel is told of both, and it is freed. -/
theorem handle_activeAck (inet : Inet) {s : State} {uuid u rid : Bytes} {ai : ActiveInfo}
    (huuid : 0 ∉ uuid) (hai : s.map_uai.lookup uuid = some ai)
    (hcu : s.map_cu.lookup ai.str_channel_name = some u)
    (hcode : ai.sz_active_code.length = enActCodeLen) (hrid : rid.length = enResIdLen) :
    handle inet s (.rcvfkafka (some (activeAck (.string uuid) (getHexString rid)))) =
      .ok (s.forget ai.str_channel_name uuid,
        onActiveSucc ai.str_channel_name (rid ++ ai.sz_active_code.drop enResIdLen) ++
          [.channel_free ai.str_channel_name]) := by
  rw [handle_ack inet (activeAck_members _ _) (ackMembers_uuid huuid _) hai, hcu,
    ackMembers, answerRequest_granted _ hcode hrid]
  rfl

/-- The deploy control's answer to any request: it is for no request that is pending, or it ends
one as above. -/
theorem handle_activeAck_cases {s s' : State} {uuid : CJson} {rid : Bytes} {os : List Out}
    (hcodes : ∀ u ai, s.map_uai.lookup u = some ai → ai.sz_active_code.length = enActCodeLen)
    (hrid : rid.length = enResIdLen)
    (h : handle inet s (.rcvfkafka (some (activeAck uuid (getHexString rid)))) = .ok (s', os)) :
    (s' = s ∧ os = []) ∨
    ∃ u ai, s.map_uai.lookup u = some ai ∧ s' = s.forget ai.str_channel_name u ∧
      os = onActiveSucc ai.str_channel_name (rid ++ ai.sz_active_code.drop enResIdLen) ++
        [.channel_free ai.str_channel_name] := by
  have hitem : (obj [("uuid", uuid), ("rid", .string (getHexString rid)),
      ("ack", .number 0)]).getMember "uuid" = .ok uuid :=
    CJson.getMember_some (by simp [obj, CJson.getObjectItem, sameName])
  cases hu : uuid.valuestring with
  | error f =>
    simp only [handle, onRecvFromKafka, activeAck_item, hitem, hu, bind, Except.bind] at h
    cases h
  | ok u =>
    cases hai : s.map_uai.lookup u with
    | none =>
      simp only [handle, onRecvFromKafka, activeAck_item, hitem, hu, hai, bind, Except.bind] at h
      cases h
      exact Or.inl ⟨rfl, rfl⟩
    | some ai =>
      have huuid : (obj [("uuid", uuid), ("rid", .string (getHexString rid)),
          ("ack", .number 0)]).getMember "uuid" >>= CJson.valuestring = .ok u := by
        rw [hitem]
        exact hu
      rw [handle_ack inet (activeAck_item _ _) huuid hai,
        answerRequest_granted _ (hcodes u ai hai) hrid] at h
      split at h
      · cases h
      · cases h
        exact Or.inr ⟨u, ai, hai, rfl, rfl⟩

theorem handle_other_doc (inet : Inet) {s : State} {doc : CJson}
    (h : doc.getObjectItem "active_ack" = none) :
    handle inet s (.rcvfkafka (some doc)) = .ok (s, []) := by
  simp only [handle, onRecvFromKafka, h]

end aodc.active_module
