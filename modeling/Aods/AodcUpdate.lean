-- `CUpdateModule` of aodc: which channel the updates of a server go to, and which
-- server the reports of a channel are from. An AUTH_SUC enters both maps, and the
-- loss of a channel takes an entry out of each.
import Aods.MsgDef
import Aods.Runs
import Aods.StdMap

open machine runs std_map
open util.json msg_def

namespace aodc.update_module

/-- `UPDATE_OBJ`. -/
structure UpdateObj where
  str_channel_name : Bytes
  str_res_id : Bytes
  deriving DecidableEq, Repr

structure State where
  map_cuo : StdMap UpdateObj
  map_ruo : StdMap UpdateObj

def State.empty : State := ⟨∅, ∅⟩

inductive Event where
  | recv_data (data : Bytes)
  | send_data_fail (data : Bytes)
  | freed (data : Bytes)
  | auth_suc (data : Bytes)
  | rcvfkafka (doc : Option CJson)
  | timer (un_timer_id : Nat)

def enTiKeepalive : Nat := 1

/-! ## Authentications and lost channels -/

/-- The state with the update object of a resource id and a channel in both maps. -/
def State.grant (s : State) (rid channel : Bytes) : State where
  map_cuo := s.map_cuo.insert channel ⟨channel, rid⟩
  map_ruo := s.map_ruo.insert rid ⟨channel, rid⟩

def onAuthSuc (s : State) (data : Bytes) : Except Fault (State × List Out) :=
  if data.length < enResIdLen ∨ data.getLast? ≠ some 0 then .ok (s, [])
  else
    let sz_res_id := cstr data
    -- `strcpy` into an array of 16
    if sz_res_id.length ≥ 16 then .error .overrun
    else
      match channelName (pastCstr data) with
      | .error f => .error f
      | .ok channel => .ok (s.grant sz_res_id channel, [])

/-- The maps without the channel, and without the resource id that `m_mapCuo` has for it. -/
def State.drop (s : State) (channel : Bytes) : State :=
  match s.map_cuo.lookup channel with
  | none => s
  | some cuo => ⟨s.map_cuo.erase channel, s.map_ruo.erase cuo.str_res_id⟩

def onSendChannelDataFail := lostChannel State.drop

def onChannelFreed := lostChannel State.drop

/-! ## Updates -/

/-- `ucData` behind the message code. -/
def enUmiRoom : Nat := 1020

/-- `strcpy` of a member behind what is written already. -/
def copyMember (update : CJson) (written : Bytes) (name : String) : Except Fault Bytes := do
  let p_property ← update.getMember name
  let value ← p_property.valuestring
  if written.length + value.length + 1 > enUmiRoom then .error .overrun
  else .ok (written ++ value ++ [0])

/-- The text of an update message. -/
def updateText (update : CJson) : Except Fault Bytes := do
  let written ← ["project", "module", "version", "hash", "url", "code"].foldlM (copyMember update)
    []
  let p_property ← update.getMember "force"
  if written.length ≥ enUmiRoom then .error .overrun
  else .ok (written ++ [uchar p_property.valueint])

def onRecvFromKafka (s : State) (doc : Option CJson) : Except Fault (State × List Out) :=
  match doc with
  | none => .ok (s, [])
  | some doc =>
    match doc.getObjectItem "update" with
    | none => .ok (s, [])
    | some update => do
      let p_rid ← update.getMember "rid"
      let rid ← p_rid.valuestring
      match s.map_ruo.lookup rid with
      | none => .ok (s, [])
      | some ruo =>
        let sz_msg ← updateText update
        .ok (s, [.channel_send_data ruo.str_channel_name (aodsAodcMsg enAodcAodsUmi sz_msg)])

/-! ## Reports of a client -/

/-- The four texts of a report, the resource id of its server, and what comes behind. -/
def moduleMembers (rid data : Bytes) (more : List (String × CJson)) : CJson :=
  let module_text := pastCstr data
  let version_text := pastCstr module_text
  let hash_text := pastCstr version_text
  obj ([("project", .string (cstr data)), ("module", .string (cstr module_text)),
    ("version", .string (cstr version_text)), ("hash", .string (cstr hash_text)),
    ("rid", .string rid)] ++ more)

def onRecvUpdateModuleInfo (rid data : Bytes) : List Out :=
  if data.count 0 < 4 then []
  else [.snd2kafka (obj [("check_update", moduleMembers rid data [])])]

def onRecvUpdateModuleResult (rid data : Bytes) : List Out :=
  if (data.drop 1).count 0 < 4 then []
  else
    let result := CJson.number (data.getD 0 0).toNat
    [.snd2kafka (obj [("update_result", moduleMembers rid (data.drop 1) [("result", result)])])]

def onRecvAodsData (s : State) (channel data : Bytes) : List Out :=
  if data.length < enAodsAodcMsgSize then []
  else
    match s.map_cuo.lookup channel with
    | none => []
    | some cuo =>
      let sz_msg := data.drop enAodsAodcMsgSize
      if msgCode data = enAodsAodcUmi then onRecvUpdateModuleInfo cuo.str_res_id sz_msg
      else if msgCode data = enAodsAodcUdr then onRecvUpdateModuleResult cuo.str_res_id sz_msg
      else []

def onRecvChannelData (s : State) (data : Bytes) : Except Fault (State × List Out) :=
  match channelName data with
  | .error f => .error f
  | .ok channel =>
    .ok (s, if isAods channel then onRecvAodsData s channel (pastCstr data) else [])

/-! ## The timer -/

/-- The keys of a map, in the order in which its iterator goes through them. -/
def orderedKeys (m : StdMap UpdateObj) : List Bytes := m.keys.mergeSort (fun a b => a ≤ b)

def onTimer (s : State) (un_timer_id : Nat) : List Out :=
  if un_timer_id ≠ enTiKeepalive then []
  else (orderedKeys s.map_cuo).map
    (fun channel => .channel_send_data channel (aodsAodcMsg enAodcAodsKeepalive []))

def handle : Handler State Event Out Fault
  | s, .recv_data data => onRecvChannelData s data
  | s, .send_data_fail data => onSendChannelDataFail s data
  | s, .freed data => onChannelFreed s data
  | s, .auth_suc data => onAuthSuc s data
  | s, .rcvfkafka doc => onRecvFromKafka s doc
  | s, .timer un_timer_id => .ok (s, onTimer s un_timer_id)

/-! ## What an event can do -/

/-- The resource id and the channel that an AUTH_SUC names. -/
def grantOf : Event → Option (Bytes × Bytes)
  | .auth_suc data =>
    if enResIdLen ≤ data.length ∧ data.getLast? = some 0 then
      some (cstr data, cstr (pastCstr data))
    else none
  | _ => none

/-- The channel of a client that an event tells is lost. -/
def lostOf : Event → Option Bytes
  | .send_data_fail data => clientChannel data
  | .freed data => clientChannel data
  | _ => none

/-- The resource id of a report that goes to Kafka. -/
def reportOf : Out → Option Bytes
  | .snd2kafka doc =>
    match (doc.getObjectItem "check_update").orElse
        (fun _ => doc.getObjectItem "update_result") with
    | none => none
    | some report =>
      match report.getObjectItem "rid" with
      | some (.string rid) => some rid
      | _ => none
  | _ => none

theorem handle_grant {s s' : State} {e : Event} {rid c : Bytes} {os : List Out}
    (h : grantOf e = some (rid, c)) (hs : handle s e = .ok (s', os)) :
    s' = s.grant rid c ∧ os = [] := by
  cases e with
  | auth_suc data =>
    simp only [grantOf] at h
    split at h
    · rename_i hdata
      cases h
      have hread : ¬ (data.length < enResIdLen ∨ data.getLast? ≠ some 0) := by
        rintro (hlen | hlast)
        · exact absurd hdata.1 (by omega)
        · exact hlast hdata.2
      simp only [handle, onAuthSuc, if_neg hread] at hs
      split at hs
      · cases hs
      cases hname : channelName (pastCstr data) with
      | error f =>
        rw [hname] at hs
        cases hs
      | ok channel =>
        rw [hname] at hs
        cases hs
        obtain ⟨_, rfl⟩ := channelName_eq hname
        exact ⟨rfl, rfl⟩
    · cases h
  | _ => cases h

theorem handle_no_grant {s s' : State} {data : Bytes} {os : List Out}
    (h : grantOf (.auth_suc data) = none) (hs : handle s (.auth_suc data) = .ok (s', os)) :
    s' = s ∧ os = [] := by
  have hunread : data.length < enResIdLen ∨ data.getLast? ≠ some 0 := by
    by_contra hread
    simp only [not_or, not_lt, not_not] at hread
    rw [grantOf, if_pos hread] at h
    cases h
  simp only [handle, onAuthSuc, if_pos hunread] at hs
  cases hs
  exact ⟨rfl, rfl⟩

theorem handle_lost {e : Event} {c : Bytes} (h : lostOf e = some c) (s : State) :
    handle s e = .ok (s.drop c, []) := by
  cases e with
  | send_data_fail data => exact lostChannel_client State.drop s h
  | freed data => exact lostChannel_client State.drop s h
  | _ => cases h

theorem handle_update (s : State) {doc update : CJson} {rid : Bytes}
    (hdoc : doc.getObjectItem "update" = some update)
    (hrid : update.getMember "rid" >>= CJson.valuestring = .ok rid) :
    handle s (.rcvfkafka (some doc)) = match s.map_ruo.lookup rid with
      | none => .ok (s, [])
      | some ruo => (updateText update).map
          (fun t =>
            (s, [.channel_send_data ruo.str_channel_name (aodsAodcMsg enAodcAodsUmi t)])) := by
  obtain ⟨p_rid, hp, hv⟩ := bind_ok hrid
  simp only [handle, onRecvFromKafka, hdoc, hp, hv, bind, Except.bind]
  cases s.map_ruo.lookup rid with
  | none => rfl
  | some ruo => cases updateText update <;> rfl

theorem handle_kafka {s s' : State} {doc : Option CJson} {os : List Out}
    (hs : handle s (.rcvfkafka doc) = .ok (s', os)) :
    s' = s ∧ ∀ o ∈ os, ∃ d update rid ruo t, doc = some d ∧ d.getObjectItem "update" = some update ∧
      update.getMember "rid" >>= CJson.valuestring = .ok rid ∧ s.map_ruo.lookup rid = some ruo ∧
      o = .channel_send_data ruo.str_channel_name (aodsAodcMsg enAodcAodsUmi t) := by
  cases doc with
  | none =>
    cases hs
    exact ⟨rfl, by simp⟩
  | some d =>
    cases hdoc : d.getObjectItem "update" with
    | none =>
      simp only [handle, onRecvFromKafka, hdoc] at hs
      cases hs
      exact ⟨rfl, by simp⟩
    | some update =>
      simp only [handle, onRecvFromKafka, hdoc] at hs
      obtain ⟨p_rid, hp, hs⟩ := bind_ok hs
      obtain ⟨rid, hv, hs⟩ := bind_ok hs
      cases hruo : s.map_ruo.lookup rid with
      | none =>
        rw [hruo] at hs
        cases hs
        exact ⟨rfl, by simp⟩
      | some ruo =>
        rw [hruo] at hs
        obtain ⟨t, _, hs⟩ := bind_ok hs
        cases hs
        have hrid : update.getMember "rid" >>= CJson.valuestring = .ok rid := by
          rw [hp]
          exact hv
        exact ⟨rfl,
          fun o ho => ⟨d, update, rid, ruo, t, rfl, hdoc, hrid, hruo, List.mem_singleton.mp ho⟩⟩

theorem getObjectItem_rid (rid data : Bytes) (more : List (String × CJson)) :
    (moduleMembers rid data more).getObjectItem "rid" = some (.string rid) := by
  have h1 : sameName (text "project") (text "rid") = false := by decide
  have h2 : sameName (text "module") (text "rid") = false := by decide
  have h3 : sameName (text "version") (text "rid") = false := by decide
  have h4 : sameName (text "hash") (text "rid") = false := by decide
  have h5 : sameName (text "rid") (text "rid") = true := by decide
  simp [moduleMembers, obj, CJson.getObjectItem, h1, h2, h3, h4, h5]

theorem reportOf_check (rid data : Bytes) (more : List (String × CJson)) :
    reportOf (.snd2kafka (obj [("check_update", moduleMembers rid data more)])) = some rid := by
  have hdoc : (obj [("check_update", moduleMembers rid data more)]).getObjectItem "check_update" =
      some (moduleMembers rid data more) := by
    have h : sameName (text "check_update") (text "check_update") = true := by decide
    simp [obj, CJson.getObjectItem, h]
  simp [reportOf, hdoc, getObjectItem_rid]

theorem reportOf_result (rid data : Bytes) (more : List (String × CJson)) :
    reportOf (.snd2kafka (obj [("update_result", moduleMembers rid data more)])) = some rid := by
  have hcheck : (obj [("update_result", moduleMembers rid data more)]).getObjectItem
      "check_update" =
      none := by
    have h : sameName (text "update_result") (text "check_update") = false := by decide
    simp [obj, CJson.getObjectItem, h]
  have hresult : (obj [("update_result", moduleMembers rid data more)]).getObjectItem
      "update_result" = some (moduleMembers rid data more) := by
    have h : sameName (text "update_result") (text "update_result") = true := by decide
    simp [obj, CJson.getObjectItem, h]
  simp [reportOf, hcheck, hresult, getObjectItem_rid]

theorem onRecvAodsData_reports {s : State} {c data : Bytes} {o : Out}
    (ho : o ∈ onRecvAodsData s c data) :
    ∃ cuo, s.map_cuo.lookup c = some cuo ∧ reportOf o = some cuo.str_res_id := by
  unfold onRecvAodsData at ho
  split at ho
  · cases ho
  cases hcuo : s.map_cuo.lookup c with
  | none =>
    rw [hcuo] at ho
    cases ho
  | some cuo =>
    refine ⟨cuo, rfl, ?_⟩
    rw [hcuo] at ho
    dsimp only at ho
    split at ho
    · unfold onRecvUpdateModuleInfo at ho
      split at ho
      · cases ho
      · rw [List.mem_singleton.mp ho]
        exact reportOf_check ..
    split at ho
    · unfold onRecvUpdateModuleResult at ho
      split at ho
      · cases ho
      · rw [List.mem_singleton.mp ho]
        exact reportOf_result ..
    · cases ho

theorem handle_recv {s s' : State} {data : Bytes} {os : List Out}
    (hs : handle s (.recv_data data) = .ok (s', os)) :
    s' = s ∧ ∀ o ∈ os, ∃ c cuo, channelName data = .ok c ∧ s.map_cuo.lookup c = some cuo ∧
      reportOf o = some cuo.str_res_id := by
  simp only [handle, onRecvChannelData] at hs
  cases hname : channelName data with
  | error f =>
    rw [hname] at hs
    cases hs
  | ok c =>
    rw [hname] at hs
    obtain ⟨rfl, rfl⟩ := Prod.mk.inj (Except.ok.inj hs)
    refine ⟨rfl, fun o ho => ?_⟩
    split at ho
    · obtain ⟨cuo, hcuo, hreport⟩ := onRecvAodsData_reports ho
      exact ⟨c, cuo, rfl, hcuo, hreport⟩
    · cases ho

theorem onTimer_outputs {s : State} {n : Nat} {o : Out} (ho : o ∈ onTimer s n) :
    ∃ c, o = .channel_send_data c (aodsAodcMsg enAodcAodsKeepalive []) := by
  unfold onTimer at ho
  split at ho
  · cases ho
  · obtain ⟨c, _, hc⟩ := List.mem_map.mp ho
    exact ⟨c, hc.symm⟩

/-- What the module sends out: reports of a channel that it has, updates to the channel that
it has for a resource id, and keepalives. -/
theorem handle_outputs {s s' : State} {e : Event} {os : List Out} (hs : handle s e = .ok (s', os))
    {o : Out} (ho : o ∈ os) :
    (∃ data c cuo, e = .recv_data data ∧ channelName data = .ok c ∧ s.map_cuo.lookup c = some cuo ∧
      reportOf o = some cuo.str_res_id) ∨
    (∃ d update rid ruo t, e = .rcvfkafka (some d) ∧ d.getObjectItem "update" = some update ∧
      update.getMember "rid" >>= CJson.valuestring = .ok rid ∧ s.map_ruo.lookup rid = some ruo ∧
      o = .channel_send_data ruo.str_channel_name (aodsAodcMsg enAodcAodsUmi t)) ∨
    (∃ c, o = .channel_send_data c (aodsAodcMsg enAodcAodsKeepalive [])) := by
  cases e with
  | recv_data data =>
    obtain ⟨c, cuo, hc, hcuo, hreport⟩ := (handle_recv hs).2 o ho
    exact Or.inl ⟨data, c, cuo, rfl, hc, hcuo, hreport⟩
  | send_data_fail data =>
    rw [(lostChannel_cases hs).1] at ho
    cases ho
  | freed data =>
    rw [(lostChannel_cases hs).1] at ho
    cases ho
  | auth_suc data =>
    have hnil : os = [] := by
      cases hg : grantOf (.auth_suc data) with
      | none => exact (handle_no_grant hg hs).2
      | some q => exact (handle_grant hg hs).2
    rw [hnil] at ho
    cases ho
  | rcvfkafka doc =>
    obtain ⟨d, update, rid, ruo, t, rfl, hsent⟩ := (handle_kafka hs).2 o ho
    exact Or.inr (Or.inl ⟨d, update, rid, ruo, t, rfl, hsent⟩)
  | timer n =>
    cases hs
    exact Or.inr (Or.inr (onTimer_outputs ho))

/-- What one event can do to the maps: grant, drop, or nothing. -/
theorem handle_cases {s s' : State} {e : Event} {os : List Out} (hs : handle s e = .ok (s', os)) :
    (∃ rid c, grantOf e = some (rid, c) ∧ lostOf e = none ∧ s' = s.grant rid c) ∨
    (∃ c, grantOf e = none ∧ lostOf e = some c ∧ s' = s.drop c) ∨
    (grantOf e = none ∧ lostOf e = none ∧ s' = s) := by
  cases e with
  | recv_data data => exact Or.inr (Or.inr ⟨rfl, rfl, (handle_recv hs).1⟩)
  | send_data_fail data =>
    obtain ⟨_, ⟨c, hc, hdrop⟩ | ⟨hc, hsame⟩⟩ := lostChannel_cases hs
    · exact Or.inr (Or.inl ⟨c, rfl, hc, hdrop⟩)
    · exact Or.inr (Or.inr ⟨rfl, hc, hsame⟩)
  | freed data =>
    obtain ⟨_, ⟨c, hc, hdrop⟩ | ⟨hc, hsame⟩⟩ := lostChannel_cases hs
    · exact Or.inr (Or.inl ⟨c, rfl, hc, hdrop⟩)
    · exact Or.inr (Or.inr ⟨rfl, hc, hsame⟩)
  | auth_suc data =>
    cases hgrant : grantOf (.auth_suc data) with
    | none => exact Or.inr (Or.inr ⟨rfl, rfl, (handle_no_grant hgrant hs).1⟩)
    | some q => exact Or.inl ⟨q.1, q.2, rfl, rfl, (handle_grant hgrant hs).1⟩
  | rcvfkafka doc => exact Or.inr (Or.inr ⟨rfl, rfl, (handle_kafka hs).1⟩)
  | timer n =>
    cases hs
    exact Or.inr (Or.inr ⟨rfl, rfl, rfl⟩)

end aodc.update_module
