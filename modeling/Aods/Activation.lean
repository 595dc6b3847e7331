-- Five parties and two topics between them: install asks aodc for an activation, the deploy
-- control issues a resource id, aodc signs it, install saves what it is told, and aods later
-- shows the saved code to aodc, which asks the control. Other channels and other
-- producers go on beside them, in any order.
import Aods.AodcActive
import Aods.AodcAuth
import Aods.AodsAuth
import Aods.IssuedIds

open machine runs std_map
open util.helper util.json msg_def
open install.active_module
open aods.auth_module (onAuthen onAuthen_saveActive)
open py.deploy_ctrl py.issued_ids

namespace activation

structure World where
  install : Install
  /-- `data/aoauth.db`, which install writes and aods reads. -/
  file : Option Bytes
  /-- The name that aodc has for the channel of install. -/
  channel : Option Bytes
  /-- What is on its way over that channel, the oldest first. -/
  to_aodc : List Bytes
  to_install : List Bytes
  active : aodc.active_module.State
  auth : aodc.auth_module.State
  deploy : DeployCtrl
  /-- The topics `deploy_u` and `deploy_d`, what is not read yet, the oldest first. -/
  deploy_u : List Posted
  deploy_d : List CJson

/-- The start: nothing is asked yet, and the control has its servers. -/
def World.start (deploy : DeployCtrl) : World where
  install := .start
  file := none
  channel := none
  to_aodc := []
  to_install := []
  active := .empty
  auth := .empty
  deploy := deploy
  deploy_u := []
  deploy_d := []

inductive Event where
  /-- install is started with the index of a segment. -/
  | launch (uc_index : UInt8)
  /-- Its channel to aodc is built, under a name that aodc gives it. -/
  | connect (channel : Bytes) (rd_serial : Arr 14) (ifaddrs : Option (List (Option (Arr 4))))
  /-- aodc receives what install sent. -/
  | request (behind rands : Bytes)
  /-- Another message to the activation module of aodc, and to its authentication module. -/
  | channels (e : aodc.active_module.Event)
  | clients (e : aodc.auth_module.Event)
  /-- aods authenticates on a channel of its own. -/
  | authen (channel behind : Bytes) (alike_behind : Bool) (ifaddrs : Option (List (Option (Arr 4))))
  /-- Another document is put into the topic to the control. -/
  | produce (doc : CJson)
  /-- The control reads a document, and aodc an answer. -/
  | consume (draws : List Draw)
  | answer
  /-- install receives what aodc sent. -/
  | receive

/-! ## The steps -/

/-- The documents that a module sends to the control. -/
def docsOf (os : List Out) : List CJson :=
  os.filterMap (fun o => match o with | .snd2kafka doc => some doc | _ => none)

/-- What a module sends over a channel. -/
def sentTo (channel : Option Bytes) (os : List Out) : List Bytes :=
  os.filterMap (fun o => match o with
    | .channel_send_data c data => if channel = some c then some data else none
    | _ => none)

/-- The documents that a module sends, as posted by it. -/
def posted (sender : Sender) (os : List Out) : List Posted :=
  (docsOf os).map (fun doc => ⟨sender, doc⟩)

/-- The AUTH message of aods as aodc receives it on a channel. -/
def authenMsg (channel : Bytes) (a : AodsAodcAuthen) (behind : Bytes) (alike_behind : Bool) :
    aodc.auth_module.Event :=
  .recv_data (channel ++ 0 :: aodsAodcMsg enAodsAodcAuth a.bytes) behind alike_behind

variable (inet : aodc.active_module.Inet)

/-- The next state and what the control answers. install reads activation messages alone, which
the activation module sends. -/
def step : Handler World Event CJson Fault
  | n, .launch uc_index => .ok ({ n with
      install := onSetActivePara .start uc_index, channel := none, to_aodc := [],
      to_install := [] }, [])
  | n, .connect channel rd_serial ifaddrs => do
    let (install, sent) ← onChannelBuild n.install (aodcClient ++ 0 :: []) rd_serial ifaddrs
    .ok ({ n with install := install, channel := some channel, to_aodc := sent, to_install := [] },
      [])
  | n, .request behind rands =>
    match n.channel, n.to_aodc with
    | some channel, msg :: rest => do
      let (active, os) ← aodc.active_module.handle inet n.active
        (.recv_data (channel ++ 0 :: msg) behind rands)
      .ok ({ n with
        active := active, to_aodc := rest, to_install := n.to_install ++ sentTo n.channel os,
        deploy_u := n.deploy_u ++ posted .active os }, [])
    | _, _ => .ok (n, [])
  | n, .channels e => do
    let (active, os) ← aodc.active_module.handle inet n.active e
    .ok ({ n with
      active := active, to_install := n.to_install ++ sentTo n.channel os,
      deploy_u := n.deploy_u ++ posted .active os }, [])
  | n, .clients e => do
    let (auth, os) ← aodc.auth_module.handle n.auth e
    .ok ({ n with auth := auth, deploy_u := n.deploy_u ++ posted .other os }, [])
  | n, .authen channel behind alike_behind ifaddrs => do
    match ← onAuthen n.file ifaddrs with
    | none => .ok (n, [])
    | some a =>
      let (auth, os) ← aodc.auth_module.handle n.auth (authenMsg channel a behind alike_behind)
      .ok ({ n with auth := auth, deploy_u := n.deploy_u ++ posted .aods os }, [])
  | n, .produce doc => .ok ({ n with deploy_u := n.deploy_u ++ [⟨.other, doc⟩] }, [])
  | n, .consume draws =>
    match n.deploy_u with
    | [] => .ok (n, [])
    | p :: rest =>
      let (deploy, docs) := onConsume n.deploy p.doc draws
      .ok ({ n with deploy := deploy, deploy_u := rest, deploy_d := n.deploy_d ++ docs }, docs)
  | n, .answer =>
    match n.deploy_d with
    | [] => .ok (n, [])
    | doc :: rest => do
      let (active, os) ← aodc.active_module.handle inet n.active (.rcvfkafka (some doc))
      let (auth, _) ← aodc.auth_module.handle n.auth (.rcvfkafka (some doc))
      .ok ({ n with
        active := active, auth := auth, to_install := n.to_install ++ sentTo n.channel os,
        deploy_u := n.deploy_u ++ posted .active os, deploy_d := rest }, [])
  | n, .receive =>
    match n.to_install with
    | [] => .ok (n, [])
    | msg :: rest => do
      let (install, file) ← onRecvChannelData n.install (aodcClient ++ 0 :: msg)
      .ok ({ n with install := install, file := file <|> n.file, to_install := rest }, [])

/-- What the surroundings keep to: a new channel has a name that no request is pending under,
install alone speaks on its channel, a request that is pending is answered by this control alone,
and no other producer tells of an activation. -/
def Usual (_ : List (Event × List CJson)) (n : World) : Event → Prop
  | .connect channel _ _ => 0 ∉ channel ∧
      ∀ u ai, n.active.map_uai.lookup u = some ai → ai.str_channel_name ≠ channel
  | .channels e => (∀ doc, e = .rcvfkafka doc → aodc.active_module.forgetting n.active e = none) ∧
      ∀ data behind rands channel, e = .recv_data data behind rands →
        channelName data = .ok channel →
        n.channel ≠ some channel
  | .authen channel _ _ _ => 0 ∉ channel ∧ isAods channel = true
  | .produce doc => sucOf doc = none
  | _ => True

/-! ## What holds in every state -/

/-- The code of a resource id with a serial. -/
def codeOf (rid : Arr 6) (serial : Bytes) : Bytes := calcActiveCode (rid.1 ++ serial)

theorem length_codeOf (rid : Arr 6) {serial : Bytes} (h : serial.length = 14) :
    (codeOf rid serial).length = enActCodeLen := by
  apply length_calcActiveCode
  rw [List.length_append, rid.2, h]

/-- The control keeps the code of a resource id with a serial, or it will when it has read
some documents. -/
def Activated (dc : DeployCtrl) (topic : List Posted) (rid : Arr 6) (serial : Bytes) : Prop :=
  Kept dc topic (getHexString rid.1) (getHexString (codeOf rid serial))

/-- The message is one of the activation module, and a success has a resource id that is
activated with the serial. -/
def TellsInstall (dc : DeployCtrl) (topic : List Posted) (serial msg : Bytes) : Prop :=
  ∃ rlt data, msg = aodsAodcMsg enAodcAodsActv (rlt :: data) ∧
    (rlt = enActSuccess → ∃ rid : Arr 6, data = rid.1 ++ codeOf rid serial ∧
      Activated dc topic rid serial)

/-- A pending request has ids of the right length, and one of install has its serial. -/
def Pends (n : World) (ai : aodc.active_module.ActiveInfo) : Prop :=
  ai.sz_active_code.length = enActCodeLen ∧
    (n.channel = some ai.str_channel_name →
      ai.sz_active_code.drop enResIdLen = n.install.uc_rd_serial)

/-- The document asks about a code that is kept before it is read. -/
def Backed (dc : DeployCtrl) (topic : List Posted) (doc : CJson) : Prop :=
  ∃ rid serial, doc = auth (getHexString rid.1) (getHexString (codeOf rid serial)) ∧
    Activated dc topic rid serial

structure Sound (n : World) : Prop where
  packed : n.install.Packed
  name : ∀ channel, n.channel = some channel → 0 ∉ channel
  waiting : Waiting n.deploy (given n.deploy_d ++ told n.deploy_u)
  answers : ∀ doc ∈ n.deploy_d,
    (∃ uuid, ∃ rid : Arr 6, (getHexString rid.1).take 2 = n.deploy.index ∧
      doc = activeAck uuid (getHexString rid.1)) ∨ ∃ rid ack, doc = authAck rid ack
  pending : ∀ u ai, n.active.map_uai.lookup u = some ai → Pends n ai
  asked : ∀ msg ∈ n.to_aodc, msg = aodsAodcMsg enAodsAodcActv (activeOf n.install).bytes
  tells : ∀ msg ∈ n.to_install, TellsInstall n.deploy n.deploy_u n.install.uc_rd_serial msg
  saved : ∀ file, n.file = some file → ∃ i : Install, i.Packed ∧ ∃ rid : Arr 6,
    file = saveActive i rid.1 (codeOf rid i.uc_rd_serial) ∧
      Activated n.deploy n.deploy_u rid i.uc_rd_serial
  backed : ∀ topic p, topic ++ [p] <+: n.deploy_u → p.sender = .aods → Backed n.deploy topic p.doc

/-! ## Lemmas -/

theorem Activated.append {dc : DeployCtrl} {topic : List Posted} {rid : Arr 6} {serial : Bytes}
    (h : Activated dc topic rid serial) (more : List Posted) :
    Activated dc (topic ++ more) rid serial := Kept.append h more

theorem TellsInstall.append {dc : DeployCtrl} {topic : List Posted} {serial msg : Bytes}
    (h : TellsInstall dc topic serial msg) (more : List Posted) :
    TellsInstall dc (topic ++ more) serial msg := by
  obtain ⟨rlt, data, hmsg, hsuc⟩ := h
  refine ⟨rlt, data, hmsg, fun hrlt => ?_⟩
  obtain ⟨rid, hdata, hact⟩ := hsuc hrlt
  exact ⟨rid, hdata, hact.append more⟩

/-- What comes before an entry of a topic that goes on lies in the old topic, or the entry is
a new one. -/
theorem prefix_append_cases {α : Type} {pre old new : List α} {x : α}
    (h : pre ++ [x] <+: old ++ new) :
    pre ++ [x] <+: old ∨ (x ∈ new ∧ old <+: pre) := by
  rcases List.prefix_or_prefix_of_prefix h (List.prefix_append old new) with hold | hnew
  · exact Or.inl hold
  · rcases List.prefix_concat_iff.mp hnew with heq | hpre
    · exact Or.inl (heq ▸ List.prefix_rfl)
    · right
      obtain ⟨mid, rfl⟩ := hpre
      refine ⟨?_, List.prefix_append old mid⟩
      rw [List.append_assoc, List.prefix_append_right_inj] at h
      exact h.subset (by simp)

/-- A step in which documents go into the topic to the control, and the control does nothing. -/
theorem Sound.grow {n : World} (h : Sound n) {active : aodc.active_module.State}
    {auth : aodc.auth_module.State} {to_aodc to_install : List Bytes} {new : List Posted}
    {deploy_d : List CJson}
    (hasked : ∀ msg ∈ to_aodc, msg ∈ n.to_aodc) (hanswers : ∀ doc ∈ deploy_d, doc ∈ n.deploy_d)
    (hwaiting : Waiting n.deploy (given deploy_d ++ told (n.deploy_u ++ new)))
    (hpending : ∀ u ai, active.map_uai.lookup u = some ai → Pends n ai)
    (htells : ∀ msg ∈ to_install, msg ∈ n.to_install ∨
      TellsInstall n.deploy (n.deploy_u ++ new) n.install.uc_rd_serial msg)
    (hbacked : ∀ p ∈ new, p.sender = .aods → new = [p] ∧ Backed n.deploy n.deploy_u p.doc) :
    Sound { n with
      active := active, auth := auth, to_aodc := to_aodc, to_install := to_install,
      deploy_u := n.deploy_u ++ new, deploy_d := deploy_d } where
  packed := h.packed
  name := h.name
  waiting := hwaiting
  answers doc hdoc := h.answers doc (hanswers doc hdoc)
  pending := hpending
  asked msg hmsg := h.asked msg (hasked msg hmsg)
  tells msg hmsg := by
    rcases htells msg hmsg with hold | hnew
    · exact (h.tells msg hold).append new
    · exact hnew
  saved file hfile := by
    obtain ⟨i, hi, rid, hdata, hact⟩ := h.saved file hfile
    exact ⟨i, hi, rid, hdata, hact.append new⟩
  backed topic p hpre haods := by
    rcases prefix_append_cases hpre with hold | ⟨hnew, htopic⟩
    · exact h.backed topic p hold haods
    · -- what aods posts is posted alone, behind all that was there
      obtain ⟨rfl, hb⟩ := hbacked p hnew haods
      have hlen := hpre.length_le
      have heq : n.deploy_u = topic :=
        htopic.eq_of_length_le (by simpa using hlen)
      rw [← heq]
      exact hb

/-! ## Steps of aodc -/

theorem told_quiet {ps : List Posted} (h : ∀ p ∈ ps, sucOf p.doc = none) : told ps = [] :=
  List.filterMap_eq_nil_iff.mpr h

theorem Sound.waiting_quiet {n : World} (h : Sound n) {new : List Posted}
    (hnew : ∀ p ∈ new, sucOf p.doc = none) :
    Waiting n.deploy (given n.deploy_d ++ told (n.deploy_u ++ new)) := by
  rw [told_append, told_quiet hnew, List.append_nil]
  exact h.waiting

theorem mem_posted {sender : Sender} {os : List Out} {p : Posted} (h : p ∈ posted sender os) :
    p.sender = sender ∧ .snd2kafka p.doc ∈ os := by
  obtain ⟨doc, hdoc, rfl⟩ := List.mem_map.mp h
  obtain ⟨o, ho, heq⟩ := List.mem_filterMap.mp hdoc
  refine ⟨rfl, ?_⟩
  split at heq
  · cases heq
    exact ho
  · cases heq

theorem mem_sentTo {channel : Option Bytes} {os : List Out} {msg : Bytes}
    (h : msg ∈ sentTo channel os) :
    ∃ c, channel = some c ∧ .channel_send_data c msg ∈ os := by
  obtain ⟨o, ho, heq⟩ := List.mem_filterMap.mp h
  split at heq
  · rename_i c data
    split at heq
    · rename_i hc
      cases heq
      exact ⟨c, hc, ho⟩
    · cases heq
  · cases heq

theorem sucOf_activeDoc (a : AodsAodcActive) (ip : CJson) (uuid : Bytes) :
    sucOf (aodc.active_module.activeDoc a ip uuid) = none := by
  simp [sucOf, aodc.active_module.activeDoc, dictGet, obj, text]

theorem length_ids {data : Bytes}
    (h : data.length = enAodsAodcMsgSize + enAodsAodcActivateSize) :
    ((AodsAodcActive.over (data.drop enAodsAodcMsgSize)).uc_res_id ++
      (AodsAodcActive.over (data.drop enAodsAodcMsgSize)).uc_rd_serial).length = enActCodeLen := by
  simp [AodsAodcActive.over, h, enAodsAodcMsgSize, enAodsAodcActivateSize, enActCodeLen]

/-- A message to the activation module that is not an answer. What comes over the channel of
install is its own request. -/
theorem Sound.requests {inet : aodc.active_module.Inet} {n : World} (h : Sound n)
    {e : aodc.active_module.Event} {active : aodc.active_module.State} {os : List Out}
    {to_aodc : List Bytes} (hchannels : ∀ doc, e ≠ .rcvfkafka doc)
    (hs : aodc.active_module.handle inet n.active e = .ok (active, os))
    (hown : ∀ data behind rands channel, e = .recv_data data behind rands →
      channelName data = .ok channel → n.channel = some channel →
      pastCstr data = aodsAodcMsg enAodsAodcActv (activeOf n.install).bytes)
    (hasked : ∀ msg ∈ to_aodc, msg ∈ n.to_aodc) :
    Sound { n with
      active := active, to_aodc := to_aodc, to_install := n.to_install ++ sentTo n.channel os,
      deploy_u := n.deploy_u ++ posted .active os } := by
  have hbacked : ∀ p ∈ posted .active os, p.sender = .aods →
      posted .active os = [p] ∧ Backed n.deploy n.deploy_u p.doc := by
    intro p hp haods
    rw [(mem_posted hp).1] at haods
    cases haods
  rcases aodc.active_module.handle_channels hchannels hs with ⟨hold, hrefusal⟩ |
    ⟨data, behind, rands, c, a, ip, u, rfl, hname, hlen, ha, rfl, rfl⟩
  · apply h.grow hasked (fun _ hdoc => hdoc) ?_ (fun u ai hu => h.pending u ai (hold u ai hu)) ?_
      hbacked
    · apply h.waiting_quiet
      intro p hp
      rcases hrefusal _ (mem_posted hp).2 with ⟨_, _, _, heq⟩ | ⟨_, heq⟩
      · cases heq
      · cases heq
    · intro msg hmsg
      rcases List.mem_append.mp hmsg with hmsg | hmsg
      · exact Or.inl hmsg
      · obtain ⟨c, _, hsent⟩ := mem_sentTo hmsg
        rcases hrefusal _ hsent with ⟨c', rlt, hrlt, heq⟩ | ⟨_, heq⟩
        · cases heq
          exact Or.inr ⟨rlt, [], rfl, fun hsuc => absurd hsuc hrlt⟩
        · cases heq
  · apply h.grow hasked (fun _ hdoc => hdoc) ?_ ?_ ?_ hbacked
    · apply h.waiting_quiet
      intro p hp
      have hdoc := (mem_posted hp).2
      rw [List.mem_singleton, Out.snd2kafka.injEq] at hdoc
      rw [hdoc]
      exact sucOf_activeDoc a ip u
    · intro u' ai hu'
      rcases find_insert_some.mp hu' with ⟨rfl, rfl⟩ | ⟨_, hu'⟩
      · refine ⟨by rw [ha]; exact length_ids hlen, fun hc => ?_⟩
        have hmsg := hown _ _ _ c rfl hname hc
        have hself : a = activeOf n.install := by
          rw [ha, hmsg]
          exact AodsAodcActive.over_bytes (activeOf_packed h.packed)
        rw [hself]
        rfl
      · exact h.pending u' ai hu'
    · intro msg hmsg
      left
      simpa [sentTo] using hmsg

theorem posted_none {os : List Out} (h : ∀ o ∈ os, ∀ doc, o ≠ .snd2kafka doc) (sender : Sender) :
    posted sender os = [] := by
  unfold posted docsOf
  rw [List.filterMap_eq_nil_iff.mpr, List.map_nil]
  intro o ho
  split
  · rename_i doc
    exact absurd rfl (h _ ho doc)
  · rfl

theorem posted_plain {os : List Out} (h : ∀ o ∈ os, aodc.auth_module.Plain o) (sender : Sender) :
    posted sender os = [] := by
  apply posted_none
  rintro o ho doc rfl
  rcases h _ ho with ⟨_, _, heq⟩ | ⟨_, heq⟩
  · cases heq
  · cases heq

theorem posted_auth {s s' : aodc.auth_module.State} {e : aodc.auth_module.Event} {os : List Out}
    (hs : aodc.auth_module.handle s e = .ok (s', os)) (sender : Sender) :
    posted sender os = [] ∨ ∃ c a, aodc.auth_module.authOf e = some (c, a) ∧
      posted sender os =
        [⟨sender, auth (aodc.auth_module.ridOf a) (getHexString a.uc_act_code)⟩] := by
  rcases aodc.auth_module.handle_cases hs with ⟨c, a, hauth, _, _, rfl⟩ | ⟨_, _, _, _, rfl⟩ |
    ⟨_, _, _, hos⟩
  · exact Or.inr ⟨c, a, hauth, rfl⟩
  · exact Or.inl rfl
  · left
    apply posted_none
    rintro o ho doc rfl
    rcases hos _ ho with (⟨_, _, heq⟩ | ⟨_, heq⟩) | ⟨_, _, _, _, heq⟩
    · cases heq
    · cases heq
    · cases heq

/-- A message to the authentication module. One of aods asks about a code that is kept. -/
theorem Sound.clients {n : World} (h : Sound n) {e : aodc.auth_module.Event}
    {auth : aodc.auth_module.State} {os : List Out} (sender : Sender)
    (hs : aodc.auth_module.handle n.auth e = .ok (auth, os))
    (haods : sender = .aods → ∀ c a, aodc.auth_module.authOf e = some (c, a) →
      Backed n.deploy n.deploy_u
        (py.deploy_ctrl.auth (aodc.auth_module.ridOf a) (getHexString a.uc_act_code))) :
    Sound { n with auth := auth, deploy_u := n.deploy_u ++ posted sender os } := by
  rcases posted_auth hs sender with hnone | ⟨c, a, hauth, hone⟩
  · rw [hnone]
    apply h.grow (fun _ hm => hm) (fun _ hd => hd) (h.waiting_quiet (by simp)) h.pending
      (fun _ hm => Or.inl hm) (by simp)
  · rw [hone]
    apply h.grow (fun _ hm => hm) (fun _ hd => hd) (h.waiting_quiet ?_) h.pending
      (fun _ hm => Or.inl hm) ?_
    · intro p hp
      rw [List.mem_singleton.mp hp]
      exact sucOf_auth _ _
    · intro p hp hsender
      rw [List.mem_singleton.mp hp] at hsender ⊢
      exact ⟨rfl, haods hsender c a hauth⟩

theorem posted_activeSucc (rid : Arr 6) (channel serial : Bytes) :
    posted .active
      (aodc.active_module.onActiveSucc channel (rid.1 ++ serial) ++ [.channel_free channel]) =
      [⟨.active, activeSuc (getHexString rid.1) (getHexString (codeOf rid serial))⟩] := by
  have htake : (rid.1 ++ serial).take enResIdLen = rid.1 := by
    rw [← show rid.1.length = enResIdLen from rid.2]
    exact List.take_left ..
  simp only [aodc.active_module.onActiveSucc, htake]
  rfl

theorem mem_sentTo_activeSucc {rid : Arr 6} {channel serial msg : Bytes} {c : Option Bytes}
    (h : msg ∈ sentTo c (aodc.active_module.onActiveSucc channel (rid.1 ++ serial) ++
      [.channel_free channel])) :
    c = some channel ∧
      msg = aodsAodcMsg enAodcAodsActv (enActSuccess :: (rid.1 ++ codeOf rid serial)) := by
  have htake : (rid.1 ++ serial).take enResIdLen = rid.1 := by
    rw [← show rid.1.length = enResIdLen from rid.2]
    exact List.take_left ..
  obtain ⟨c', hc, ho⟩ := mem_sentTo h
  simp only [aodc.active_module.onActiveSucc, htake] at ho
  simp only [List.cons_append, List.nil_append, List.mem_cons, List.not_mem_nil, or_false] at ho
  rcases ho with heq | heq | heq
  · cases heq
  · cases heq
    exact ⟨hc, rfl⟩
  · cases heq

/-- aodc reads an answer: a resource id that is given out is signed with the serial of a pending
request, and both the control and the channel are told. -/
theorem Sound.answer {inet : aodc.active_module.Inet} {n : World} (h : Sound n) {doc : CJson}
    {rest : List CJson} (hdocs : n.deploy_d = doc :: rest) {active : aodc.active_module.State}
    {auth : aodc.auth_module.State} {os : List Out}
    (hs : aodc.active_module.handle inet n.active (.rcvfkafka (some doc)) = .ok (active, os)) :
    Sound { n with
      active := active, auth := auth, to_install := n.to_install ++ sentTo n.channel os,
      deploy_u := n.deploy_u ++ posted .active os, deploy_d := rest } := by
  have hrest : ∀ d ∈ rest, d ∈ n.deploy_d := fun d hd => by
    rw [hdocs]
    exact List.mem_cons_of_mem doc hd
  have hgiven : given n.deploy_d = (ackOf doc).toList ++ given rest := by
    rw [hdocs]
    unfold given
    cases hack : ackOf doc with
    | none => simp [hack]
    | some rid => simp [hack]
  -- an answer that nobody waits for is read and changes nothing
  have hquiet : active = n.active → os = [] → Sound { n with
      active := active, auth := auth, to_install := n.to_install ++ sentTo n.channel os,
      deploy_u := n.deploy_u ++ posted .active os, deploy_d := rest } := by
    rintro rfl rfl
    have hsame : n.to_install ++ sentTo n.channel [] = n.to_install := List.append_nil _
    rw [hsame]
    apply h.grow (fun _ hm => hm) hrest ?_ h.pending (fun _ hm => Or.inl hm)
      (fun p hp => by cases hp)
    have hw := h.waiting
    rw [hgiven, List.append_assoc] at hw
    rw [show n.deploy_u ++ posted .active [] = n.deploy_u from List.append_nil _]
    exact hw.sublist (List.sublist_append_right _ _)
  rcases h.answers doc (by rw [hdocs]; exact List.mem_cons_self) with
    ⟨uuid, rid, hmine, rfl⟩ | ⟨rid, ack, rfl⟩
  · rcases aodc.active_module.handle_activeAck_cases (fun u ai hu => (h.pending u ai hu).1) rid.2
        hs with
      ⟨hactive, hos⟩ | ⟨u, ai, hai, rfl, rfl⟩
    · exact hquiet hactive hos
    · have hact : Activated n.deploy (n.deploy_u ++ [⟨.active, activeSuc (getHexString rid.1)
          (getHexString (codeOf rid (ai.sz_active_code.drop enResIdLen)))⟩]) rid
          (ai.sz_active_code.drop enResIdLen) :=
        ⟨hmine, Or.inr ⟨_, List.mem_append_right _ (List.mem_singleton.mpr rfl), rfl⟩⟩
      rw [posted_activeSucc]
      apply h.grow (fun _ hm => hm) hrest
      · have hw := h.waiting
        rw [hgiven, ackOf_activeAck] at hw
        rw [told_append, ← List.append_assoc]
        have htold : told [⟨.active, activeSuc (getHexString rid.1)
            (getHexString (codeOf rid (ai.sz_active_code.drop enResIdLen)))⟩] =
                [getHexString rid.1] := by
          rw [told_cons, sucOf_activeSuc]
          rfl
        rw [htold]
        exact hw.perm (@List.perm_append_comm _ [getHexString rid.1] _)
      · intro u' ai' hu'
        exact h.pending u' ai' (find_erase_some.mp hu').2
      · intro msg hmsg
        rcases List.mem_append.mp hmsg with hmsg | hmsg
        · exact Or.inl hmsg
        · obtain ⟨hchannel, rfl⟩ := mem_sentTo_activeSucc hmsg
          -- a request of install pends with its serial
          rw [(h.pending u ai hai).2 hchannel] at hact ⊢
          exact Or.inr ⟨enActSuccess, _, rfl, fun _ => ⟨rid, rfl, hact⟩⟩
      · intro p hp haods
        rw [List.mem_singleton.mp hp] at haods
        cases haods
  · have hnone : (authAck rid ack).getObjectItem "active_ack" = none := by
      have hname : sameName (text "auth_ack") (text "active_ack") = false := by decide
      simp [authAck, obj, CJson.getObjectItem, hname]
    rw [aodc.active_module.handle_other_doc inet hnone] at hs
    cases hs
    exact hquiet rfl rfl

/-! ## Steps of the control and of install -/

theorem Sound.consume {n : World} (h : Sound n) {p : Posted} {rest : List Posted}
    (hdocs : n.deploy_u = p :: rest) (draws : List Draw) :
    Sound { n with
      deploy := (onConsume n.deploy p.doc draws).1, deploy_u := rest,
      deploy_d := n.deploy_d ++ (onConsume n.deploy p.doc draws).2 } := by
  have hwaiting := h.waiting
  rw [hdocs] at hwaiting
  have htold : Waiting n.deploy (told (p :: rest)) :=
    hwaiting.sublist (List.sublist_append_right _ _)
  have hkept : ∀ {rid serial}, Activated n.deploy n.deploy_u rid serial →
      Activated (onConsume n.deploy p.doc draws).1 rest rid serial := by
    intro rid serial hact
    rw [hdocs] at hact
    exact Kept.consume htold hact draws
  refine ⟨h.packed, h.name, hwaiting.consume draws, fun doc hdoc => ?_, h.pending, h.asked,
    fun msg hmsg => ?_, fun file hfile => ?_, fun topic q hpre haods => ?_⟩
  · rw [onConsume_index]
    rcases List.mem_append.mp hdoc with hdoc | hdoc
    · exact h.answers doc hdoc
    · rcases onConsume_cases n.deploy p.doc draws with ⟨rid, srv, uuid, hrid, _, hs⟩ |
        ⟨_, _, _, _, _, hs⟩ | ⟨_, hacks⟩
      · rw [hs] at hdoc
        obtain ⟨_, hmine, bytes, rfl⟩ := generalRid_some hrid
        exact Or.inl ⟨uuid, bytes, hmine, List.mem_singleton.mp hdoc⟩
      · rw [hs] at hdoc
        cases hdoc
      · exact Or.inr (hacks doc hdoc)
  · obtain ⟨rlt, data, hmsg', hsuc⟩ := h.tells msg hmsg
    refine ⟨rlt, data, hmsg', fun hrlt => ?_⟩
    obtain ⟨rid, hdata, hact⟩ := hsuc hrlt
    exact ⟨rid, hdata, hkept hact⟩
  · obtain ⟨i, hi, rid, hdata, hact⟩ := h.saved file hfile
    exact ⟨i, hi, rid, hdata, hkept hact⟩
  · -- what stands before a report has lost its first document
    have hlonger : (p :: topic) ++ [q] <+: n.deploy_u := by
      rw [hdocs]
      exact List.cons_prefix_cons.mpr ⟨rfl, hpre⟩
    obtain ⟨rid, serial, hdoc, hact⟩ := h.backed _ q hlonger haods
    have hsub : (told (p :: topic)).Sublist (told (p :: rest)) := by
      obtain ⟨post, rfl⟩ := hpre
      simp only [List.append_assoc, told_cons, told_append]
      exact List.Sublist.append (List.Sublist.refl _) (List.sublist_append_left _ _)
    exact ⟨rid, serial, hdoc, Kept.consume (htold.sublist hsub) hact draws⟩

theorem Sound.receive {n : World} (h : Sound n) {msg : Bytes} {rest : List Bytes}
    (hmsgs : n.to_install = msg :: rest) {install : Install} {file : Option Bytes}
    (hs : onRecvChannelData n.install (aodcClient ++ 0 :: msg) = .ok (install, file)) :
    Sound { n with install := install, file := file <|> n.file, to_install := rest } := by
  obtain ⟨rlt, data, rfl, hsuc⟩ := h.tells msg (by rw [hmsgs]; exact List.mem_cons_self)
  rw [onRecvChannelData_actv] at hs
  obtain ⟨rfl, rfl⟩ := Prod.mk.inj (Except.ok.inj hs)
  refine ⟨⟨h.packed.rd_serial, h.packed.ip_num, h.packed.ip_addr⟩, h.name, h.waiting, h.answers,
    h.pending, h.asked, fun msg hmsg => ?_, fun file hfile => ?_, h.backed⟩
  · exact h.tells msg (by rw [hmsgs]; exact List.mem_cons_of_mem _ hmsg)
  · by_cases hrlt : rlt = enActSuccess
    · obtain ⟨rid, rfl, hact⟩ := hsuc hrlt
      rw [if_pos hrlt, activeSuccess_suc _ rid.2 (length_codeOf rid h.packed.rd_serial)] at hfile
      cases hfile
      exact ⟨n.install, h.packed, rid, rfl, hact⟩
    · rw [if_neg hrlt] at hfile
      exact h.saved file hfile

/-- install connects under a name that no request pends under, and asks with a new serial
unless it is activated. -/
theorem Sound.connect {n : World} (h : Sound n) {channel : Bytes} (hname : 0 ∉ channel)
    (hnew : ∀ u ai, n.active.map_uai.lookup u = some ai → ai.str_channel_name ≠ channel)
    {rd_serial : Arr 14} {ifaddrs : Option (List (Option (Arr 4)))} {install : Install}
    {sent : List Bytes}
    (hs : onChannelBuild n.install (aodcClient ++ 0 :: []) rd_serial ifaddrs =
      .ok (install, sent)) :
    Sound { n with
      install := install, channel := some channel, to_aodc := sent, to_install := [] } := by
  have hparts : install.Packed ∧
      ∀ msg ∈ sent, msg = aodsAodcMsg enAodsAodcActv (activeOf install).bytes := by
    cases hact : n.install.b_actived with
    | true =>
      rw [onChannelBuild_actived hact] at hs
      cases hs
      exact ⟨h.packed, by simp⟩
    | false =>
      obtain ⟨asking, hpacked, _, _, _, hasks⟩ :=
        onChannelBuild_asks h.packed hact rd_serial ifaddrs []
      rw [hasks] at hs
      cases hs
      exact ⟨hpacked, fun msg hmsg => List.mem_singleton.mp hmsg⟩
  refine ⟨hparts.1, ?_, h.waiting, h.answers, fun u ai hu => ⟨(h.pending u ai hu).1, fun hc => ?_⟩,
    hparts.2, by simp, h.saved, h.backed⟩
  · rintro c hc
    cases hc
    exact hname
  · cases hc
    exact absurd rfl (hnew u ai hu)

theorem Sound.launch {n : World} (h : Sound n) (uc_index : UInt8) :
    Sound { n with
      install := onSetActivePara .start uc_index, channel := none, to_aodc := [],
      to_install := [] } where
  packed := ⟨rfl, Install.start_packed.ip_num, rfl⟩
  name := by simp
  waiting := h.waiting
  answers := h.answers
  pending u ai hu := ⟨(h.pending u ai hu).1, by simp⟩
  asked := by simp
  tells := by simp
  saved := h.saved
  backed := h.backed

theorem Sound.start (deploy : DeployCtrl) : Sound (.start deploy) where
  packed := Install.start_packed
  name := by simp [World.start]
  waiting := Waiting.nil deploy
  answers := by simp [World.start]
  pending u ai hu := by simp [World.start, aodc.active_module.State.empty] at hu
  asked := by simp [World.start]
  tells := by simp [World.start]
  saved := by simp [World.start]
  backed topic p hpre := by simp [World.start] at hpre

/-! ## AUTH messages -/

/-- What aods reads from the file passes the check of aodc, and the control keeps its code. -/
theorem Sound.authen {n : World} (h : Sound n) {ifaddrs : Option (List (Option (Arr 4)))}
    {a : AodsAodcAuthen} (hread : onAuthen n.file ifaddrs = .ok (some a)) :
    a.Packed ∧ aodc.auth_module.locallyValid a = true ∧ ∃ rid serial, a.uc_res_id = rid.1 ∧
      a.uc_act_code = codeOf rid serial ∧ Activated n.deploy n.deploy_u rid serial := by
  cases hfile : n.file with
  | none =>
    rw [hfile] at hread
    cases hread
  | some file =>
    obtain ⟨i, hi, rid, rfl, hact⟩ := h.saved file hfile
    have hcode := length_codeOf rid hi.rd_serial
    rw [hfile] at hread
    rcases onAuthen_saveActive hi rid.2 hcode ifaddrs with ⟨_, hs⟩ | ⟨num, ips, hips, hs⟩
    · rw [hs] at hread
      cases hread
    · rw [hs] at hread
      cases hread
      refine ⟨⟨hips, rid.2, hi.rd_serial, hcode⟩, ?_, rid, i.uc_rd_serial, rfl, rfl, hact⟩
      simp [aodc.auth_module.locallyValid, codeOf]

theorem authOf_authenMsg {channel : Bytes} {a : AodsAodcAuthen} (hname : 0 ∉ channel)
    (haods : isAods channel = true) (hp : a.Packed) (hv : aodc.auth_module.locallyValid a = true)
    (behind : Bytes) (alike : Bool) :
    aodc.auth_module.authOf (authenMsg channel a behind alike) = some (channel, a) :=
  aodc.auth_module.authOf_authEvent hname haods hp hv alike

theorem Sound.step {inet : aodc.active_module.Inet} {n n' : World} {e : Event} {docs : List CJson}
    {es : List (Event × List CJson)} (h : Sound n) (hok : Usual es n e)
    (hs : step inet n e = .ok (n', docs)) : Sound n' := by
  cases e with
  | launch uc_index =>
    cases hs
    exact h.launch uc_index
  | connect channel rd_serial ifaddrs =>
    obtain ⟨⟨install, sent⟩, hbuild, hs⟩ := bind_ok hs
    cases hs
    exact h.connect hok.1 hok.2 hbuild
  | request behind rands =>
    simp only [activation.step] at hs
    split at hs
    · rename_i channel msg rest hchannel hmsgs
      obtain ⟨⟨active, os⟩, hhandle, hs⟩ := bind_ok hs
      cases hs
      have hmsg := h.asked msg (by rw [hmsgs]; exact List.mem_cons_self)
      apply h.requests (by simp) hhandle
      · intro data behind' rands' c he _ _
        cases he
        rw [pastCstr_append (h.name channel hchannel)]
        exact hmsg
      · intro m hm
        rw [hmsgs]
        exact List.mem_cons_of_mem msg hm
    · cases hs
      exact h
  | channels e =>
    obtain ⟨⟨active, os⟩, hhandle, hs⟩ := bind_ok hs
    cases hs
    cases e with
    | rcvfkafka doc =>
      obtain ⟨rfl, rfl⟩ := aodc.active_module.handle_unasked (hok.1 doc rfl) hhandle
      have hsent : n.to_install ++ sentTo n.channel [] = n.to_install := List.append_nil _
      have hposted : n.deploy_u ++ posted .active [] = n.deploy_u := List.append_nil _
      rw [hsent, hposted]
      exact h
    | _ =>
      apply h.requests (fun _ he => by cases he) hhandle ?_ (fun _ hm => hm)
      intro data behind rands c he hname hc
      exact absurd hc (hok.2 data behind rands c he hname)
  | clients e =>
    obtain ⟨⟨auth, os⟩, hhandle, hs⟩ := bind_ok hs
    cases hs
    exact h.clients .other hhandle (by simp)
  | authen channel behind alike ifaddrs =>
    obtain ⟨read, hread, hs⟩ := bind_ok hs
    cases read with
    | none =>
      cases hs
      exact h
    | some a =>
      obtain ⟨⟨auth, os⟩, hhandle, hs⟩ := bind_ok hs
      cases hs
      obtain ⟨hp, hv, rid, serial, hrid, hcode, hact⟩ := h.authen hread
      apply h.clients .aods hhandle
      intro _ c a' hauth
      rw [authOf_authenMsg hok.1 hok.2 hp hv] at hauth
      cases hauth
      exact ⟨rid, serial, by rw [hcode, aodc.auth_module.ridOf, hrid], hact⟩
  | produce doc =>
    cases hs
    apply h.grow (fun _ hm => hm) (fun _ hd => hd) (h.waiting_quiet ?_) h.pending
      (fun _ hm => Or.inl hm) ?_
    · intro p hp
      rw [List.mem_singleton.mp hp]
      exact hok
    · intro p hp haods
      rw [List.mem_singleton.mp hp] at haods
      cases haods
  | consume draws =>
    simp only [activation.step] at hs
    split at hs
    · cases hs
      exact h
    · rename_i p rest hdocs
      cases hs
      exact h.consume hdocs draws
  | answer =>
    simp only [activation.step] at hs
    split at hs
    · cases hs
      exact h
    · rename_i doc rest hdocs
      obtain ⟨⟨active, os⟩, hhandle, hs⟩ := bind_ok hs
      obtain ⟨⟨auth, _⟩, _, hs⟩ := bind_ok hs
      cases hs
      exact h.answer hdocs hhandle
  | receive =>
    simp only [activation.step] at hs
    split at hs
    · cases hs
      exact h
    · rename_i msg rest hmsgs
      obtain ⟨⟨install, file⟩, hrecv, hs⟩ := bind_ok hs
      cases hs
      exact h.receive hmsgs hrecv

theorem Sound.run {inet : aodc.active_module.Inet} {deploy : DeployCtrl}
    {es : List (Event × List CJson)} {n : World}
    (h : Run (activation.step inet) Usual (.start deploy) es n) : Sound n := by
  apply h.invariant (I := fun _ n => Sound n) (Sound.start deploy)
  intro es n e n' docs hsound hok hs
  exact hsound.step hok hs

end activation
