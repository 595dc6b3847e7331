-- The laws of an activation from end to end: what install saved is what the control
-- stored, byte for byte, in whatever order the parties go on. An activation can come to its
-- end, and a server that is bound already is not reported again.
import Aods.Activation
import Aods.AuthGrants
import Aods.DeployDb

open machine runs std_map
open util.helper util.json msg_def
open install.active_module
open aods.auth_module (onAuthen onAuthen_saveActive)
open py.deploy_ctrl py.issued_ids
open activation

namespace activated_servers

/-! ## An activation that comes to its end -/

/-- A server and a control of its segment that has a new resource id for it. -/
structure Setting (inet : aodc.active_module.Inet) where
  deploy : DeployCtrl
  uc_index : UInt8
  mine : deploy.index = getHexString [uc_index]
  channel : Bytes
  name : 0 ∉ channel
  aods : isAods channel = true
  local_addr : Bytes
  peer_addr : Bytes
  local_text : 0 ∉ local_addr
  peer_text : 0 ∉ peer_addr
  ip : Nat
  peer : aodc.active_module.peerIp inet peer_addr = .ok ip
  known : ip ≠ 0
  draw : Draw
  new : deploy.srvs.lookup (deploy.index ++ getHexString draw.1) = none

variable {inet : aodc.active_module.Inet}

/-- The resource id that the control issues. -/
def Setting.rid (w : Setting inet) : Arr 6 :=
  ⟨w.uc_index :: w.draw.1, by rw [List.length_cons, w.draw.2.1]⟩

theorem Setting.hex_rid (w : Setting inet) :
    getHexString w.rid.1 = w.deploy.index ++ getHexString w.draw.1 := by
  rw [w.mine]
  rfl

theorem textsOf_strings {α : Type} (f : α → Bytes) (xs : List α) :
    textsOf (.array (xs.map (fun x => .string (f x)))) = some (xs.map f) := by
  unfold textsOf
  dsimp only
  induction xs with
  | nil => rfl
  | cons x xs ih => simp [ih]

theorem byteOf_toNat (b : UInt8) : byteOf (.number b.toNat) = some b := by
  have hlt := b.toNat_lt
  have hb : uchar (b.toNat : Int) = b := by
    apply UInt8.toNat_inj.mp
    rw [toNat_uchar]
    omega
  simp only [byteOf]
  rw [if_pos (by omega), hb]

theorem Setting.issues (w : Setting inet) (a : AodsAodcActive) (hindex : a.uc_index = w.uc_index)
    (ip : Nat) (addrs : List Nat) (uuid : Bytes) :
    ∃ ips, onConsume w.deploy
      (aodc.active_module.activeDoc a (aodc.active_module.ipTexts inet ip addrs) uuid) [w.draw] =
        ({ w.deploy with srvs := w.deploy.srvs.insert (getHexString w.rid.1) ⟨ips, ips, none⟩ },
          [activeAck (.string uuid) (getHexString w.rid.1)]) := by
  have hgeneral : generalRid w.deploy [w.draw] = some (getHexString w.rid.1) := by
    rw [w.hex_rid]
    simp [generalRid, w.new]
  have hbyte := byteOf_toNat w.uc_index
  have htexts : ∃ ips, textsOf (aodc.active_module.ipTexts inet ip addrs) = some ips :=
    ⟨_, textsOf_strings inet.inet_ntoa _⟩
  obtain ⟨ips, htexts⟩ := htexts
  refine ⟨[44].intercalate ips, ?_⟩
  simp [onConsume, aodc.active_module.activeDoc, dictGet, obj, text, dealActive, hindex, hbyte,
    w.mine, hgeneral, htexts]

/-- aodc with the channel of install built. -/
def Setting.built (w : Setting inet) : aodc.active_module.State :=
  { aodc.active_module.State.empty with map_ca :=
    aodc.active_module.State.empty.map_ca.insert w.channel w.peer_addr }

theorem Setting.handle_built (w : Setting inet) :
    aodc.active_module.handle inet .empty
      (aodc.active_module.buildedEvent w.channel w.local_addr w.peer_addr) = .ok (w.built, []) := by
  simp only [aodc.active_module.handle, aodc.active_module.buildedEvent,
    aodc.active_module.onChannelBuilded_names w.name w.aods w.local_text w.peer_text]
  rfl

theorem Setting.built_usual (w : Setting inet) : Usual [] (.start w.deploy)
    (.channels (aodc.active_module.buildedEvent w.channel w.local_addr w.peer_addr)) := by
  refine ⟨fun doc he => ?_, fun data behind rands c he _ => ?_⟩
  · cases he
  · cases he

/-- What aodc keeps of a request of install. -/
def Setting.asked (w : Setting inet) (i : Install) (rands : Bytes) : aodc.active_module.State :=
  w.built.ask w.channel (getUuid rands) (List.replicate 6 0 ++ i.uc_rd_serial)

/-- The first half: install asks, and its request lies before the control. -/
theorem Setting.requests (w : Setting inet) (rd_serial : Arr 14)
    (ifaddrs : Option (List (Option (Arr 4)))) (rands : Bytes) :
    ∃ es i ips doc, i.Packed ∧
      Run (activation.step inet) Usual (.start w.deploy) es
        ⟨i, none, some w.channel, [], [], w.asked i rands, .empty, w.deploy, [⟨.active, doc⟩], []⟩ ∧
      onConsume w.deploy doc [w.draw] =
        ({ w.deploy with srvs := w.deploy.srvs.insert (getHexString w.rid.1) ⟨ips, ips, none⟩ },
          [activeAck (.string (getUuid rands)) (getHexString w.rid.1)]) := by
  have hpeer : w.built.map_ca.lookup w.channel = some w.peer_addr := by
    unfold Setting.built
    rw [find_insert, if_pos rfl]
  have hlaunch : (onSetActivePara .start w.uc_index).Packed :=
    ⟨rfl, Install.start_packed.ip_num, rfl⟩
  obtain ⟨i, hi, hfresh, hserial, hindex, hbuild⟩ :=
    onChannelBuild_asks hlaunch rfl rd_serial ifaddrs []
  have h1 : step inet (.start w.deploy)
      (.channels (aodc.active_module.buildedEvent w.channel w.local_addr w.peer_addr)) =
        .ok (⟨.start, none, none, [], [], w.built, .empty, w.deploy, [], []⟩, []) := by
    simp only [step, World.start, w.handle_built, bind, Except.bind]
    rfl
  have h2 : step inet ⟨.start, none, none, [], [], w.built, .empty, w.deploy, [], []⟩
      (.launch w.uc_index) =
        .ok (⟨onSetActivePara .start w.uc_index, none, none, [], [], w.built, .empty,
          w.deploy, [], []⟩,
          []) := rfl
  have h3 : step inet
      ⟨onSetActivePara .start w.uc_index, none, none, [], [], w.built, .empty, w.deploy, [], []⟩
      (.connect w.channel rd_serial ifaddrs) =
        .ok (⟨i, none, some w.channel, [aodsAodcMsg enAodsAodcActv (activeOf i).bytes], [], w.built,
          .empty, w.deploy, [], []⟩, []) := by
    simp only [step, hbuild, bind, Except.bind]
  have hactv := aodc.active_module.handle_actv inet w.name w.aods (activeOf_packed hi) hpeer w.peer
    w.known [] rands
  have h4 : step inet
      ⟨i, none, some w.channel, [aodsAodcMsg enAodsAodcActv (activeOf i).bytes], [],
        w.built, .empty,
        w.deploy, [], []⟩ (.request [] rands) =
        .ok (⟨i, none, some w.channel, [], [], w.asked i rands, .empty, w.deploy,
          [⟨.active, aodc.active_module.activeDoc (activeOf i) (aodc.active_module.ipTexts inet w.ip
            (aodc.active_module.ipAddrs (activeOf i) ((activeOf i).bytes.drop 2 ++ [])))
              (getUuid rands)⟩],
          []⟩, []) := by
    rw [aodc.active_module.actvEvent] at hactv
    simp only [step, hactv, bind, Except.bind]
    rfl
  obtain ⟨ips, hissue⟩ := w.issues (activeOf i) hindex w.ip
    (aodc.active_module.ipAddrs (activeOf i) ((activeOf i).bytes.drop 2 ++ [])) (getUuid rands)
  have hfirst : ∀ u ai, w.built.map_uai.lookup u = some ai → ai.str_channel_name ≠ w.channel := by
    intro u ai hu
    simp [Setting.built, aodc.active_module.State.empty] at hu
  have r0 : Run (step inet) Usual (.start w.deploy) [] (.start w.deploy) := .start
  have r1 := r0.next w.built_usual h1
  have r2 := r1.next (e := Event.launch w.uc_index) trivial h2
  have r3 := r2.next (e := Event.connect w.channel rd_serial ifaddrs) ⟨w.name, hfirst⟩ h3
  have r4 := r3.next (e := Event.request [] rands) trivial h4
  exact ⟨_, i, ips, _, hi, r4, hissue⟩

theorem auth_handle_activeAck (s : aodc.auth_module.State) (uuid : CJson) (rid : Bytes) :
    aodc.auth_module.handle s (.rcvfkafka (some (activeAck uuid rid))) = .ok (s, []) := by
  have hname : sameName (text "active_ack") (text "auth_ack") = false := by decide
  have hnone : (activeAck uuid rid).getObjectItem "auth_ack" = none := by
    simp [activeAck, obj, CJson.getObjectItem, hname]
  simp only [aodc.auth_module.handle, aodc.auth_module.onRecvFromKafka, hnone]

/-- What aodc sends to install of an activation that succeeded. -/
def success (rid : Arr 6) (serial : Bytes) : Bytes :=
  aodsAodcMsg enAodcAodsActv (enActSuccess :: (rid.1 ++ codeOf rid serial))

theorem sentTo_onActiveSucc (channel : Bytes) (rid : Arr 6) (serial : Bytes) :
    sentTo (some channel)
      (aodc.active_module.onActiveSucc channel (rid.1 ++ serial) ++ [.channel_free channel]) =
      [success rid serial] := by
  have htake : (rid.1 ++ serial).take enResIdLen = rid.1 := by
    rw [← show rid.1.length = enResIdLen from rid.2]
    exact List.take_left ..
  simp only [aodc.active_module.onActiveSucc, htake, sentTo]
  simp [aodc.active_module.reportActiveSuc, aodc.active_module.rspActiveSuc, codeOf, success]

theorem Setting.handle_answer (w : Setting inet) {i : Install} (hi : i.Packed) (rands : Bytes) :
    ∃ answered, aodc.active_module.handle inet (w.asked i rands)
        (.rcvfkafka (some (activeAck (.string (getUuid rands)) (getHexString w.rid.1)))) =
      .ok (answered, aodc.active_module.onActiveSucc w.channel (w.rid.1 ++ i.uc_rd_serial) ++
        [.channel_free w.channel]) := by
  have hai : (w.asked i rands).map_uai.lookup (getUuid rands) =
      some ⟨w.channel, List.replicate 6 0 ++ i.uc_rd_serial⟩ :=
    find_insert_some.mpr (Or.inl ⟨rfl, rfl⟩)
  have hcu : (w.asked i rands).map_cu.lookup w.channel = some (getUuid rands) :=
    find_insert_some.mpr (Or.inl ⟨rfl, rfl⟩)
  have hids : (List.replicate 6 0 ++ i.uc_rd_serial).length = enActCodeLen := by
    rw [List.length_append, hi.rd_serial]
    rfl
  have hack :=
    aodc.active_module.handle_activeAck inet (zero_notMem_getUuid rands) hai hcu hids w.rid.2
  have hdrop : (List.replicate 6 0 ++ i.uc_rd_serial).drop enResIdLen = i.uc_rd_serial := rfl
  rw [hdrop] at hack
  exact ⟨_, hack⟩

/-- The activation comes to its end: the file has what the control is told. -/
theorem Setting.completes (w : Setting inet) (rd_serial : Arr 14)
    (ifaddrs : Option (List (Option (Arr 4)))) (rands : Bytes) :
    ∃ es n i, Run (activation.step inet) Usual (.start w.deploy) es n ∧ i.Packed ∧
      n.file = some (saveActive i w.rid.1 (codeOf w.rid i.uc_rd_serial)) ∧ n.auth = .empty ∧
      n.deploy_u =
        [⟨.active, activeSuc (getHexString w.rid.1)
          (getHexString (codeOf w.rid i.uc_rd_serial))⟩] := by
  obtain ⟨es, i, ips, doc, hi, r4, hissue⟩ := w.requests rd_serial ifaddrs rands
  obtain ⟨answered, hack⟩ := w.handle_answer hi rands
  generalize w.asked i rands = asked at r4 hack
  generalize hentered :
    ({ w.deploy with srvs := w.deploy.srvs.insert (getHexString w.rid.1) ⟨ips, ips, none⟩ } :
    DeployCtrl) = entered at hissue
  have h5 : step inet
      ⟨i, none, some w.channel, [], [], asked, .empty, w.deploy, [⟨.active, doc⟩], []⟩
      (.consume [w.draw]) =
        .ok (⟨i, none, some w.channel, [], [], asked, .empty, entered, [],
          [activeAck (.string (getUuid rands)) (getHexString w.rid.1)]⟩,
          [activeAck (.string (getUuid rands)) (getHexString w.rid.1)]) := by
    simp only [step, hissue, List.nil_append]
  have h6 : step inet
      ⟨i, none, some w.channel, [], [], asked, .empty, entered, [],
        [activeAck (.string (getUuid rands)) (getHexString w.rid.1)]⟩ .answer =
        .ok (⟨i, none, some w.channel, [], [success w.rid i.uc_rd_serial], answered,
          .empty, entered,
          [⟨.active,
            activeSuc (getHexString w.rid.1) (getHexString (codeOf w.rid i.uc_rd_serial))⟩],
          []⟩, []) := by
    simp only [step, hack, auth_handle_activeAck, sentTo_onActiveSucc, posted_activeSucc, bind,
      Except.bind, List.nil_append]
  have hsave := onRecvChannelData_actv i enActSuccess (w.rid.1 ++ codeOf w.rid i.uc_rd_serial)
  rw [if_pos rfl, activeSuccess_suc i w.rid.2 (length_codeOf w.rid hi.rd_serial)] at hsave
  have h7 : step inet
      ⟨i, none, some w.channel, [], [success w.rid i.uc_rd_serial], answered, .empty, entered,
        [⟨.active, activeSuc (getHexString w.rid.1) (getHexString (codeOf w.rid i.uc_rd_serial))⟩],
        []⟩ .receive =
        .ok (⟨{ i with b_actived := true },
          some (saveActive i w.rid.1 (codeOf w.rid i.uc_rd_serial)), some w.channel,
          [], [], answered, .empty, entered,
          [⟨.active,
            activeSuc (getHexString w.rid.1) (getHexString (codeOf w.rid i.uc_rd_serial))⟩],
          []⟩, []) := by
    simp only [step, success, hsave, bind, Except.bind]
    rfl
  have r5 := r4.next (e := Event.consume [w.draw]) trivial h5
  have r6 := r5.next (e := Event.answer) trivial h6
  have r7 := r6.next (e := Event.receive) trivial h7
  exact ⟨_, _, i, r7, hi, rfl, rfl, rfl⟩

/-- Then aods authenticates on a channel, and the control has read what it was told before. -/
theorem Setting.authenticates (w : Setting inet) (rd_serial : Arr 14)
    (ifaddrs : Option (List (Option (Arr 4)))) (rands : Bytes) {channel : Bytes}
    (hname : 0 ∉ channel) (haods : isAods channel = true) (addrs : List (Option (Arr 4))) :
    ∃ es n a, Run (activation.step inet) Usual (.start w.deploy) es n ∧
      onAuthen n.file (some addrs) = .ok (some a) ∧
      n.auth = aodc.auth_module.State.empty.bind channel a ∧
      n.deploy_u = [⟨.aods, auth (aodc.auth_module.ridOf a) (getHexString a.uc_act_code)⟩] := by
  obtain ⟨es, n, i, hrun, hi, hfile, hauth, hposted⟩ := w.completes rd_serial ifaddrs rands
  have hsound := Sound.run hrun
  have hcode := length_codeOf w.rid hi.rd_serial
  obtain ⟨a, hread⟩ : ∃ a, onAuthen n.file (some addrs) = .ok (some a) := by
    rw [hfile]
    rcases onAuthen_saveActive hi w.rid.2 hcode (some addrs) with ⟨hnone, _⟩ | ⟨num, ips, _, hs⟩
    · cases hnone
    · exact ⟨_, hs⟩
  obtain ⟨hp, hv, _⟩ := hsound.authen hread
  have hunbound : n.auth.Unbound (aodc.auth_module.ridOf a) := by
    rw [hauth]
    simp [aodc.auth_module.State.Unbound, aodc.auth_module.State.empty,
      aodc.auth_module.AuthInfo.blank]
  have hbind := aodc.auth_module.handle_auth (authOf_authenMsg hname haods hp hv [] false) hunbound
  have h8 : activation.step inet n (.authen channel [] false (some addrs)) =
      .ok ({ n with
        auth := n.auth.bind channel a,
        deploy_u := n.deploy_u ++
          [⟨.aods, auth (aodc.auth_module.ridOf a) (getHexString a.uc_act_code)⟩] }, []) := by
    simp only [activation.step, hread, hbind, bind, Except.bind]
    rfl
  have r8 := hrun.next (e := Event.authen channel [] false (some addrs)) ⟨hname, haods⟩ h8
  rw [hposted] at r8
  have r9 := r8.next (e := Event.consume []) trivial rfl
  exact ⟨_, _, a, r9, hread, by rw [← hauth], rfl⟩

/-! ## One server -/

def oneInet : aodc.active_module.Inet := ⟨fun _ => 16843009, fun _ => text "1.1.1.1"⟩

/-- The first server of the first segment. -/
def oneSetting : Setting oneInet where
  deploy := init 1 ∅
  uc_index := 1
  mine := rfl
  channel := text "AodsServer:0000000000000001"
  name := by decide
  aods := by decide
  local_addr := text "1.1.1.2:6"
  peer_addr := text "1.1.1.1:5"
  local_text := by decide
  peer_text := by decide
  ip := 16843009
  peer := rfl
  known := by decide
  draw := ⟨[1, 2, 3, 4, 5], by decide⟩
  new := find_empty _

def serial : Arr 14 := ⟨List.replicate 14 9, rfl⟩

def firstChannel : Bytes := text "AodsServer:0000000000000002"

def secondChannel : Bytes := text "AodsServer:0000000000000003"

/-! ## The laws -/

/-- What install saved is what the control stores. The AUTH message that aods builds from the
file passes the check of aodc. Where no channel is bound to its resource id it is
forwarded with the code that the control keeps, and when the control reads what was
forwarded, it has stored just that code and answers 0, whatever else it keeps of its servers. -/
theorem a_saved_activation_is_stored_and_answered_by_zero {deploy : DeployCtrl}
    {es : List (Event × List CJson)} {n : World}
    (h : Run (activation.step inet) Usual (.start deploy) es n) :
    (∀ file addrs, n.file = some file → ∃ a, onAuthen (some file) (some addrs) = .ok (some a)) ∧
    (∀ ifaddrs a, onAuthen n.file ifaddrs = .ok (some a) →
      aodc.auth_module.locallyValid a = true ∧
      Kept n.deploy n.deploy_u (aodc.auth_module.ridOf a) (getHexString a.uc_act_code) ∧
      ∀ channel behind alike, 0 ∉ channel → isAods channel = true →
        n.auth.Unbound (aodc.auth_module.ridOf a) →
        ∃ auth os, aodc.auth_module.handle n.auth (authenMsg channel a behind alike) =
          .ok (auth, os) ∧
          posted .aods os = [⟨.aods,
            py.deploy_ctrl.auth (aodc.auth_module.ridOf a) (getHexString a.uc_act_code)⟩]) ∧
    (∀ p rest, n.deploy_u = p :: rest → p.sender = .aods →
      ∃ rid active_code, p.doc = auth rid active_code ∧ stored n.deploy rid = some active_code ∧
        (∀ draws, onConsume n.deploy p.doc draws = (n.deploy, [authAck rid 0])) ∧
        ∀ dc draws, py.deploy_db.DeployCtrl.base dc = n.deploy →
          py.deploy_db.docs (py.deploy_db.onConsume dc p.doc draws).2 = [authAck rid 0]) := by
  have hsound := Sound.run h
  refine ⟨fun file addrs hfile => ?_, fun ifaddrs a hread => ?_, fun p rest hdocs haods => ?_⟩
  · obtain ⟨i, hi, rid, rfl, _⟩ := hsound.saved file hfile
    have hcode := length_codeOf rid hi.rd_serial
    rcases onAuthen_saveActive hi rid.2 hcode (some addrs) with ⟨hnone, _⟩ | ⟨num, ips, _, hs⟩
    · cases hnone
    · exact ⟨_, hs⟩
  · obtain ⟨hp, hv, rid, serial, hrid, hcode, hact⟩ := hsound.authen hread
    refine ⟨hv, ?_, fun channel behind alike hname haods hunbound => ?_⟩
    · rw [aodc.auth_module.ridOf, hrid, hcode]
      exact hact
    · have hauth := authOf_authenMsg hname haods hp hv behind alike
      exact ⟨_, _, aodc.auth_module.handle_auth hauth hunbound, rfl⟩
  · obtain ⟨rid, serial, hdoc, hmine, hkept⟩ := hsound.backed [] p (by rw [hdocs]; simp) haods
    have hstored : stored n.deploy (getHexString rid.1) =
        some (getHexString (codeOf rid serial)) := by
      rcases hkept with hstored | ⟨q, hq, _⟩
      · exact hstored
      · cases hq
    have hzero : ∀ draws, onConsume n.deploy p.doc draws =
        (n.deploy, [authAck (getHexString rid.1) 0]) := by
      intro draws
      have hcoded : ∀ srv, n.deploy.srvs.lookup (getHexString rid.1) = some srv →
          srv.active_code ≠ none := by
        intro srv hsrv hnone
        simp [stored, hsrv, hnone] at hstored
      have hsent : aodc.auth_module.reportAuthenMsg (codeOf rid serial) (getHexString rid.1) =
          .snd2kafka (auth (getHexString rid.1) (getHexString (codeOf rid serial))) := rfl
      have hanswer := aodc.auth_grants.dealAuthen_answer hmine hcoded draws hsent
      rw [aodc.auth_grants.answer, if_pos hstored] at hanswer
      rw [hdoc]
      exact hanswer
    refine ⟨_, _, hdoc, hstored, hzero, fun dc draws hbase => ?_⟩
    have hfull := py.deploy_db.onConsume_base dc (Or.inr (Or.inr rfl)) (obj [("active_code",
      .string (getHexString (codeOf rid serial))), ("rid", .string (getHexString rid.1))]) draws
    rw [hbase] at hfull
    have hcodes := hzero draws
    rw [hdoc] at hcodes ⊢
    exact (congrArg Prod.snd (hfull.symm.trans hcodes))

theorem the_first_server_is_answered_by_zero : ∃ es n p rid active_code,
    Run (activation.step oneInet) Usual (.start (init 1 ∅)) es n ∧ n.deploy_u = [p] ∧
      p.sender = .aods ∧ p.doc = auth rid active_code ∧ stored n.deploy rid = some active_code ∧
      ∀ draws, onConsume n.deploy p.doc draws = (n.deploy, [authAck rid 0]) := by
  have hname : 0 ∉ firstChannel := by decide
  have haods : isAods firstChannel = true := by decide
  obtain ⟨es, n, a, hrun, _, _, hdocs⟩ :=
    oneSetting.authenticates serial (some []) [] hname haods []
  obtain ⟨rid, code, hdoc, hstored, hzero, _⟩ :=
    (a_saved_activation_is_stored_and_answered_by_zero hrun).2.2 _ [] hdocs rfl
  exact ⟨es, n, _, rid, code, hrun, hdocs, rfl, hdoc, hstored, hzero⟩

/-- A server that has authenticated on one channel is not reported on a second one while
the first is bound. -/
theorem a_server_that_is_bound_is_not_reported_again : ∃ es n a os,
    Run (activation.step oneInet) Usual (.start (init 1 ∅)) es n ∧
      onAuthen n.file (some []) = .ok (some a) ∧
      aodc.auth_module.handle n.auth (authenMsg secondChannel a [] false) = .ok (n.auth, os) ∧
      posted .aods os = [] := by
  have hname : 0 ∉ firstChannel := by decide
  have haods : isAods firstChannel = true := by decide
  have hname' : 0 ∉ secondChannel := by decide
  have haods' : isAods secondChannel = true := by decide
  obtain ⟨es, n, a, hrun, hread, hauth, _⟩ :=
    oneSetting.authenticates serial (some []) [] hname haods []
  obtain ⟨hp, hv, _⟩ := (Sound.run hrun).authen hread
  have hbound : ¬ n.auth.Unbound (aodc.auth_module.ridOf a) := by
    rw [hauth]
    simp [aodc.auth_module.State.Unbound, aodc.auth_module.State.bind, firstChannel, text]
  obtain ⟨alike, hs⟩ := aodc.auth_module.handle_valid
    (authOf_authenMsg hname' haods' hp hv [] false) n.auth
  obtain ⟨hsame, hplain⟩ := aodc.auth_module.judge_bound hbound secondChannel alike
  refine ⟨es, n, a, (n.auth.judge secondChannel a alike).2, hrun, hread, ?_, posted_plain hplain _⟩
  rw [hs]
  exact congrArg Except.ok (Prod.ext hsame rfl)

end activated_servers
