-- The authentication module and the deploy control behind its topics: each report
-- asks for an answer, the answers come in the order of the reports, and between a
-- report and its answer channels may go and others come. An answer names the
-- resource id alone, and it goes to the channel that is bound when it comes.
import Aods.AuthBindings
import Aods.DeployCtrl

open machine runs std_map
open util.helper util.json msg_def
open aodc.auth_module aodc.auth_bindings
open py.deploy_ctrl

namespace aodc.auth_grants

/-- What a report asks: is this the code of this resource id? -/
structure Request where
  rid : Bytes
  active_code : Bytes
  deriving DecidableEq, Repr

/-- The request that the deploy control reads from what the module sends out. -/
def requestOf : Out → Option Request
  | .snd2kafka doc =>
    match dictGet doc "auth" with
    | none => none
    | some value =>
      match getText value "rid", getText value "active_code" with
      | some rid, some active_code => some ⟨rid, active_code⟩
      | _, _ => none
  | _ => none

/-- The answer to a request: 0 when the code is the one that is stored. -/
def answer (stored : Bytes → Option Bytes) (q : Request) : CJson :=
  authAck q.rid (if stored q.rid = some q.active_code then 0 else 1)

/-- The module, and the requests that are not answered yet, the oldest first. -/
structure Net where
  auth : State
  asked : List Request

def Net.empty : Net := ⟨State.empty, []⟩

inductive NetEvent where
  | event (e : Event)
  | ack

def netHandle (stored : Bytes → Option Bytes) : Handler Net NetEvent Out Fault
  | n, .event e => do
    let (s, os) ← handle n.auth e
    .ok (⟨s, n.asked ++ os.filterMap requestOf⟩, os)
  | n, .ack =>
    match n.asked with
    | [] => .ok (n, [])
    | q :: rest => do
      let (s, os) ← handle n.auth (.rcvfkafka (some (answer stored q)))
      .ok (⟨s, rest⟩, os)

variable {stored : Bytes → Option Bytes}

/-- An answer comes from the deploy control alone. -/
def FromControl : NetEvent → Prop
  | .event e => ¬ IsAck e
  | .ack => True

/-- No AUTH message binds a resource id with a code of its own while the stored code of
that resource id waits for its answer. -/
def NoneWaits (stored : Bytes → Option Bytes) (n : Net) : NetEvent → Prop
  | .event e => ∀ c a q, authOf e = some (c, a) → n.auth.Unbound (ridOf a) → q ∈ n.asked →
      q.rid = ridOf a → stored q.rid = some q.active_code →
        q.active_code = getHexString a.uc_act_code
  | .ack => True

def Timely (stored : Bytes → Option Bytes) (_ : List (NetEvent × List Out)) (n : Net)
    (e : NetEvent) : Prop := FromControl e ∧ NoneWaits stored n e

def Honest (_ : List (NetEvent × List Out)) (_ : Net) (e : NetEvent) : Prop := FromControl e

/-- The entry of a history in which an AUTH message of a channel was forwarded. -/
def Asked (rid channel : Bytes) (a : AodsAodcAuthen) (x : NetEvent × List Out) : Prop :=
  ∃ e, x.1 = .event e ∧ Forwarded rid channel a (e, x.2)

/-- The last code that was forwarded for a resource id is the channel's own, and it is the
stored one. -/
def Vouched (stored : Bytes → Option Bytes) (rid channel : Bytes)
    (es : List (NetEvent × List Out)) :
    Prop :=
  Since (fun x => ∃ a, Asked rid channel a x ∧ stored rid = some (getHexString a.uc_act_code))
    (fun x => ∃ c a, Asked rid c a x) es

/-- The resource id and the channel that a broadcast says are authenticated. -/
def grantOf : Out → Option (Bytes × Bytes)
  | .auth_suc data => some (cstr data, cstr (pastCstr data))
  | _ => none

/-! ## Requests and answers -/

theorem requestOf_report (code rid : Bytes) :
    requestOf (reportAuthenMsg code rid) = some ⟨rid, getHexString code⟩ := by
  simp [requestOf, reportAuthenMsg, getText, dictGet, obj, text]

theorem requestOf_other {o : Out} (h : Plain o ∨ ∃ r c, o = authSuc r c) : requestOf o = none := by
  rcases h with (⟨_, _, rfl⟩ | ⟨_, rfl⟩) | ⟨_, _, rfl⟩ <;> rfl

theorem filterMap_requestOf_other {os : List Out} (h : ∀ o ∈ os, Plain o ∨ ∃ r c, o = authSuc r c) :
    os.filterMap requestOf = [] :=
  List.filterMap_eq_nil_iff.mpr (fun o ho => requestOf_other (h o ho))

/-- `__dealAuthen` gives the answer, for its own servers once they have a code. -/
theorem dealAuthen_answer {dc : DeployCtrl} {code rid : Bytes} (hmine : rid.take 2 = dc.index)
    (hcoded : ∀ srv, dc.srvs.lookup rid = some srv → srv.active_code ≠ none) (draws : List Draw)
    {doc : CJson} (hdoc : reportAuthenMsg code rid = .snd2kafka doc) :
    onConsume dc doc draws =
      (dc, [answer (py.deploy_ctrl.stored dc) ⟨rid, getHexString code⟩]) := by
  simp only [reportAuthenMsg, Out.snd2kafka.injEq] at hdoc
  subst hdoc
  have hauth : ∀ v, onConsume dc (obj [("auth", v)]) draws = (dc, dealAuthen dc v) := by
    intro v
    simp [onConsume, dictGet, obj, text]
  rw [hauth]
  have hrid : getText (obj [("active_code", .string (getHexString code)), ("rid", .string rid)])
      "rid" = some rid := by simp [getText, dictGet, obj, text]
  have hcode : getText (obj [("active_code", .string (getHexString code)), ("rid", .string rid)])
      "active_code" = some (getHexString code) := by simp [getText, dictGet, obj, text]
  cases hsrv : dc.srvs.lookup rid with
  | none => simp [dealAuthen, hrid, hmine, hsrv, answer, py.deploy_ctrl.stored]
  | some srv =>
    obtain ⟨active_code, hac⟩ := Option.ne_none_iff_exists'.mp (hcoded srv hsrv)
    have hstored : py.deploy_ctrl.stored dc rid = some active_code := by
      simp [py.deploy_ctrl.stored, hsrv, hac]
    rw [dealAuthen_stored hrid hmine hstored, hcode, answer, hstored]
    simp only [Option.some.injEq, eq_comm]

theorem grantOf_authSuc {rid c : Bytes} (hrid : 0 ∉ rid) (hc : 0 ∉ c) :
    grantOf (authSuc rid c) = some (rid, c) := by
  have hdata : names [rid, c] = rid ++ 0 :: (c ++ 0 :: []) := by simp [names]
  rw [authSuc, grantOf, hdata, cstr_append hrid, pastCstr_append hrid, cstr_append hc]

/-- What the module sends out on an answer. -/
def replies (stored : Bytes → Option Bytes) (s : State) (q : Request) : List Out :=
  match s.map_rc.lookup q.rid with
  | none => []
  | some ai =>
    if stored q.rid = some q.active_code then
      [authSuc q.rid ai.str_channel_name, authResult ai.str_channel_name 0]
    else [authResult ai.str_channel_name 1]

theorem handle_answer {q : Request} (hq : 0 ∉ q.rid) (s : State) :
    handle s (.rcvfkafka (some (answer stored q))) = .ok (s, replies stored s q) := by
  have hcstr := cstr_of_notMem hq
  have hack : ∀ k : Int, (authAck q.rid k).getObjectItem "auth_ack" =
      some (obj [("rid", .string q.rid), ("ack", .number k)]) := by
    intro k
    simp [authAck, obj, CJson.getObjectItem, sameName]
  have hrid : ∀ k : Int, (obj [("rid", .string q.rid), ("ack", .number k)]).getMember "rid" =
      .ok (.string q.rid) := by
    intro k
    simp [obj, CJson.getMember, CJson.getObjectItem, sameName]
  have hval : ∀ k : Int, (obj [("rid", .string q.rid), ("ack", .number k)]).getMember "ack" =
      .ok (.number k) := by
    intro k
    have hne : sameName (text "rid") (text "ack") = false := by decide
    have heq : sameName (text "ack") (text "ack") = true := by decide
    simp [obj, CJson.getMember, CJson.getObjectItem, hne, heq]
  have hone : uchar 1 = 1 := rfl
  have hzero : uchar 0 = 0 := rfl
  simp only [handle, onRecvFromKafka, answer, hack, hrid, CJson.valuestring, hcstr, replies, bind,
    Except.bind, hval]
  cases s.map_rc.lookup q.rid with
  | none => rfl
  | some ai =>
    by_cases hs : stored q.rid = some q.active_code
    · simp [hs, CJson.valueint, hzero]
    · simp [hs, CJson.valueint, hone]

/-! ## What a step of the two can do -/

theorem netHandle_event {n n' : Net} {e : Event} {os : List Out}
    (h : netHandle stored n (.event e) = .ok (n', os)) :
    ∃ s, handle n.auth e = .ok (s, os) ∧ n' = ⟨s, n.asked ++ os.filterMap requestOf⟩ := by
  obtain ⟨⟨s, os'⟩, hs, h⟩ := bind_ok h
  cases h
  exact ⟨s, hs, rfl⟩

theorem netHandle_of_event {n : Net} {e : Event} {s : State} {os : List Out}
    (h : handle n.auth e = .ok (s, os)) :
    netHandle stored n (.event e) = .ok (⟨s, n.asked ++ os.filterMap requestOf⟩, os) := by
  simp only [netHandle, h]
  rfl

theorem netHandle_ack {s : State} {q : Request} (hq : 0 ∉ q.rid) (rest : List Request) :
    netHandle stored ⟨s, q :: rest⟩ .ack = .ok (⟨s, rest⟩, replies stored s q) := by
  simp only [netHandle, handle_answer hq]
  rfl

theorem not_asked_ack {rid c : Bytes} {a : AodsAodcAuthen} {os : List Out} :
    ¬ Asked rid c a (.ack, os) := by
  rintro ⟨_, he, _⟩
  cases he

theorem asked_event {rid c : Bytes} {a : AodsAodcAuthen} {e : Event} {os : List Out} :
    Asked rid c a (.event e, os) ↔ Forwarded rid c a (e, os) := by
  constructor
  · rintro ⟨_, he, hf⟩
    cases he
    exact hf
  · intro hf
    exact ⟨e, rfl, hf⟩

/-- What no event of another kind than an AUTH message that binds asks for stays vouched. -/
theorem Vouched.cons {rid c : Bytes} {es : List (NetEvent × List Out)} {x : NetEvent × List Out}
    (h : Vouched stored rid c es) (hx : ∀ c a, ¬ Asked rid c a x) :
    Vouched stored rid c (x :: es) := by
  refine since_cons.mpr (Or.inr ⟨?_, h⟩)
  rintro ⟨c', a, ha⟩
  exact hx c' a ha

theorem Vouched.channel {rid c : Bytes} {es : List (NetEvent × List Out)}
    (h : Vouched stored rid c es) : 0 ∉ c := by
  obtain ⟨x, _, a, ⟨e, _, hf, _⟩, _⟩ := h.once
  obtain ⟨_, _, _, _, _, hname, _⟩ := authOf_some hf
  exact (channelName_ok hname).1

/-- What holds of the module and its unanswered requests along a run: a stored code that
waits for its answer is the one that its channel presented. -/
structure Sound (stored : Bytes → Option Bytes) (es : List (NetEvent × List Out)) (n : Net) :
    Prop where
  good : Good n.auth
  rids : ∀ q ∈ n.asked, 0 ∉ q.rid
  vouched : ∀ {q ai}, q ∈ n.asked → n.auth.map_rc.lookup q.rid = some ai →
    stored q.rid = some q.active_code → Vouched stored q.rid ai.str_channel_name es

theorem Sound.empty : Sound stored [] Net.empty where
  good := .empty
  rids := by simp [Net.empty]
  vouched hq := by simp [Net.empty] at hq

theorem Sound.replies {es : List (NetEvent × List Out)} {n : Net} (h : Sound stored es n)
    {q : Request} (hq : q ∈ n.asked) {o : Out} (ho : o ∈ replies stored n.auth q) {rid c : Bytes}
    (hg : grantOf o = some (rid, c)) : Vouched stored rid c es := by
  unfold auth_grants.replies at ho
  cases hrc : n.auth.map_rc.lookup q.rid with
  | none =>
    rw [hrc] at ho
    cases ho
  | some ai =>
    rw [hrc] at ho
    dsimp only at ho
    split at ho
    · rename_i hstored
      have hv := h.vouched hq hrc hstored
      rcases List.mem_cons.mp ho with rfl | ho
      · rw [grantOf_authSuc (h.rids q hq) hv.channel] at hg
        cases hg
        exact hv
      · rw [List.mem_singleton.mp ho] at hg
        cases hg
    · rw [List.mem_singleton.mp ho] at hg
      cases hg

theorem Sound.ack {es : List (NetEvent × List Out)} {s : State} {q : Request} {rest : List Request}
    (h : Sound stored es ⟨s, q :: rest⟩) (os : List Out) :
    Sound stored ((.ack, os) :: es) ⟨s, rest⟩ where
  good := h.good
  rids q' hq' := h.rids q' (List.mem_cons_of_mem q hq')
  vouched hq' hrc hstored :=
    (h.vouched (List.mem_cons_of_mem q hq') hrc hstored).cons (fun _ _ => not_asked_ack)

/-- What is vouched for and bound stays vouched over an event that leaves its entry. -/
theorem Sound.vouched_cons {es : List (NetEvent × List Out)} {n : Net} {e : Event} {s : State}
    {os : List Out} (h : Sound stored es n) (hs : handle n.auth e = .ok (s, os)) {q : Request}
    (hq : q ∈ n.asked) {ai : AuthInfo} (hrc : n.auth.map_rc.lookup q.rid = some ai)
    (hstored : stored q.rid = some q.active_code) :
    Vouched stored q.rid ai.str_channel_name ((.event e, os) :: es) := by
  apply (h.vouched hq hrc hstored).cons
  intro c a ha
  refine not_forwarded hs (fun hu => ?_) (asked_event.mp ha)
  rw [(h.good.unbound_iff _).mp hu] at hrc
  cases hrc

theorem Sound.bind {es : List (NetEvent × List Out)} {n : Net} {e : Event} {c : Bytes}
    {a : AodsAodcAuthen} (h : Sound stored es n) (ht : NoneWaits stored n (.event e))
    (hauth : authOf e = some (c, a)) (hu : n.auth.Unbound (ridOf a)) :
    Sound stored ((.event e, [reportAuthenMsg a.uc_act_code (ridOf a)]) :: es)
      ⟨n.auth.bind c a, n.asked ++ [⟨ridOf a, getHexString a.uc_act_code⟩]⟩ where
  good := h.good.bind (isAods_ne_nil (authOf_some hauth).1) hu
  rids q hq := by
    rcases List.mem_append.mp hq with hq | hq
    · exact h.rids q hq
    · rw [List.mem_singleton.mp hq]
      exact zero_notMem_getHexString _
  vouched {q ai} hq hrc hstored := by
    rw [bind_rc] at hrc
    by_cases hrid : q.rid = ridOf a
    · rw [if_pos hrid] at hrc
      cases hrc
      -- the code that is stored is the one that was presented now
      have hcode : q.active_code = getHexString a.uc_act_code := by
        rcases List.mem_append.mp hq with hq | hq
        · exact ht c a q hauth hu hq hrid hstored
        · rw [List.mem_singleton.mp hq]
      refine since_cons.mpr (Or.inl ⟨a, asked_event.mpr ⟨hauth, hrid.symm, ?_⟩, ?_⟩)
      · rw [hrid]
      · rw [hstored, hcode]
    · rw [if_neg hrid] at hrc
      have hold : q ∈ n.asked := by
        rcases List.mem_append.mp hq with hq | hq
        · exact hq
        · exact absurd (congrArg Request.rid (List.mem_singleton.mp hq)) hrid
      exact h.vouched_cons (handle_auth hauth hu) hold hrc hstored

theorem Sound.event {es : List (NetEvent × List Out)} {n : Net} {e : Event} {s : State}
    {os : List Out} (h : Sound stored es n) (ht : NoneWaits stored n (.event e))
    (hs : handle n.auth e = .ok (s, os)) :
    Sound stored ((.event e, os) :: es) ⟨s, n.asked ++ os.filterMap requestOf⟩ := by
  have hgood := h.good.step hs
  rcases handle_cases hs with ⟨c, a, hauth, hu, rfl, rfl⟩ | ⟨c, _, _, rfl, rfl⟩ |
    ⟨_, rfl, _, hquiet⟩
  · rw [List.filterMap_cons, requestOf_report]
    exact h.bind ht hauth hu
  · rw [List.filterMap_nil, List.append_nil]
    exact ⟨hgood, h.rids, fun hq hrc hstored => h.vouched_cons hs hq (drop_rc_some hrc).1 hstored⟩
  · have hnone := filterMap_requestOf_other
      (fun o ho => (hquiet o ho).imp id (fun ⟨_, r, ai, _, heq⟩ => ⟨r, _, heq⟩))
    rw [hnone, List.append_nil]
    exact ⟨hgood, h.rids, fun hq hrc hstored => h.vouched_cons hs hq hrc hstored⟩

theorem event_grants_nothing {s s' : State} {e : Event} {os : List Out} (hack : ¬ IsAck e)
    (hs : handle s e = .ok (s', os)) {o : Out} (ho : o ∈ os) : grantOf o = none := by
  rcases handle_cases hs with ⟨_, _, _, _, _, rfl⟩ | ⟨_, _, _, _, rfl⟩ | ⟨_, _, _, hquiet⟩
  · rw [List.mem_singleton.mp ho]
    rfl
  · cases ho
  · rcases hquiet o ho with (⟨_, _, rfl⟩ | ⟨_, rfl⟩) | ⟨h, _⟩
    · rfl
    · rfl
    · exact absurd h hack

/-- A step that meets the condition keeps the invariant and grants what is vouched for. -/
theorem Sound.step {es : List (NetEvent × List Out)} {n n' : Net} {e : NetEvent} {os : List Out}
    (h : Sound stored es n) (ht : Timely stored es n e) (hs : netHandle stored n e = .ok (n', os)) :
    Sound stored ((e, os) :: es) n' ∧
      ∀ o ∈ os, ∀ rid c, grantOf o = some (rid, c) → Vouched stored rid c es := by
  obtain ⟨hfrom, hnone⟩ := ht
  cases e with
  | event e =>
    obtain ⟨s, hauth, rfl⟩ := netHandle_event hs
    refine ⟨h.event hnone hauth, fun o ho rid c hg => ?_⟩
    rw [event_grants_nothing hfrom hauth ho] at hg
    cases hg
  | ack =>
    obtain ⟨s, asked⟩ := n
    cases asked with
    | nil =>
      cases hs
      exact ⟨⟨h.good, h.rids, fun hq => by cases hq⟩, by simp⟩
    | cons q rest =>
      rw [netHandle_ack (h.rids q List.mem_cons_self)] at hs
      cases hs
      exact ⟨h.ack _, fun o ho rid c hg => h.replies List.mem_cons_self ho hg⟩

theorem Sound.run {es : List (NetEvent × List Out)} {n : Net}
    (h : Run (netHandle stored) (Timely stored) Net.empty es n) : Sound stored es n := by
  apply h.invariant (I := Sound stored) Sound.empty
  intro es n e n' os hsound ht hs
  exact (hsound.step ht hs).1

theorem grants_vouched {es : List (NetEvent × List Out)} {n : Net}
    (h : Run (netHandle stored) (Timely stored) Net.empty es n)
    {newer older : List (NetEvent × List Out)} {x : NetEvent × List Out}
    (he : es = newer ++ x :: older) {o : Out} (ho : o ∈ x.2) {rid c : Bytes}
    (hg : grantOf o = some (rid, c)) : Vouched stored rid c older := by
  induction h generalizing newer with
  | start => simp at he
  | @next es n n' e os before ht hs ih =>
    cases newer with
    | nil =>
      obtain ⟨rfl, rfl⟩ := List.cons.inj he
      exact ((Sound.run before).step ht hs).2 o ho rid c hg
    | cons y newer => exact ih (List.cons.inj he).2

/-! ## When a stored code waits -/

/-- The answers to the oldest requests, one after another. -/
theorem answers_in_order {n₀ : Net} {s : State} {rest : List Request} :
    ∀ (asked : List Request) {es : List (NetEvent × List Out)}, (∀ q ∈ asked, 0 ∉ q.rid) →
      Run (netHandle stored) Honest n₀ es ⟨s, asked ++ rest⟩ →
      ∃ acks : List (NetEvent × List Out), (∀ x ∈ acks, x.1 = .ack) ∧
        Run (netHandle stored) Honest n₀ (acks ++ es) ⟨s, rest⟩
  | [], es, _, h => ⟨[], by simp, h⟩
  | q :: asked, es, hrids, h => by
    have hstep : netHandle stored ⟨s, q :: (asked ++ rest)⟩ .ack =
        .ok (⟨s, asked ++ rest⟩, replies stored s q) :=
      netHandle_ack (hrids q List.mem_cons_self) (asked ++ rest)
    obtain ⟨acks, hacks, hrun⟩ := answers_in_order asked
      (fun q' hq' => hrids q' (List.mem_cons_of_mem q hq'))
        (h.next (e := NetEvent.ack) trivial hstep)
    refine ⟨acks ++ [(.ack, replies stored s q)], fun x hx => ?_, by simpa using hrun⟩
    rcases List.mem_append.mp hx with hx | hx
    · exact hacks x hx
    · rw [List.mem_singleton.mp hx]

/-- An AUTH message that binds with a code of its own while the stored code waits: the
answer to that code grants the channel. -/
theorem unvouched_grant {es : List (NetEvent × List Out)} {n : Net} {e : NetEvent}
    (hsound : Sound stored es n) (h : Run (netHandle stored) Honest Net.empty es n)
    (hfrom : FromControl e) (hwaits : ¬ NoneWaits stored n e) :
    ∃ os acks x n' o rid c,
      Run (netHandle stored) Honest Net.empty (x :: (acks ++ (e, os) :: es)) n' ∧ o ∈ x.2 ∧
        grantOf o = some (rid, c) ∧ ¬ Vouched stored rid c (acks ++ (e, os) :: es) := by
  cases e with
  | ack => exact absurd trivial hwaits
  | event e =>
    simp only [NoneWaits, not_forall] at hwaits
    obtain ⟨c, a, q, hauth, hu, hq, hrid, hstored, hne⟩ := hwaits
    obtain ⟨pre, post, hasked⟩ := List.append_of_mem hq
    have hrids : ∀ q ∈ pre, 0 ∉ q.rid := fun q' hq' =>
      hsound.rids q' (by rw [hasked]; exact List.mem_append_left _ hq')
    have hbound := h.next (e := NetEvent.event e) hfrom (netHandle_of_event (handle_auth hauth hu))
    rw [hasked, List.append_assoc] at hbound
    obtain ⟨acks, hacks, hrun⟩ := answers_in_order pre hrids hbound
    have hgrant := hrun.next (e := NetEvent.ack) trivial (netHandle_ack (hsound.rids q hq) _)
    have hc : 0 ∉ c := by
      obtain ⟨_, _, _, _, _, hname, _⟩ := authOf_some hauth
      exact (channelName_ok hname).1
    refine ⟨_, acks, _, _, authSuc q.rid c, q.rid, c, hgrant, ?_,
      grantOf_authSuc (hsound.rids q hq) hc, fun hv => ?_⟩
    · have hrc : (n.auth.bind c a).map_rc.lookup q.rid = some ⟨a.uc_ip_num, c, a.un_ip_addr⟩ := by
        rw [bind_rc, if_pos hrid]
      simp [replies, hrc, hstored]
    · have hnow := hv.of_append (fun x hx => by
        rintro ⟨_, ⟨_, he, _⟩, _⟩
        rw [hacks x hx] at he
        cases he)
      rcases since_cons.mp hnow with ⟨a', ha, hcode⟩ | ⟨hnot, _⟩
      · obtain ⟨hauth', _⟩ := asked_event.mp ha
        rw [hauth] at hauth'
        cases hauth'
        rw [hstored] at hcode
        exact hne (Option.some.inj hcode)
      · exact hnot ⟨c, a, asked_event.mpr ⟨hauth, hrid.symm, by rw [hrid]⟩⟩

/-! ## A server, and a stranger with its resource id -/

def otherClient : Bytes := text "AodsServer2"

def stranger : AodsAodcAuthen :=
  signed 1 (List.replicate 64 10) (List.replicate 6 1) (List.replicate 14 2)

/-- The code of the one server is stored. -/
def oneStored (rid : Bytes) : Option Bytes :=
  if rid = ridOf oneServer then some (getHexString oneServer.uc_act_code) else none

theorem authOf_stranger :
    authOf (authEvent otherClient stranger false) = some (otherClient, stranger) :=
  authOf_signed (by decide) (by decide) rfl rfl rfl false

theorem ridOf_stranger : ridOf stranger = ridOf oneServer := rfl

theorem stranger_not_stored :
    oneStored (ridOf oneServer) ≠ some (getHexString stranger.uc_act_code) := by
  have hcode : oneServer.uc_act_code ≠ stranger.uc_act_code := by
    unfold stranger oneServer signed
    rw [calcActiveCode_eq, calcActiveCode_eq]
    decide
  rw [oneStored, if_pos rfl]
  exact fun h => hcode (getHexString_inj (Option.some.inj h))

/-- What the history of an AUTH message that was forwarded looks like. -/
def asking (c : Bytes) (a : AodsAodcAuthen) : NetEvent × List Out :=
  (.event (authEvent c a false), [reportAuthenMsg a.uc_act_code (ridOf a)])

def requestOfServer (a : AodsAodcAuthen) : Request := ⟨ridOf a, getHexString a.uc_act_code⟩

theorem run_asking : Run (netHandle oneStored) (Timely oneStored) Net.empty
    [asking client oneServer] ⟨State.empty.bind client oneServer, [requestOfServer oneServer]⟩ := by
  have hu : State.empty.Unbound (ridOf oneServer) := (Good.empty.unbound_iff _).mpr (find_empty _)
  refine Run.next (e := NetEvent.event (authEvent client oneServer false)) .start ⟨id, ?_⟩
    (netHandle_of_event (handle_auth authOf_oneServer hu))
  intro c a q _ _ hq
  cases hq

/-! ## The laws -/

/-- While no resource id is bound with another code as long as its stored code waits for an
answer, a grant is of the code that the channel presented. The first such binding ends
that. -/
theorem a_grant_is_of_the_channels_own_code_while_no_stored_code_waits
    {es : List (NetEvent × List Out)} {n : Net}
    (h : Run (netHandle stored) (Timely stored) Net.empty es n) :
    (∀ newer x older, es = newer ++ x :: older → ∀ o ∈ x.2, ∀ rid c,
      grantOf o = some (rid, c) → Vouched stored rid c older) ∧
    (∀ e, FromControl e → ¬ NoneWaits stored n e → ∃ os acks x n' o rid c,
      Run (netHandle stored) Honest Net.empty (x :: (acks ++ (e, os) :: es)) n' ∧ o ∈ x.2 ∧
        grantOf o = some (rid, c) ∧ ¬ Vouched stored rid c (acks ++ (e, os) :: es)) :=
  ⟨fun _ _ _ he _ ho _ _ hg => grants_vouched h he ho hg,
    fun _ hfrom hwaits => unvouched_grant (.run h) (h.mono And.left) hfrom hwaits⟩

theorem one_server_is_granted_with_its_own_code :
    Vouched oneStored (ridOf oneServer) client [asking client oneServer] := by
  have hrid : 0 ∉ (requestOfServer oneServer).rid := zero_notMem_getHexString _
  have hrun := Run.next (e := NetEvent.ack) run_asking ⟨trivial, trivial⟩ (netHandle_ack hrid [])
  refine (a_grant_is_of_the_channels_own_code_while_no_stored_code_waits hrun).1 [] _ _ rfl
    (authSuc (ridOf oneServer) client) ?_ _ _ (grantOf_authSuc hrid zero_notMem_client)
  have hrc : (State.empty.bind client oneServer).map_rc.lookup (requestOfServer oneServer).rid =
      some ⟨1, client, List.replicate 64 10⟩ := by rw [bind_rc]; exact if_pos rfl
  have hstored : oneStored (requestOfServer oneServer).rid =
      some (requestOfServer oneServer).active_code := if_pos rfl
  simp only [replies, hrc, hstored, if_true]
  exact List.mem_cons_self

/-- A server asks and its channel goes before the answer; a stranger binds the resource id
with another code, and the server's answer grants it. -/
theorem a_late_answer_grants_a_stranger : ∃ x es n o,
    Run (netHandle oneStored) Honest Net.empty (x :: es) n ∧ o ∈ x.2 ∧
    grantOf o = some (ridOf oneServer, otherClient) ∧
    ∀ y ∈ es, ∀ a, Asked (ridOf oneServer) otherClient a y →
      oneStored (ridOf oneServer) ≠ some (getHexString a.uc_act_code) := by
  have hrid : 0 ∉ (requestOfServer oneServer).rid := zero_notMem_getHexString _
  have hcr : (State.empty.bind client oneServer).map_cr.lookup client = some (ridOf oneServer) := by
    rw [bind_cr, if_pos rfl]
  have hu : ((State.empty.bind client oneServer).drop client).Unbound (ridOf stranger) := by
    unfold State.Unbound
    rw [drop_rc hcr, if_pos ridOf_stranger]
    rfl
  have hfreed := Run.next (e := NetEvent.event (.freed (client ++ [0]))) (run_asking.mono And.left)
    id (netHandle_of_event (handle_lost lostOf_client _))
  have hasked := Run.next (e := NetEvent.event (authEvent otherClient stranger false)) hfreed id
    (netHandle_of_event (handle_auth authOf_stranger hu))
  have hgrant := Run.next (e := NetEvent.ack) hasked trivial (netHandle_ack hrid _)
  refine ⟨_, _, _, authSuc (ridOf oneServer) otherClient, hgrant, ?_,
    grantOf_authSuc hrid (by decide), fun y hy a ha => ?_⟩
  · have hrc :
        (((State.empty.bind client oneServer).drop client).bind otherClient stranger).map_rc.lookup
        (requestOfServer oneServer).rid = some ⟨1, otherClient, List.replicate 64 10⟩ := by
      rw [bind_rc]
      exact if_pos rfl
    have hstored : oneStored (requestOfServer oneServer).rid =
        some (requestOfServer oneServer).active_code := if_pos rfl
    simp only [replies, hrc, hstored, if_true]
    exact List.mem_cons_self
  · rcases List.mem_cons.mp hy with rfl | hy
    · obtain ⟨hauth, _⟩ := asked_event.mp ha
      rw [authOf_stranger] at hauth
      cases hauth
      exact stranger_not_stored
    rcases List.mem_cons.mp hy with rfl | hy
    · obtain ⟨hauth, _⟩ := asked_event.mp ha
      cases hauth
    · rw [List.mem_singleton.mp hy] at ha
      obtain ⟨hauth, _⟩ := asked_event.mp ha
      rw [authOf_oneServer] at hauth
      have hclient : client ≠ otherClient := by decide
      exact absurd (congrArg Prod.fst (Option.some.inj hauth)) hclient

end aodc.auth_grants
