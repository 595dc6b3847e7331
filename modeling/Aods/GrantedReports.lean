-- The two modules of aodc that stand between a server and its updates, each in a thread of its own:
-- what the authentication module broadcasts is on its way until the update module takes it, and
-- each hears of data and of lost channels in its own time. The law says that a channel reports and
-- is updated for a server only if it presented the code that the deploy control has stored for that
-- server.
import Aods.AuthGrants
import Aods.UpdateRouting

open machine runs std_map
open util.json msg_def
open aodc.auth_grants (Net NetEvent netHandle Timely Vouched grants_vouched)
open aodc.update_routing (Granted Authed cuo_authed ruo_granted)

namespace aodc.granted_reports

/-! ## The model -/

/-- The two modules, and the broadcasts that the update module has not taken yet, the oldest
first. -/
structure Aodc where
  net : Net
  on_the_way : List Bytes
  update : update_module.State

def Aodc.start : Aodc := ⟨.empty, [], .empty⟩

/-- A message of one of the two modules. -/
inductive Event where
  | auth (e : NetEvent)
  | update (e : update_module.Event)

/-- The data of an AUTH_SUC. -/
def dataOf : Out → Option Bytes
  | .auth_suc data => some data
  | _ => none

/-- What is on its way behind a message of the update module. -/
def leftBehind (e : update_module.Event) (on_the_way : List Bytes) : List Bytes :=
  match e with
  | .auth_suc _ => on_the_way.tail
  | _ => on_the_way

def step (stored : Bytes → Option Bytes) : Handler Aodc Event Out Fault
  | a, .auth e => do
    let (net, os) ← netHandle stored a.net e
    .ok (⟨net, a.on_the_way ++ os.filterMap dataOf, a.update⟩, os)
  | a, .update e => do
    let (update, os) ← update_module.handle a.update e
    .ok (⟨a.net, leftBehind e a.on_the_way, update⟩, os)

abbrev Entry := Event × List Out

/-- What the authentication module knows of a history. -/
def authPart (es : List Entry) : List (NetEvent × List Out) :=
  es.filterMap (fun x => match x with
    | (.auth e, os) => some (e, os)
    | _ => none)

/-- What the update module knows of it. -/
def updatePart (es : List Entry) : List (update_module.Event × List Out) :=
  es.filterMap (fun x => match x with
    | (.update e, os) => some (e, os)
    | _ => none)

/-- Nobody else broadcasts an AUTH_SUC, and they are taken in their order. No stored code waits
while its resource id is bound with another. -/
def Allowed (stored : Bytes → Option Bytes) (es : List Entry) (a : Aodc) : Event → Prop
  | .auth e => Timely stored (authPart es) a.net e
  | .update (.auth_suc data) => a.on_the_way.head? = some data
  | .update _ => True

/-- At some time the last code that was forwarded for the resource id was the channel's own, and the
stored one. -/
def WasVouched (stored : Bytes → Option Bytes) (rid channel : Bytes)
    (es : List (NetEvent × List Out)) : Prop :=
  ∃ newer older, es = newer ++ older ∧ Vouched stored rid channel older

variable {stored : Bytes → Option Bytes} {es : List Entry} {a a' : Aodc} {os : List Out}
  {rid c : Bytes}

theorem WasVouched.append {es : List (NetEvent × List Out)} (h : WasVouched stored rid c es)
    (more : List (NetEvent × List Out)) : WasVouched stored rid c (more ++ es) := by
  obtain ⟨newer, older, rfl, hv⟩ := h
  exact ⟨more ++ newer, older, (List.append_assoc more newer older).symm, hv⟩

theorem WasVouched.of_now {es : List (NetEvent × List Out)} (h : Vouched stored rid c es) :
    WasVouched stored rid c es :=
  ⟨[], es, rfl, h⟩

/-! ## One step -/

theorem step_auth {e : NetEvent} (h : step stored a (.auth e) = .ok (a', os)) :
    ∃ net, netHandle stored a.net e = .ok (net, os) ∧
      a' = ⟨net, a.on_the_way ++ os.filterMap dataOf, a.update⟩ := by
  obtain ⟨⟨net, os'⟩, hnet, h⟩ := bind_ok h
  cases h
  exact ⟨net, hnet, rfl⟩

theorem step_update {e : update_module.Event} (h : step stored a (.update e) = .ok (a', os)) :
    ∃ update, update_module.handle a.update e = .ok (update, os) ∧
      a' = ⟨a.net, leftBehind e a.on_the_way, update⟩ := by
  obtain ⟨⟨update, os'⟩, hupdate, h⟩ := bind_ok h
  cases h
  exact ⟨update, hupdate, rfl⟩

theorem step_of_auth {e : NetEvent} {net : Net} (h : netHandle stored a.net e = .ok (net, os)) :
    step stored a (.auth e) = .ok (⟨net, a.on_the_way ++ os.filterMap dataOf, a.update⟩, os) := by
  simp only [step, h]
  rfl

theorem step_of_update {e : update_module.Event} {update : update_module.State}
    (h : update_module.handle a.update e = .ok (update, os)) :
    step stored a (.update e) = .ok (⟨a.net, leftBehind e a.on_the_way, update⟩, os) := by
  simp only [step, h]
  rfl

theorem grantOf_data {data : Bytes} (h : update_module.grantOf (.auth_suc data) = some (rid, c)) :
    auth_grants.grantOf (.auth_suc data) = some (rid, c) := by
  simp only [update_module.grantOf] at h
  split at h
  · cases h
    rfl
  · cases h

/-! ## Whole runs -/

/-- Each module has a run of its own, and whatever the update module was or will be told of is
vouched for in the history of the other. -/
structure Coherent (stored : Bytes → Option Bytes) (es : List Entry) (a : Aodc) : Prop where
  auth : Run (netHandle stored) (Timely stored) Net.empty (authPart es) a.net
  update : Run update_module.handle Any update_module.State.empty (updatePart es) a.update
  coming : ∀ data ∈ a.on_the_way, ∀ rid c, update_module.grantOf (.auth_suc data) = some (rid, c) →
    WasVouched stored rid c (authPart es)
  told : ∀ x ∈ updatePart es, ∀ rid c, Granted rid c x → WasVouched stored rid c (authPart es)

theorem Coherent.start : Coherent stored [] Aodc.start where
  auth := .start
  update := .start
  coming _ h := absurd h List.not_mem_nil
  told _ h := absurd h List.not_mem_nil

/-- A message of the authentication module broadcasts what is vouched for. -/
theorem Coherent.auth_next {e : NetEvent} {net : Net} (h : Coherent stored es a)
    (hok : Timely stored (authPart es) a.net e) (hnet : netHandle stored a.net e = .ok (net, os)) :
    Coherent stored ((.auth e, os) :: es) ⟨net, a.on_the_way ++ os.filterMap dataOf, a.update⟩ := by
  have hrun := h.auth.next hok hnet
  refine ⟨hrun, h.update, ?_, fun x hx rid c hg => (h.told x hx rid c hg).append [(e, os)]⟩
  intro data hdata rid c hg
  rcases List.mem_append.mp hdata with hold | hnew
  · exact (h.coming data hold rid c hg).append [(e, os)]
  · obtain ⟨o, ho, hdataOf⟩ := List.mem_filterMap.mp hnew
    have hsuc : o = .auth_suc data := by
      cases o with
      | auth_suc d =>
        cases hdataOf
        rfl
      | _ => cases hdataOf
    subst hsuc
    have hvouched : Vouched stored rid c (authPart es) :=
      @grants_vouched _ _ _ hrun [] _ _ rfl _ ho _ _ (grantOf_data hg)
    exact (WasVouched.of_now hvouched).append [(e, os)]

/-- A message of the update module tells it of no more than was on its way. -/
theorem Coherent.update_next {e : update_module.Event} {update : update_module.State}
    (h : Coherent stored es a) (hok : Allowed stored es a (.update e))
    (hupdate : update_module.handle a.update e = .ok (update, os)) :
    Coherent stored ((.update e, os) :: es) ⟨a.net, leftBehind e a.on_the_way, update⟩ := by
  refine ⟨h.auth, h.update.next trivial hupdate, ?_, ?_⟩
  · intro data hdata
    have hmem : data ∈ a.on_the_way := by
      cases e with
      | auth_suc d => exact List.mem_of_mem_tail hdata
      | _ => exact hdata
    exact h.coming data hmem
  · intro x hx rid c hg
    rcases List.mem_cons.mp hx with rfl | hx
    · cases e with
      | auth_suc data => exact h.coming data (List.mem_of_head? hok) rid c hg
      | _ => cases hg
    · exact h.told x hx rid c hg

theorem Coherent.of_run (h : Run (step stored) (Allowed stored) .start es a) :
    Coherent stored es a := by
  refine h.invariant (I := Coherent stored) .start ?_
  intro es a e a' os hcoherent hok hstep
  cases e with
  | auth e =>
    obtain ⟨net, hnet, rfl⟩ := step_auth hstep
    exact hcoherent.auth_next hok hnet
  | update e =>
    obtain ⟨update, hupdate, rfl⟩ := step_update hstep
    exact hcoherent.update_next hok hupdate

/-! ## Whose reports and updates they are -/

/-- Whatever the two modules hear of and when, a report that goes out for a server comes from a
channel that presented the stored code of that server, and so did the channel that an update of it
goes to. -/
theorem reports_and_updates_are_of_channels_with_the_stored_code {es : List Entry} {a a' : Aodc}
    {e : update_module.Event} {os : List Out} (h : Run (step stored) (Allowed stored) .start es a)
    (hstep : step stored a (.update e) = .ok (a', os)) :
    (∀ o ∈ os, ∀ rid, update_module.reportOf o = some rid → ∃ data c, e = .recv_data data ∧
      channelName data = .ok c ∧
      Authed rid c (updatePart es) ∧ WasVouched stored rid c (authPart es)) ∧
    (∀ c data, .channel_send_data c data ∈ os → msgCode data = enAodcAodsUmi →
      ∃ doc update rid, e = .rcvfkafka (some doc) ∧ doc.getObjectItem "update" = some update ∧
        update.getMember "rid" >>= CJson.valuestring = .ok rid ∧
          WasVouched stored rid c (authPart es)) := by
  obtain ⟨update, hupdate, rfl⟩ := step_update hstep
  have hcoherent := Coherent.of_run h
  constructor
  · intro o ho rid hrid
    rcases update_module.handle_outputs hupdate ho with ⟨data, c, cuo, he, hc, hcuo, hreport⟩ |
      ⟨_, _, _, _, _, _, _, _, _, rfl⟩ | ⟨_, rfl⟩
    · rw [hreport] at hrid
      cases hrid
      have hauthed := ((cuo_authed hcoherent.update c cuo).mp hcuo).2
      obtain ⟨x, hx, hg⟩ := Since.once hauthed
      exact ⟨data, c, he, hc, hauthed, hcoherent.told x hx _ c hg⟩
    · cases hrid
    · cases hrid
  · intro c data ho hcode
    rcases update_module.handle_outputs hupdate ho with ⟨_, _, _, _, _, _, hreport⟩ |
      ⟨doc, update, rid, ruo, t, he, hdoc, hrid, hruo, hsent⟩ | ⟨_, hsent⟩
    · cases hreport
    · cases hsent
      obtain ⟨x, hx, hg⟩ := ruo_granted hcoherent.update hruo
      exact ⟨doc, update, rid, he, hdoc, hrid, hcoherent.told x hx rid _ hg⟩
    · cases hsent
      rw [msgCode_aodsAodcMsg (by decide)] at hcode
      cases hcode

/-! ## A server that reports -/

open aodc.auth_module (ridOf authEvent handle_auth)
open aodc.auth_bindings (client oneServer authOf_oneServer zero_notMem_client Good)
open aodc.auth_grants (oneStored requestOfServer netHandle_of_event netHandle_ack)

/-- The server presents its code, the control answers, and the update module is told. -/
theorem run_granted : ∃ es a, Run (step oneStored) (Allowed oneStored) .start es a ∧
    a.update.map_cuo.lookup client = some ⟨client, update_routing.oneRid⟩ := by
  have hrid : 0 ∉ (requestOfServer oneServer).rid := util.helper.zero_notMem_getHexString _
  have hu : auth_module.State.empty.Unbound (ridOf oneServer) :=
    (Good.empty.unbound_iff _).mpr (find_empty _)
  have hasked : netHandle oneStored Net.empty (.event (authEvent client oneServer false)) =
      .ok (⟨auth_module.State.empty.bind client oneServer, [requestOfServer oneServer]⟩,
        [auth_module.reportAuthenMsg oneServer.uc_act_code (ridOf oneServer)]) := by
    have hevent := @netHandle_of_event oneStored Net.empty _ _ _ (handle_auth authOf_oneServer hu)
    rw [List.filterMap_cons, auth_grants.requestOf_report] at hevent
    exact hevent
  have hreplies : auth_grants.replies oneStored (auth_module.State.empty.bind client oneServer)
      (requestOfServer oneServer) =
      [auth_module.authSuc update_routing.oneRid client, auth_module.authResult client 0] := by
    have hrc : (auth_module.State.empty.bind client oneServer).map_rc.lookup
        (requestOfServer oneServer).rid =
        some ⟨1, client, List.replicate 64 10⟩ := by
      rw [auth_bindings.bind_rc]
      exact if_pos rfl
    have hstored : oneStored (requestOfServer oneServer).rid =
        some (requestOfServer oneServer).active_code := if_pos rfl
    have hridOf : (requestOfServer oneServer).rid = update_routing.oneRid := by decide
    unfold auth_grants.replies
    rw [hrc]
    dsimp only
    rw [if_pos hstored, hridOf]
  have hack := @netHandle_ack oneStored (auth_module.State.empty.bind client oneServer) _ hrid []
  rw [hreplies] at hack
  have htold := (update_routing.granting_oneRid zero_notMem_client update_module.State.empty).2
  have hstart : Run (step oneStored) (Allowed oneStored) .start [] .start := .start
  have hallowed : Allowed oneStored [] .start
      (.auth (.event (authEvent client oneServer false))) := by
    refine ⟨id, ?_⟩
    intro c a q _ _ hq
    cases hq
  have hfirst := hstart.next hallowed (step_of_auth hasked)
  have hallowed' : ∀ es a, Allowed oneStored es a (.auth .ack) := fun _ _ => ⟨trivial, trivial⟩
  have hsecond := hfirst.next (hallowed' _ _) (step_of_auth hack)
  have hoffered : ∀ es net update,
      Allowed oneStored es ⟨net, [names [update_routing.oneRid, client]], update⟩
      (.update (.auth_suc (names [update_routing.oneRid, client]))) := fun _ _ _ => rfl
  have hthird := hsecond.next (hoffered _ _ _) (step_of_update htold)
  refine ⟨_, _, hthird, ?_⟩
  exact (update_routing.grant_cuo update_module.State.empty update_routing.oneRid client
    client).trans (if_pos rfl)

/-- It reports, as the server that it is vouched for. -/
theorem a_report_is_of_a_channel_with_the_stored_code :
    ∃ es a os, Run (step oneStored) (Allowed oneStored) .start es a ∧
      step oneStored a (.update update_routing.report) = .ok (a, os) ∧ os ≠ [] ∧
      WasVouched oneStored update_routing.oneRid client (authPart es) := by
  obtain ⟨es, a, hrun, hcuo⟩ := run_granted
  have hstep := @step_of_update oneStored a _ _ _ (update_routing.handle_report hcuo)
  refine ⟨es, a, _, hrun, hstep, List.cons_ne_nil _ _, ?_⟩
  obtain ⟨data, c, he, hc, _, hvouched⟩ :=
    (reports_and_updates_are_of_channels_with_the_stored_code hrun hstep).1
    _ List.mem_cons_self update_routing.oneRid (update_module.reportOf_check ..)
  cases he
  rw [channelName_append update_routing.zero_notMem_client] at hc
  cases hc
  exact hvouched

end aodc.granted_reports
