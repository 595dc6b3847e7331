-- What the two maps of the update module know of a run. The map of the channels
-- is exactly what the history says of each channel. The map of the resource ids
-- loses the channel of a server when another channel that had it is lost.
import Aods.AodcUpdate

open machine runs std_map
open util.json msg_def
open aodc.update_module

namespace aodc.update_routing

/-- An AUTH_SUC of a resource id on a channel. -/
def Granted (rid channel : Bytes) (x : Event × List Out) : Prop := grantOf x.1 = some (rid, channel)

/-- The channel is lost. -/
def Lost (channel : Bytes) (x : Event × List Out) : Prop := lostOf x.1 = some channel

/-- The last AUTH_SUC on the channel was of this resource id, and the channel was not lost
since. -/
def Authed (rid channel : Bytes) : List (Event × List Out) → Prop :=
  Since (Granted rid channel) (fun x => (∃ r, Granted r channel x) ∨ Lost channel x)

/-- The last AUTH_SUC of the resource id was on this channel, and the channel was not lost
since. -/
def Live (rid channel : Bytes) : List (Event × List Out) → Prop :=
  Since (Granted rid channel) (fun x => (∃ c, Granted rid c x) ∨ Lost channel x)

/-- Every live channel of a resource id is the one that its updates go to. -/
def Routed (es : List (Event × List Out)) (s : State) : Prop :=
  ∀ rid c, Live rid c es → s.map_ruo.lookup rid = some ⟨c, rid⟩

theorem authed_cons {rid c : Bytes} {e : Event} {os : List Out} {es : List (Event × List Out)} :
    Authed rid c ((e, os) :: es) ↔ grantOf e = some (rid, c) ∨
      ((∀ r, grantOf e ≠ some (r, c)) ∧ lostOf e ≠ some c ∧ Authed rid c es) := by
  unfold Authed
  rw [since_cons]
  simp [Granted, Lost, not_or, and_assoc]

theorem live_cons {rid c : Bytes} {e : Event} {os : List Out} {es : List (Event × List Out)} :
    Live rid c ((e, os) :: es) ↔ grantOf e = some (rid, c) ∨
      ((∀ c', grantOf e ≠ some (rid, c')) ∧ lostOf e ≠ some c ∧ Live rid c es) := by
  unfold Live
  rw [since_cons]
  simp [Granted, Lost, not_or, and_assoc]

/-- No channel is lost while its resource id is live on another. -/
def NoOtherLive (es : List (Event × List Out)) (s : State) (e : Event) : Prop :=
  ∀ c cuo, lostOf e = some c → s.map_cuo.lookup c = some cuo →
    ∀ c', Live cuo.str_res_id c' es → c' = c

/-! ## The two maps -/

theorem grant_cuo (s : State) (rid c c' : Bytes) :
    (s.grant rid c).map_cuo.lookup c' = if c' = c then some ⟨c, rid⟩ else s.map_cuo.lookup c' :=
  find_insert s.map_cuo c c' _

theorem grant_ruo (s : State) (rid c rid' : Bytes) :
    (s.grant rid c).map_ruo.lookup rid' =
      if rid' = rid then some ⟨c, rid⟩ else s.map_ruo.lookup rid' :=
  find_insert s.map_ruo rid rid' _

theorem drop_cuo (s : State) (c c' : Bytes) :
    (s.drop c).map_cuo.lookup c' = if c' = c then none else s.map_cuo.lookup c' := by
  cases hc : s.map_cuo.lookup c with
  | none =>
    have hsame : s.drop c = s := by rw [State.drop, hc]
    rw [hsame]
    split
    · rename_i heq
      rw [heq, hc]
    · rfl
  | some cuo =>
    have herased : s.drop c = ⟨s.map_cuo.erase c, s.map_ruo.erase cuo.str_res_id⟩ := by
      rw [State.drop, hc]
    rw [herased]
    exact find_erase s.map_cuo c c'

theorem drop_ruo {s : State} {c : Bytes} {cuo : UpdateObj} (h : s.map_cuo.lookup c = some cuo)
    (rid : Bytes) : (s.drop c).map_ruo.lookup rid =
      if rid = cuo.str_res_id then none else s.map_ruo.lookup rid := by
  unfold State.drop
  rw [h]
  exact find_erase s.map_ruo cuo.str_res_id rid

theorem drop_unknown {s : State} {c : Bytes} (h : s.map_cuo.lookup c = none) : s.drop c = s := by
  unfold State.drop
  rw [h]

/-! ## What the maps know of the history -/

theorem cuo_authed {s : State} {es : List (Event × List Out)} (h : Run handle Any State.empty es s)
    (c : Bytes) (cuo : UpdateObj) :
    s.map_cuo.lookup c = some cuo ↔ cuo.str_channel_name = c ∧ Authed cuo.str_res_id c es := by
  induction h with
  | start => simp [State.empty, Authed, since_nil]
  | @next es s s' e os _ _ step ih =>
    obtain ⟨name, rid⟩ := cuo
    rw [authed_cons]
    rcases handle_cases step with ⟨r, c₀, hg, hl, rfl⟩ | ⟨c₀, hg, hl, rfl⟩ | ⟨hg, hl, rfl⟩
    · rw [grant_cuo, hg, hl]
      by_cases hc : c = c₀
      · subst hc
        simp [eq_comm]
      · simpa [hc, Ne.symm hc] using ih
    · rw [drop_cuo, hg, hl]
      by_cases hc : c = c₀
      · subst hc
        simp
      · simpa [hc, Ne.symm hc] using ih
    · rw [hg, hl]
      simpa using ih

theorem ruo_granted {s : State} {es : List (Event × List Out)} (h : Run handle Any State.empty es s)
    {rid : Bytes} {ruo : UpdateObj} (hruo : s.map_ruo.lookup rid = some ruo) :
    Once (Granted rid ruo.str_channel_name) es := by
  induction h with
  | start => simp [State.empty] at hruo
  | @next es s s' e os _ _ step ih =>
    rw [once_cons]
    rcases handle_cases step with ⟨r, c, hg, _, rfl⟩ | ⟨c, _, _, rfl⟩ | ⟨_, _, rfl⟩
    · rw [grant_ruo] at hruo
      split at hruo
      · rename_i hrid
        cases hruo
        exact Or.inl (hrid ▸ hg)
      · exact Or.inr (ih hruo)
    · cases hcuo : s.map_cuo.lookup c with
      | none =>
        rw [drop_unknown hcuo] at hruo
        exact Or.inr (ih hruo)
      | some cuo =>
        rw [drop_ruo hcuo] at hruo
        split at hruo
        · cases hruo
        · exact Or.inr (ih hruo)
    · exact Or.inr (ih hruo)

/-! ## Where updates go -/

theorem Routed.start : Routed [] State.empty := fun _ _ h => absurd h (since_nil _ _)

theorem Routed.grant {s : State} {es : List (Event × List Out)} (h : Routed es s) {e : Event}
    {os : List Out} {rid c : Bytes} (hg : grantOf e = some (rid, c)) :
    Routed ((e, os) :: es) (s.grant rid c) := by
  intro r c' hlive
  rw [grant_ruo]
  rcases live_cons.mp hlive with hnow | ⟨hnot, _, hbefore⟩
  · rw [hg] at hnow
    cases hnow
    exact if_pos rfl
  · have hne : r ≠ rid := by
      rintro rfl
      exact hnot c hg
    rw [if_neg hne]
    exact h r c' hbefore

/-- The loss of a channel keeps every live channel routed just when the resource id of the
channel is live on no other. -/
theorem routed_drop_iff {s : State} {es : List (Event × List Out)} (h : Routed es s) {e : Event}
    {os : List Out} {c : Bytes} (hg : grantOf e = none) (hl : lostOf e = some c) :
    Routed ((e, os) :: es) (s.drop c) ↔ NoOtherLive es s e := by
  have hlive : ∀ rid c', Live rid c' ((e, os) :: es) ↔ c' ≠ c ∧ Live rid c' es := by
    intro rid c'
    rw [live_cons, hg, hl]
    simp [eq_comm]
  constructor
  · intro hrouted c₀ cuo hlost hcuo c' hc'
    rw [hl] at hlost
    cases hlost
    by_contra hne
    have hruo := hrouted _ _ ((hlive _ _).mpr ⟨hne, hc'⟩)
    rw [drop_ruo hcuo, if_pos rfl] at hruo
    cases hruo
  · intro hnone rid c' hc'
    obtain ⟨hne, hbefore⟩ := (hlive rid c').mp hc'
    cases hcuo : s.map_cuo.lookup c with
    | none =>
      rw [drop_unknown hcuo]
      exact h rid c' hbefore
    | some cuo =>
      have hrid : rid ≠ cuo.str_res_id := by
        rintro rfl
        exact hne (hnone c cuo hl hcuo c' hbefore)
      rw [drop_ruo hcuo, if_neg hrid]
      exact h rid c' hbefore

/-- One step keeps the updates routed just when it loses no channel whose resource id is
live on another. -/
theorem routed_step_iff {s s' : State} {es : List (Event × List Out)} (h : Routed es s) {e : Event}
    {os : List Out} (hs : handle s e = .ok (s', os)) :
    Routed ((e, os) :: es) s' ↔ NoOtherLive es s e := by
  rcases handle_cases hs with ⟨rid, c, hg, hl, rfl⟩ | ⟨c, hg, hl, rfl⟩ | ⟨hg, hl, rfl⟩
  · refine ⟨fun _ c' cuo hlost => ?_, fun _ => h.grant hg⟩
    rw [hl] at hlost
    cases hlost
  · exact routed_drop_iff h hg hl
  · refine ⟨fun _ c' cuo hlost => ?_, fun _ rid c hlive => ?_⟩
    · rw [hl] at hlost
      cases hlost
    · rcases live_cons.mp hlive with hnow | ⟨_, _, hbefore⟩
      · rw [hg] at hnow
        cases hnow
      · exact h rid c hbefore

theorem Routed.run {s : State} {es : List (Event × List Out)}
    (h : Run handle NoOtherLive State.empty es s) : Routed es s := by
  apply h.invariant (I := Routed) Routed.start
  intro es s e s' os hrouted hnone hs
  exact (routed_step_iff hrouted hs).mpr hnone

/-! ## A server on two channels -/

def oneRid : Bytes := text "010101010101"

def client : Bytes := text "AodsServer1"

def otherClient : Bytes := text "AodsServer2"

/-- An AUTH_SUC as the authentication module broadcasts it. -/
def granting (rid c : Bytes) : Event × List Out := (.auth_suc (names [rid, c]), [])

def freeing (c : Bytes) : Event × List Out := (.freed (c ++ [0]), [])

theorem handle_granting {rid c : Bytes} (hrid : 0 ∉ rid) (hlen : 6 ≤ rid.length ∧ rid.length < 16)
    (hc : 0 ∉ c) (s : State) :
    grantOf (granting rid c).1 = some (rid, c) ∧
      handle s (granting rid c).1 = .ok (s.grant rid c, []) := by
  have hdata : names [rid, c] = rid ++ 0 :: (c ++ 0 :: []) := by simp [names]
  have hlast : (names [rid, c]).getLast? = some 0 := by
    have hend : names [rid, c] = (rid ++ 0 :: c) ++ [0] := by simp [names]
    rw [hend]
    exact List.getLast?_concat
  have hfit : enResIdLen ≤ (names [rid, c]).length := by
    rw [hdata]
    simp [enResIdLen]
    omega
  have hread : ¬ ((names [rid, c]).length < enResIdLen ∨ (names [rid, c]).getLast? ≠ some 0) := by
    rintro (h | h)
    · omega
    · exact h hlast
  have hshort : ¬ rid.length ≥ 16 := by omega
  have hcstr : cstr (names [rid, c]) = rid := by rw [hdata, cstr_append hrid]
  have hpast : pastCstr (names [rid, c]) = c ++ 0 :: [] := by rw [hdata, pastCstr_append hrid]
  constructor
  · simp only [granting, grantOf, hfit, hlast, and_self, if_true, hcstr, hpast, cstr_append hc]
  · simp only [granting, handle, onAuthSuc, if_neg hread, hcstr, hpast, if_neg hshort,
      channelName_append hc]

theorem granting_oneRid {c : Bytes} (hc : 0 ∉ c) (s : State) :
    grantOf (granting oneRid c).1 = some (oneRid, c) ∧
      handle s (granting oneRid c).1 = .ok (s.grant oneRid c, []) :=
  handle_granting (by decide) (by decide) hc s

theorem handle_freeing {c : Bytes} (hc : 0 ∉ c) (haods : isAods c = true) (s : State) :
    lostOf (freeing c).1 = some c ∧ handle s (freeing c).1 = .ok (s.drop c, []) := by
  have hlost : lostOf (freeing c).1 = some c := clientChannel_append hc haods []
  exact ⟨hlost, handle_lost hlost s⟩

theorem zero_notMem_client : 0 ∉ client := by decide

theorem zero_notMem_otherClient : 0 ∉ otherClient := by decide

/-- The four texts of a report. -/
def moduleTexts : Bytes := [112, 0, 109, 0, 118, 0, 104, 0]

/-- A report on a client's channel. -/
def report : Event := .recv_data (client ++ 0 :: aodsAodcMsg enAodsAodcUmi moduleTexts)

theorem handle_report {s : State} {rid : Bytes}
    (hcuo : s.map_cuo.lookup client = some ⟨client, rid⟩) :
    handle s report =
      .ok (s, [.snd2kafka (obj [("check_update", moduleMembers rid moduleTexts [])])]) := by
  have haods : isAods client = true := by decide
  have hlen : ¬ (aodsAodcMsg enAodsAodcUmi moduleTexts).length < enAodsAodcMsgSize := by decide
  have hcode : msgCode (aodsAodcMsg enAodsAodcUmi moduleTexts) = enAodsAodcUmi :=
    msgCode_aodsAodcMsg (by decide) _
  have hdrop : (aodsAodcMsg enAodsAodcUmi moduleTexts).drop enAodsAodcMsgSize = moduleTexts := rfl
  have hcount : ¬ moduleTexts.count 0 < 4 := by decide
  simp only [report, handle, onRecvChannelData, channelName_append zero_notMem_client, haods,
    if_true, pastCstr_append zero_notMem_client, onRecvAodsData, hlen, if_false, hcuo, hcode, hdrop,
    onRecvUpdateModuleInfo, hcount]

theorem run_two_channels : Run handle NoOtherLive State.empty
    [granting oneRid otherClient, granting oneRid client]
    ((State.empty.grant oneRid client).grant oneRid otherClient) := by
  refine .next (.next .start ?_ (granting_oneRid zero_notMem_client _).2) ?_
    (granting_oneRid zero_notMem_otherClient _).2
  · intro c cuo hlost
    cases hlost
  · intro c cuo hlost
    cases hlost

theorem live_otherClient :
    Live oneRid otherClient [granting oneRid otherClient, granting oneRid client] :=
  live_cons.mpr (Or.inl (granting_oneRid zero_notMem_otherClient State.empty).1)

/-! ## The laws -/

/-- A report goes to Kafka for the resource id that its channel was last authenticated for,
and an update goes to a channel that was authenticated for its resource id. -/
theorem only_authenticated_channels_report_and_are_updated {s s' : State}
    {es : List (Event × List Out)} (h : Run handle Any State.empty es s) {e : Event} {os : List Out}
    (hs : handle s e = .ok (s', os)) :
    (∀ o ∈ os, ∀ r, reportOf o = some r →
      ∃ data c, e = .recv_data data ∧ channelName data = .ok c ∧ Authed r c es) ∧
    (∀ c data, .channel_send_data c data ∈ os → msgCode data = enAodcAodsUmi →
      ∃ doc update r, e = .rcvfkafka (some doc) ∧ doc.getObjectItem "update" = some update ∧
        update.getMember "rid" >>= CJson.valuestring = .ok r ∧ Once (Granted r c) es) := by
  constructor
  · intro o ho r hr
    rcases handle_outputs hs ho with ⟨data, c, cuo, he, hc, hcuo, hreport⟩ |
      ⟨_, _, _, _, _, _, _, _, _, rfl⟩ | ⟨_, rfl⟩
    · rw [hreport] at hr
      cases hr
      exact ⟨data, c, he, hc, ((cuo_authed h c cuo).mp hcuo).2⟩
    · cases hr
    · cases hr
  · intro c data ho hcode
    rcases handle_outputs hs ho with ⟨_, _, _, _, _, _, hreport⟩ |
      ⟨doc, update, r, ruo, t, he, hdoc, hr, hruo, hsent⟩ | ⟨_, hsent⟩
    · cases hreport
    · cases hsent
      exact ⟨doc, update, r, he, hdoc, hr, ruo_granted h hruo⟩
    · cases hsent
      rw [msgCode_aodsAodcMsg (by decide)] at hcode
      cases hcode

theorem the_client_of_a_report_is_authenticated :
    Authed oneRid client [granting oneRid client] := by
  have hrun :=
    @Run.next _ _ _ _ _ Any _ _ _ _ _ _ .start trivial
      (granting_oneRid zero_notMem_client State.empty).2
  have hcuo : (State.empty.grant oneRid client).map_cuo.lookup client = some ⟨client, oneRid⟩ := by
    rw [grant_cuo, if_pos rfl]
  obtain ⟨data, c, he, hc, hauthed⟩ :=
    (only_authenticated_channels_report_and_are_updated hrun (handle_report hcuo)).1
      _ (List.mem_singleton_self _) oneRid (reportOf_check ..)
  cases he
  rw [channelName_append zero_notMem_client] at hc
  cases hc
  exact hauthed

/-- While no channel is lost whose resource id is live on another, the updates of a resource
id go to its live channel. The first such loss ends that. -/
theorem updates_reach_the_live_channel_while_no_other_is_lost_with_its_rid {s : State}
    {es : List (Event × List Out)} (h : Run handle NoOtherLive State.empty es s) :
    (∀ r c, Live r c es → s.map_ruo.lookup r = some ⟨c, r⟩ ∧
      ∀ doc update, doc.getObjectItem "update" = some update →
        update.getMember "rid" >>= CJson.valuestring = .ok r →
        handle s (.rcvfkafka (some doc)) = (updateText update).map
          (fun t => (s, [.channel_send_data c (aodsAodcMsg enAodcAodsUmi t)]))) ∧
    (∀ e s' os, handle s e = .ok (s', os) →
      (Routed ((e, os) :: es) s' ↔ NoOtherLive es s e)) := by
  have hrouted := Routed.run h
  refine ⟨fun r c hlive => ⟨hrouted r c hlive, fun doc update hdoc hr => ?_⟩,
    fun e s' os hs => routed_step_iff hrouted hs⟩
  rw [handle_update s hdoc hr, hrouted r c hlive]

/-- A server that comes back on a second channel is updated there. -/
theorem the_second_channel_of_a_server_is_updated :
    ((State.empty.grant oneRid client).grant oneRid otherClient).map_ruo.lookup oneRid =
      some ⟨otherClient, oneRid⟩ :=
  ((updates_reach_the_live_channel_while_no_other_is_lost_with_its_rid run_two_channels).1
    _ _ live_otherClient).1

/-- A server on two channels whose first channel is lost late: it is live on the second, and
its updates go nowhere. -/
theorem a_late_loss_of_the_first_channel_stops_the_updates : ∃ s es,
    Run handle Any State.empty (freeing client :: es) s ∧
      Live oneRid otherClient (freeing client :: es) ∧
    s.map_ruo.lookup oneRid = none ∧
    ∀ doc update, doc.getObjectItem "update" = some update →
      update.getMember "rid" >>= CJson.valuestring = .ok oneRid →
      handle s (.rcvfkafka (some doc)) = .ok (s, []) := by
  obtain ⟨hlost, hfreed⟩ := handle_freeing zero_notMem_client (by decide)
    ((State.empty.grant oneRid client).grant oneRid otherClient)
  have hne : otherClient ≠ client := by decide
  have hcuo : ((State.empty.grant oneRid client).grant oneRid otherClient).map_cuo.lookup client =
      some ⟨client, oneRid⟩ := by
    rw [grant_cuo, if_neg hne.symm, grant_cuo, if_pos rfl]
  have hruo :
      (((State.empty.grant oneRid client).grant oneRid otherClient).drop client).map_ruo.lookup
      oneRid = none := by rw [drop_ruo hcuo, if_pos rfl]
  refine ⟨_, _, .next (run_two_channels.mono (fun _ => trivial)) trivial hfreed,
    live_cons.mpr (Or.inr ⟨fun c' hg => ?_, fun hc => ?_, live_otherClient⟩), hruo,
    fun doc update hdoc hr => ?_⟩
  · cases hg
  · exact hne (Option.some.inj (hc.symm.trans hlost))
  · rw [handle_update _ hdoc hr, hruo]

end aodc.update_routing
