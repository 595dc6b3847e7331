-- The deploy control between its two topics. A resource id that it issued is, until it is
-- told of the activation, in one place alone: in an answer or in a report. So the code of a
-- report that waits is stored when its turn comes, and stays.
import Aods.DeployCtrl

open machine std_map
open util.helper util.json
open py.deploy_ctrl

namespace py.issued_ids

/-- Who put a document into the topic to the control. It is not part of the document. -/
inductive Sender where
  | active
  | aods
  | other
  deriving DecidableEq, Repr

structure Posted where
  sender : Sender
  doc : CJson

/-- The resource ids of the activations that some documents tell of. -/
def told (topic : List Posted) : List Bytes := topic.filterMap (fun p => sucOf p.doc)

/-- The resource ids that some answers give out. -/
def given (answers : List CJson) : List Bytes := answers.filterMap ackOf

/-- Resource ids that are issued, each once, and have no code yet. -/
structure Waiting (dc : DeployCtrl) (rids : List Bytes) : Prop where
  once : rids.Nodup
  blank : ∀ rid ∈ rids, ∃ srv, dc.srvs.lookup rid = some srv ∧ srv.active_code = none

/-- The code of a resource id is stored, or it will be when the topic is read. -/
structure Kept (dc : DeployCtrl) (topic : List Posted) (rid active_code : Bytes) : Prop where
  mine : rid.take 2 = dc.index
  kept : stored dc rid = some active_code ∨ ∃ p ∈ topic, p.doc = activeSuc rid active_code

theorem Waiting.nil (dc : DeployCtrl) : Waiting dc [] := ⟨List.nodup_nil, by simp⟩

theorem Waiting.sublist {dc : DeployCtrl} {rids rids' : List Bytes} (h : Waiting dc rids)
    (hsub : rids'.Sublist rids) : Waiting dc rids' :=
  ⟨h.once.sublist hsub, fun rid hrid => h.blank rid (hsub.subset hrid)⟩

theorem Waiting.perm {dc : DeployCtrl} {rids rids' : List Bytes} (h : Waiting dc rids)
    (hperm : rids.Perm rids') : Waiting dc rids' :=
  ⟨hperm.nodup_iff.mp h.once, fun rid hrid => h.blank rid (hperm.mem_iff.mpr hrid)⟩

theorem Waiting.issue {dc : DeployCtrl} {rids : List Bytes} (h : Waiting dc rids) {rid : Bytes}
    {srv : Srv} (hnew : dc.srvs.lookup rid = none) (hblank : srv.active_code = none) :
    Waiting { dc with srvs := dc.srvs.insert rid srv } (rid :: rids) := by
  have hne : ∀ r ∈ rids, r ≠ rid := by
    rintro r hr rfl
    obtain ⟨srv', hsrv', _⟩ := h.blank r hr
    rw [hnew] at hsrv'
    cases hsrv'
  refine ⟨List.nodup_cons.mpr ⟨fun hr => hne rid hr rfl, h.once⟩, fun r hr => ?_⟩
  dsimp only
  rcases List.mem_cons.mp hr with rfl | hr
  · exact ⟨srv, find_insert_some.mpr (Or.inl ⟨rfl, rfl⟩), hblank⟩
  · obtain ⟨srv', hsrv', hblank'⟩ := h.blank r hr
    exact ⟨srv', find_insert_some.mpr (Or.inr ⟨hne r hr, hsrv'⟩), hblank'⟩

theorem Waiting.store {dc : DeployCtrl} {rids : List Bytes} {rid : Bytes}
    (h : Waiting dc (rid :: rids)) (srv : Srv) :
    Waiting { dc with srvs := dc.srvs.insert rid srv } rids := by
  obtain ⟨hnot, honce⟩ := List.nodup_cons.mp h.once
  refine ⟨honce, fun r hr => ?_⟩
  obtain ⟨srv', hsrv', hblank'⟩ := h.blank r (List.mem_cons_of_mem rid hr)
  have hne : r ≠ rid := by
    rintro rfl
    exact hnot hr
  exact ⟨srv', find_insert_some.mpr (Or.inr ⟨hne, hsrv'⟩), hblank'⟩

theorem told_cons (p : Posted) (topic : List Posted) :
    told (p :: topic) = (sucOf p.doc).toList ++ told topic := by
  unfold told
  cases h : sucOf p.doc with
  | none => simp [h]
  | some rid => simp [h]

theorem given_append (answers answers' : List CJson) :
    given (answers ++ answers') = given answers ++ given answers' := List.filterMap_append

theorem told_append (topic topic' : List Posted) :
    told (topic ++ topic') = told topic ++ told topic' := List.filterMap_append

theorem Waiting.consume {dc : DeployCtrl} {answers : List CJson} {p : Posted} {topic : List Posted}
    (h : Waiting dc (given answers ++ told (p :: topic))) (draws : List Draw) :
    Waiting (onConsume dc p.doc draws).1
      (given (answers ++ (onConsume dc p.doc draws).2) ++ told topic) := by
  rw [told_cons] at h
  have hrest : Waiting dc (given answers ++ told topic) :=
    h.sublist (List.Sublist.append (List.Sublist.refl _) (List.sublist_append_right _ _))
  rcases onConsume_cases dc p.doc draws with ⟨rid, srv, uuid, hrid, hblank, hs⟩ |
    ⟨rid, srv, code, hrid, _, hs⟩ | ⟨hsame, hacks⟩
  · rw [hs]
    have hperm : (rid :: (given answers ++ told topic)).Perm
        (given (answers ++ [activeAck uuid rid]) ++ told topic) := by
      have hgiven : given [activeAck uuid rid] = [rid] := by
        unfold given
        rw [List.filterMap_cons, ackOf_activeAck, List.filterMap_nil]
      rw [given_append, hgiven, List.append_assoc]
      exact List.perm_middle.symm
    exact (hrest.issue (generalRid_some hrid).1 hblank).perm hperm
  · rw [hs, List.append_nil]
    rw [hrid] at h
    have hperm : (given answers ++ ([rid] ++ told topic)).Perm
        (rid :: (given answers ++ told topic)) :=
      List.perm_middle
    exact (h.perm hperm).store _
  · have hnone : given (onConsume dc p.doc draws).2 = [] := by
      apply List.filterMap_eq_nil_iff.mpr
      intro d hd
      obtain ⟨rid, ack, rfl⟩ := hacks d hd
      exact ackOf_authAck rid ack
    rw [hsame, given_append, hnone, List.append_nil]
    exact hrest

theorem onConsume_index (dc : DeployCtrl) (doc : CJson) (draws : List Draw) :
    (onConsume dc doc draws).1.index = dc.index := by
  rcases onConsume_cases dc doc draws with ⟨_, _, _, _, _, hs⟩ | ⟨_, _, _, _, _, hs⟩ | ⟨hsame, _⟩
  · rw [hs]
  · rw [hs]
  · rw [hsame]

theorem Kept.append {dc : DeployCtrl} {topic : List Posted} {rid active_code : Bytes}
    (h : Kept dc topic rid active_code) (more : List Posted) :
    Kept dc (topic ++ more) rid active_code :=
  ⟨h.mine, h.kept.imp id (fun ⟨p, hp, hdoc⟩ => ⟨p, List.mem_append_left more hp, hdoc⟩)⟩

theorem Kept.consume {dc : DeployCtrl} {p : Posted} {topic : List Posted} {rid active_code : Bytes}
    (hw : Waiting dc (told (p :: topic))) (h : Kept dc (p :: topic) rid active_code)
    (draws : List Draw) : Kept (onConsume dc p.doc draws).1 topic rid active_code := by
  refine ⟨(onConsume_index dc p.doc draws).symm ▸ h.mine, ?_⟩
  rcases h.kept with hstored | ⟨q, hq, hdoc⟩
  · left
    rcases onConsume_cases dc p.doc draws with ⟨r, srv, uuid, hr, _, hs⟩ |
      ⟨r, srv, code, hr, _, hs⟩ | ⟨hsame, _⟩
    · -- the resource id that is issued is a new one
      rw [hs]
      dsimp only
      rw [stored_insert, if_neg, hstored]
      rintro rfl
      rw [stored, (generalRid_some hr).1] at hstored
      cases hstored
    · -- the resource id of a report has no code yet
      rw [hs]
      dsimp only
      rw [stored_insert, if_neg, hstored]
      rintro rfl
      obtain ⟨srv', hsrv', hblank⟩ := hw.blank rid (by rw [told_cons, hr]; exact List.mem_cons_self)
      rw [stored, hsrv', Option.bind_some, hblank] at hstored
      cases hstored
    · rw [hsame]
      exact hstored
  · rcases List.mem_cons.mp hq with rfl | hq
    · left
      obtain ⟨srv, hsrv, _⟩ := hw.blank rid
        (by rw [told_cons, hdoc, sucOf_activeSuc]; exact List.mem_cons_self)
      rw [hdoc, onConsume_activeSuc hsrv]
      dsimp only
      rw [stored_insert, if_pos rfl]
    · exact Or.inr ⟨q, hq, hdoc⟩

end py.issued_ids
