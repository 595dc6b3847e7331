-- Activations that run while the control starts again between its messages. A resource id that is
-- given out is in memory only, until aodc tells that the activation has succeeded. The law
-- says whose codes are taken from then on.
import Aods.DeployDb
import Aods.Runs
import Mathlib.Data.List.Perm.Basic

open machine std_map runs
open util.helper util.json
open py.deploy_ctrl (dictGet getText Draw activeSuc auth)
open py.deploy_db

namespace activation_restart

/-! ## The model -/

/-- An `active_ack` that aodc has not replied to. It is fresh until the control starts again. -/
structure Ack where
  rid : Bytes
  fresh : Bool
  deriving DecidableEq

/-- The control, its database, and what aodc was told. `completed` has the resource ids with the
codes of the replies to fresh acks. A reply to one that is not fresh takes its own out. -/
structure System where
  dc : DeployCtrl
  db_mgr : StdMap Srv
  acks : List Ack
  completed : List (Bytes × Bytes)

/-- What happens: any message, the reply of aodc to one of the acks, a start. -/
inductive Event where
  | consume (doc : CJson) (draws : List Draw)
  | active_suc (n : Nat) (active_code : Bytes)
  | restart (db_pub : StdMap Published) (pub_keys : List Bytes)

def start (index : Int) (db_mgr : StdMap Srv) (db_pub : StdMap Published) (pub_keys : List Bytes) :
    System :=
  ⟨(init index).initDb db_mgr db_pub pub_keys, db_mgr, [], []⟩

/-- The acks that go out. -/
def acksOf (os : List Out) : List Ack :=
  os.filterMap
    (fun o => match o with | .produce (.active_ack _ rid) => some ⟨rid, true⟩ | _ => none)

/-- A message leaves the control, the database and the acks. -/
def System.take (s : System) (r : DeployCtrl × List Out) : System :=
  { s with dc := r.1, db_mgr := storeAll s.db_mgr r.2, acks := s.acks ++ acksOf r.2 }

def System.complete (s : System) (a : Ack) (active_code : Bytes) : System :=
  if a.fresh then { s with completed := (a.rid, active_code) :: s.completed }
  else { s with completed := s.completed.filter (fun c => c.1 ≠ a.rid) }

def handle : Handler System Event Out Fault
  | s, .consume doc draws => .ok (s.take (onConsume s.dc doc draws), (onConsume s.dc doc draws).2)
  | s, .active_suc n active_code =>
    match s.acks[n]? with
    | none => .ok (s, [])
    | some a =>
      let r := onConsume s.dc (activeSuc a.rid active_code) []
      .ok ((({ s with acks := s.acks.eraseIdx n } : System).take r).complete a active_code, r.2)
  | s, .restart db_pub pub_keys =>
    .ok ({ s with
      dc := s.dc.initDb s.db_mgr db_pub pub_keys,
      acks := s.acks.map (fun a => { a with fresh := false }) }, [])

/-- The replies to the acks of other controls come to this one too. -/
def ByAodc (_ : List (Event × List Out)) (s : System) : Event → Prop
  | .consume doc _ => ∀ v, (text "active_suc", v) ∈ items doc → ∀ rid, getText v "rid" = some rid →
      rid.take 2 ≠ s.dc.index
  | _ => True

/-- A server is there with a code. -/
def Coded (m : StdMap Srv) (rid active_code : Bytes) : Prop :=
  ∃ srv, m.lookup rid = some srv ∧ srv.active_code = some active_code

/-- The servers are those of the index. A fresh ack is for a server of its own, which has no code
yet, and a completed activation is in memory and in the database. -/
structure Inv (s : System) : Prop where
  mine : ∀ rid srv, s.dc.srvs.lookup rid = some srv → rid.take 2 = s.dc.index
  there : ∀ a ∈ s.acks, a.fresh = true → (s.dc.srvs.lookup a.rid).isSome ∧ ∀ code,
    (a.rid, code) ∉ s.completed
  distinct : ((s.acks.filter (·.fresh)).map (·.rid)).Nodup
  kept : ∀ rid code, (rid, code) ∈ s.completed → Coded s.dc.srvs rid code ∧ Coded s.db_mgr rid code

variable {s : System} {rid code : Bytes} {k : Bytes} {v : CJson} {dc : DeployCtrl} {os : List Out}

/-! ## Messages -/

theorem take_append (s : System) (dc dc' : DeployCtrl) (os os' : List Out) :
    s.take (dc', os ++ os') = (s.take (dc, os)).take (dc', os') := by
  unfold System.take acksOf
  dsimp only
  rw [storeAll_append, List.filterMap_append, List.append_assoc]

theorem acksOf_quiet (h : ∀ o ∈ os, Quiet o) : acksOf os = [] := by
  unfold acksOf
  rw [List.filterMap_eq_nil_iff]
  intro o ho
  have hquiet := h o ho
  unfold Quiet at hquiet
  split at hquiet
  · rfl
  · rfl
  · exact hquiet.elim

theorem take_quiet (s : System) (dc : DeployCtrl) (h : ∀ o ∈ os, Quiet o) :
    s.take (dc, os) = { s with dc := dc } := by
  unfold System.take
  dsimp only
  rw [storeAll_quiet s.db_mgr h, acksOf_quiet h, List.append_nil]

theorem take_dealAuthen (s : System) (v : CJson) : s.take (s.dc, dealAuthen s.dc v) = s := by
  have hacks : acksOf (dealAuthen s.dc v) = [] := by
    unfold acksOf
    rw [List.filterMap_eq_nil_iff]
    intro o ho
    obtain ⟨rid, ack, rfl⟩ := dealAuthen_answers s.dc v o ho
    rfl
  unfold System.take
  dsimp only
  rw [storeAll_dealAuthen, hacks, List.append_nil]

theorem take_write (s : System) (rid : Bytes) (srv : Srv) (h : ∀ o ∈ os, Quiet o) :
    s.take (s.dc.enter rid srv, .set_mgr rid srv :: os) =
      { s with dc := s.dc.enter rid srv, db_mgr := s.db_mgr.insert rid srv.json } := by
  have hacks : acksOf (.set_mgr rid srv :: os) = acksOf os := rfl
  unfold System.take
  dsimp only
  rw [storeAll_write s.db_mgr rid srv h, hacks, acksOf_quiet h, List.append_nil]

theorem coded_insert {m : StdMap Srv} {rid' : Bytes} {srv : Srv} (h : Coded m rid code)
    (hsame : rid = rid' → srv.active_code = some code) : Coded (m.insert rid' srv) rid code := by
  obtain ⟨srv', hsrv', hcode⟩ := h
  by_cases hr : rid = rid'
  · exact ⟨srv, by rw [find_insert, if_pos hr], hsame hr⟩
  · exact ⟨srv', by rw [find_insert, if_neg hr]; exact hsrv', hcode⟩

theorem enter_there (dc : DeployCtrl) (rid' : Bytes) (srv : Srv)
    (h : (dc.srvs.lookup rid).isSome = true) :
    ((dc.enter rid' srv).srvs.lookup rid).isSome = true := by
  unfold DeployCtrl.enter
  dsimp only
  rw [find_insert]
  split
  · rfl
  · exact h

theorem enter_mine (h : ∀ rid srv, dc.srvs.lookup rid = some srv → rid.take 2 = dc.index)
    {rid' : Bytes} (srv' : Srv) (hrid : rid'.take 2 = dc.index) :
    ∀ rid srv, (dc.enter rid' srv').srvs.lookup rid = some srv → rid.take 2 = dc.index := by
  intro r srv hsrv
  rcases find_insert_some.mp hsrv with ⟨rfl, _⟩ | ⟨_, hsrv⟩
  · exact hrid
  · exact h r srv hsrv

/-- Only the servers count for the invariant. -/
theorem Inv.congr (h : Inv s) (hsrvs : dc.srvs = s.dc.srvs) (hindex : dc.index = s.dc.index) :
    Inv { s with dc := dc } := by
  constructor
  · dsimp only
    rw [hsrvs, hindex]
    exact h.mine
  · dsimp only
    rw [hsrvs]
    exact h.there
  · exact h.distinct
  · dsimp only
    rw [hsrvs]
    exact h.kept

/-- A turn keeps the invariant, where it is no reply to an ack of this control. -/
theorem Inv.turn (h : Inv s) (hturn : Turn s.dc k v dc os)
    (hother : k = text "active_suc" → ∀ rid, getText v "rid" = some rid → rid.take 2 ≠ s.dc.index) :
    Inv (s.take (dc, os)) ∧ dc.index = s.dc.index := by
  cases hturn with
  | quiet hsrvs hindex hos _ =>
    rw [take_quiet s dc hos]
    exact ⟨h.congr hsrvs hindex, hindex⟩
  | answered hk =>
    rw [take_dealAuthen]
    exact ⟨h, rfl⟩
  | entered rid ips uuid hk hnew hmine =>
    refine ⟨⟨enter_mine h.mine _ hmine, ?_, ?_, ?_⟩, rfl⟩
    · intro a ha hfresh
      rcases List.mem_append.mp ha with ha | ha
      · obtain ⟨hsome, hnot⟩ := h.there a ha hfresh
        exact ⟨enter_there s.dc rid _ hsome, hnot⟩
      · cases List.mem_singleton.mp ha
        refine ⟨?_, fun code hdone => ?_⟩
        · unfold System.take DeployCtrl.enter
          dsimp only
          rw [find_insert, if_pos rfl]
          rfl
        · obtain ⟨⟨srv, hsrv, _⟩, _⟩ := h.kept rid code hdone
          rw [hnew] at hsrv
          cases hsrv
    · -- a fresh ack is for a server that is there, so the new resource id is another one
      have hacks :
          (s.take (s.dc.enter rid ⟨ips, ips, none, none, none, none⟩,
            [.produce (.active_ack uuid rid)])).acks =
          s.acks ++ [⟨rid, true⟩] := rfl
      rw [hacks, List.filter_append, List.map_append]
      apply List.Nodup.append h.distinct
      · exact List.nodup_singleton _
      · intro r hr hnewr
        obtain ⟨a, ha, rfl⟩ := List.mem_map.mp hr
        obtain ⟨ha, hfresh⟩ := List.mem_filter.mp ha
        obtain ⟨hsome, _⟩ := h.there a ha hfresh
        have hrid : a.rid = rid := by simpa using hnewr
        rw [hrid, hnew] at hsome
        cases hsome
    · intro r code hdone
      obtain ⟨hmem, hdb⟩ := h.kept r code hdone
      refine ⟨coded_insert hmem (fun hr => ?_), hdb⟩
      obtain ⟨srv, hsrv, _⟩ := hmem
      rw [hr, hnew] at hsrv
      cases hsrv
  | activated rid active_code srv hk hrid hcode hsrv =>
    exact absurd (h.mine rid srv hsrv) (hother hk rid hrid)
  | checked rid srv deploy orders hk hrid hsrv hdeploy hdiffer horders =>
    rw [take_write s rid _ horders]
    refine ⟨⟨enter_mine h.mine _ (h.mine rid srv hsrv), ?_, h.distinct, ?_⟩, rfl⟩
    · intro a ha hfresh
      obtain ⟨hsome, hnot⟩ := h.there a ha hfresh
      exact ⟨enter_there s.dc rid _ hsome, hnot⟩
    · intro r code hdone
      obtain ⟨hmem, hdb⟩ := h.kept r code hdone
      have hsame : r = rid → srv.active_code = some code := by
        intro hr
        obtain ⟨srv', hsrv', hcode⟩ := hmem
        rw [hr, hsrv] at hsrv'
        cases hsrv'
        exact hcode
      exact ⟨coded_insert hmem hsame, coded_insert hdb hsame⟩

theorem Inv.message (h : Inv s) (doc : CJson) (draws : List Draw)
    (hother : ∀ v, (text "active_suc", v) ∈ items doc → ∀ rid, getText v "rid" = some rid →
      rid.take 2 ≠ s.dc.index) :
    Inv (s.take (onConsume s.dc doc draws)) := by
  have hall : Inv (s.take ((onConsume s.dc doc draws).1, (onConsume s.dc doc draws).2)) ∧
      (onConsume s.dc doc draws).1.index = s.dc.index := by
    apply onConsume_induct (P := fun dc os => Inv (s.take (dc, os)) ∧ dc.index = s.dc.index)
    · rw [take_quiet s s.dc (by simp)]
      exact ⟨h, rfl⟩
    · intro item hitem dc os ⟨hinv, hindex⟩
      rw [take_append s dc]
      obtain ⟨hnext, hkeep⟩ := hinv.turn (deal_turn dc draws item.1 item.2) (fun hk rid hrid => by
        have hforeign := hother item.2 (by rw [← hk]; exact hitem) rid hrid
        rw [← hindex] at hforeign
        exact hforeign)
      exact ⟨hnext, hkeep.trans hindex⟩
  exact hall.1

/-! ## The reply of aodc -/

theorem items_activeSuc (rid code : Bytes) :
    items (activeSuc rid code) =
      [(text "active_suc", obj [("active_code", .string code), ("rid", .string rid)])] := by
  simp [items, activeSuc, obj, text, List.eraseDups_cons]

/-- A reply for a server that is not there is dropped, and one for another stores its code. -/
theorem onConsume_activeSuc (dc : DeployCtrl) (rid code : Bytes) :
    onConsume dc (activeSuc rid code) [] = match dc.srvs.lookup rid with
      | none => (dc, [])
      | some srv => (dc.enter rid (srv.activate code), [.set_mgr rid (srv.activate code)]) := by
  have hrid : getText (obj [("active_code", .string code), ("rid", .string rid)]) "rid" =
      some rid := by
    simp [getText, dictGet, obj, text]
  have hcode : getText (obj [("active_code", .string code), ("rid", .string rid)]) "active_code" =
      some code := by
    simp [getText, dictGet, obj, text]
  have hdeal : onConsume dc (activeSuc rid code) [] =
      dealActiveSuc dc (obj [("active_code", .string code), ("rid", .string rid)]) :=
    onConsume_one (items_activeSuc rid code)
  rw [hdeal]
  unfold dealActiveSuc
  rw [hrid, hcode]
  rfl

theorem Inv.erase (h : Inv s) {n : Nat} {a : Ack} (ha : s.acks[n]? = some a) :
    Inv { s with acks := s.acks.eraseIdx n } ∧
      (a.fresh = true → ∀ b ∈ s.acks.eraseIdx n, b.fresh = true → b.rid ≠ a.rid) := by
  obtain ⟨hn, ha⟩ := List.getElem?_eq_some_iff.mp ha
  have hsub := List.eraseIdx_sublist s.acks n
  refine ⟨⟨h.mine, fun b hb => h.there b (hsub.subset hb), ?_, h.kept⟩,
    fun hfresh b hb hbfresh he => ?_⟩
  · exact h.distinct.sublist ((hsub.filter _).map _)
  · have hperm := List.getElem_cons_eraseIdx_perm hn
    rw [ha] at hperm
    have hnodup := (((hperm.filter (·.fresh)).map (·.rid)).nodup_iff).mpr h.distinct
    rw [List.filter_cons_of_pos hfresh, List.map_cons, List.nodup_cons] at hnodup
    apply hnodup.1
    rw [← he]
    exact List.mem_map_of_mem (List.mem_filter.mpr ⟨hb, hbfresh⟩)

theorem Inv.store (h : Inv s) (code : Bytes) {srv : Srv} (hsrv : s.dc.srvs.lookup rid = some srv)
    (hnone : ∀ code', (rid, code') ∉ s.completed) :
    Inv { s with dc := s.dc.enter rid (srv.activate code),
                 db_mgr := s.db_mgr.insert rid (srv.activate code).json } := by
  refine ⟨enter_mine h.mine _ (h.mine rid srv hsrv), ?_, h.distinct, ?_⟩
  · intro a ha hfresh
    obtain ⟨hsome, hnot⟩ := h.there a ha hfresh
    exact ⟨enter_there s.dc rid _ hsome, hnot⟩
  · intro r code' hdone
    have hr : r ≠ rid := by
      rintro rfl
      exact hnone code' hdone
    obtain ⟨hmem, hdb⟩ := h.kept r code' hdone
    exact ⟨coded_insert hmem (fun he => absurd he hr), coded_insert hdb (fun he => absurd he hr)⟩

theorem Inv.reply (h : Inv s) {n : Nat} {a : Ack} (ha : s.acks[n]? = some a) (code : Bytes) :
    Inv ((({ s with acks := s.acks.eraseIdx n } : System).take
        (onConsume s.dc (activeSuc a.rid code) [])).complete a code) := by
  obtain ⟨herase, halone⟩ := h.erase ha
  have hmem : a ∈ s.acks := List.mem_of_getElem? ha
  rw [onConsume_activeSuc]
  unfold System.complete
  cases hfresh : a.fresh with
  | true =>
    obtain ⟨hsome, hnone⟩ := h.there a hmem hfresh
    obtain ⟨srv, hsrv⟩ := Option.isSome_iff_exists.mp hsome
    rw [hsrv]
    dsimp only
    rw [take_write _ _ _ (by simp), if_pos rfl]
    have hstore := herase.store code hsrv hnone
    refine ⟨hstore.mine, ?_, hstore.distinct, ?_⟩
    · intro b hb hbfresh
      obtain ⟨hbsome, hbnone⟩ := hstore.there b hb hbfresh
      refine ⟨hbsome, fun code' hdone => ?_⟩
      rcases List.mem_cons.mp hdone with he | hdone
      · exact halone hfresh b hb hbfresh (congrArg Prod.fst he)
      · exact hbnone code' hdone
    · intro r code' hdone
      rcases List.mem_cons.mp hdone with he | hdone
      · cases he
        exact ⟨⟨_, by unfold DeployCtrl.enter; rw [find_insert, if_pos rfl], rfl⟩,
          ⟨_, by rw [find_insert, if_pos rfl], rfl⟩⟩
      · exact hstore.kept r code' hdone
  | false =>
    -- its own activation is taken out, so what is stored for its server now does not matter
    have hout : Inv { s with
        acks := s.acks.eraseIdx n, completed := s.completed.filter (fun c => c.1 ≠ a.rid) } :=
      ⟨herase.mine, fun b hb hbfresh => ⟨(herase.there b hb hbfresh).1,
          fun code' hdone => (herase.there b hb hbfresh).2 code' (List.mem_of_mem_filter hdone)⟩,
        herase.distinct, fun r code' hdone => herase.kept r code' (List.mem_of_mem_filter hdone)⟩
    have hnone : ∀ code', (a.rid, code') ∉ s.completed.filter (fun c => c.1 ≠ a.rid) := by
      intro code' hdone
      simpa using (List.mem_filter.mp hdone).2
    cases hsrv : s.dc.srvs.lookup a.rid with
    | none =>
      dsimp only
      rw [take_quiet _ _ (by simp), if_neg Bool.false_ne_true]
      exact hout
    | some srv =>
      dsimp only
      rw [take_write _ _ _ (by simp), if_neg Bool.false_ne_true]
      exact hout.store code hsrv hnone

/-! ## A start -/

theorem initDb_mine (dc : DeployCtrl) (db_mgr : StdMap Srv) (db_pub : StdMap Published)
    (pub_keys : List Bytes) {srv : Srv}
    (h : (dc.initDb db_mgr db_pub pub_keys).srvs.lookup rid = some srv) :
    rid.take 2 = dc.index := by
  rw [initDb_lookup] at h
  split at h
  · rename_i hbegins
    exact (begins_iff dc rid).mp hbegins
  · cases h

/-- A start reads back each server that is stored, and no ack is fresh behind it. -/
theorem Inv.restart (h : Inv s) (db_pub : StdMap Published) (pub_keys : List Bytes) :
    Inv { s with dc := s.dc.initDb s.db_mgr db_pub pub_keys,
                 acks := s.acks.map (fun a => { a with fresh := false }) } := by
  have hstale : ∀ a ∈ s.acks.map (fun a => ({ a with fresh := false } : Ack)), a.fresh = false := by
    intro a ha
    obtain ⟨b, _, rfl⟩ := List.mem_map.mp ha
    rfl
  refine ⟨?_, ?_, ?_, ?_⟩
  · intro r srv hsrv
    exact initDb_mine s.dc s.db_mgr db_pub pub_keys hsrv
  · intro a ha hfresh
    rw [hstale a ha] at hfresh
    cases hfresh
  · have hnil : (s.acks.map (fun a => ({ a with fresh := false } : Ack))).filter (·.fresh) =
        [] := by
      rw [List.filter_eq_nil_iff]
      intro a ha
      rw [hstale a ha]
      exact Bool.false_ne_true
    dsimp only
    rw [hnil]
    exact List.nodup_nil
  · intro r code hdone
    obtain ⟨⟨srv, hsrv, _⟩, srv', hsrv', hcode'⟩ := h.kept r code hdone
    have hbegins : s.dc.index <+: r := (begins_iff s.dc r).mpr (h.mine r srv hsrv)
    refine ⟨⟨srv', ?_, hcode'⟩, srv', hsrv', hcode'⟩
    rw [initDb_lookup, if_pos hbegins]
    exact hsrv'

theorem inv_start (index : Int) (db_mgr : StdMap Srv) (db_pub : StdMap Published)
    (pub_keys : List Bytes) :
    Inv (start index db_mgr db_pub pub_keys) := by
  refine ⟨?_, by simp [start], by simp [start], by simp [start]⟩
  intro r srv hsrv
  exact initDb_mine (init index) db_mgr db_pub pub_keys hsrv

/-! ## The law -/

theorem Inv.step (h : Inv s) {e : Event} {s' : System} {es : List (Event × List Out)}
    (hok : ByAodc es s e) (hstep : handle s e = .ok (s', os)) : Inv s' := by
  cases e with
  | consume doc draws =>
    cases hstep
    exact h.message doc draws hok
  | active_suc n active_code =>
    simp only [handle] at hstep
    cases ha : s.acks[n]? with
    | none =>
      rw [ha] at hstep
      cases hstep
      exact h
    | some a =>
      rw [ha] at hstep
      cases hstep
      exact h.reply ha active_code
  | restart db_pub pub_keys =>
    cases hstep
    exact h.restart db_pub pub_keys

/-- Whatever restarts and messages come: a server whose activation was completed, by the reply to
an ack that was fresh, is answered by 0 when it sends its code. -/
theorem a_completed_activation_is_taken {index : Int} {db_mgr : StdMap Srv}
    {db_pub : StdMap Published} {pub_keys : List Bytes} {es : List (Event × List Out)}
    (h : Run handle ByAodc (start index db_mgr db_pub pub_keys) es s)
    (hdone : (rid, code) ∈ s.completed) {doc : CJson} (hdoc : items doc = [(text "auth", v)])
    (hrid : getText v "rid" = some rid) (hcode : getText v "active_code" = some code)
    (draws : List Draw) :
    onConsume s.dc doc draws = (s.dc, [.produce (.auth_ack rid 0)]) := by
  have hinv : Inv s := by
    refine Run.invariant (I := fun _ s => Inv s) (inv_start index db_mgr db_pub pub_keys) ?_ h
    intro es s e s' os hinv hok hstep
    exact hinv.step hok hstep
  obtain ⟨⟨srv, hsrv, hstored⟩, _⟩ := hinv.kept rid code hdone
  have hauth : deal s.dc draws (text "auth") v = (s.dc, dealAuthen s.dc v) := rfl
  rw [onConsume_one hdoc, hauth, dealAuthen_stored hrid hcode (hinv.mine rid srv hsrv) hsrv hstored]

/-- A server asks for an activation at the first control. -/
def request : CJson := obj [("active", obj [("uuid", .string [117]), ("index", .number 1)])]

def draw : Draw := ⟨[1, 1, 1, 1, 1], by decide⟩

/-- The resource id that it is given. -/
def drawn : Bytes := getHexString [1, 1, 1, 1, 1, 1]

/-- The control behind the request. -/
def asked : System := (start 1 ∅ ∅ []).take (onConsume (start 1 ∅ ∅ []).dc request [draw])

theorem run_asked :
    Run handle ByAodc (start 1 ∅ ∅ [])
      [(.consume request [draw], [.produce (.active_ack (.string [117]) drawn)])]
    asked := by
  refine .next .start ?_ rfl
  intro v hv
  have hnone : text "active_suc" ∉ (items request).map (·.1) := by decide
  exact absurd (List.mem_map_of_mem (f := (·.1)) hv) hnone

theorem an_activation_is_taken_behind_a_start :
    ∃ es s, Run handle ByAodc (start 1 ∅ ∅ []) es s ∧
      es.map (·.1) = [.restart ∅ [], .active_suc 0 [99], .consume request [draw]] ∧
      onConsume s.dc (auth drawn [99]) [] = (s.dc, [.produce (.auth_ack drawn 0)]) := by
  have hreplied := Run.next (e := Event.active_suc 0 [99]) run_asked trivial rfl
  have hrestarted := Run.next (e := Event.restart ∅ []) hreplied trivial rfl
  refine ⟨_, _, hrestarted, rfl, ?_⟩
  exact a_completed_activation_is_taken hrestarted List.mem_cons_self rfl rfl rfl []

/-- Between the ack and the reply of aodc a start forgets the server. The reply is dropped, and the
server is answered by 1. -/
theorem a_start_forgets_an_activation :
    ∃ es s, Run handle ByAodc (start 1 ∅ ∅ []) es s ∧
      es.map (·.1) = [.active_suc 0 [99], .restart ∅ [], .consume request [draw]] ∧
      onConsume s.dc (auth drawn [99]) [] = (s.dc, [.produce (.auth_ack drawn 1)]) := by
  have hrestarted := Run.next (e := Event.restart ∅ []) run_asked trivial rfl
  have hreplied := Run.next (e := Event.active_suc 0 [99]) hrestarted trivial rfl
  exact ⟨_, _, hreplied, rfl, rfl⟩

end activation_restart
