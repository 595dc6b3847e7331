-- Servers that `deleteServers` takes out of the database while `DeployCtrl` still has them in
-- memory. The law says by which messages one comes back or is let in again, and that without
-- these it stays out.
import Aods.ServerDb

open machine std_map runs
open util.helper util.json
open py.deploy_ctrl (dictGet getText Draw)
open py.deploy_db py.db_engine py.server_db

namespace deleted_servers

/-! ## The model -/

/-- A message that activates a server. -/
def Activates (rid : Bytes) (e : Event) : Prop :=
  ∃ v draws, e = .consume (text "active_suc") v draws ∧ getText v "rid" = some rid

/-- A server was deleted, and was not activated since. -/
def Deleted (rid : Bytes) (es : List (Event × List Out)) : Prop :=
  Since (fun x => x.1 = .delete rid) (fun x => Activates rid x.1) es

/-- The control has no server in memory that a message of a deleted one fits: no pair for its
module but the one that is reported, and no code that is sent. -/
def NotInMemory (rid : Bytes) (s : Db) : Event → Prop
  | .consume k v _ =>
    getText v "rid" = some rid → ∀ srv, s.dc.srvs.lookup rid = some srv →
      (k = text "check_update" → ∀ deploy, srv.deploy = some deploy →
        deployedAt deploy (s.dc.reportKey v) = reported v) ∧
      (k = text "auth" → ∀ active_code, srv.active_code = some active_code →
        getText v "active_code" ≠ some active_code)
  | .set id => ∀ c, s.calls id = some c → c.set = false → c.si.rid ≠ rid
  | _ => True

/-- For each server that is deleted. -/
def Forgotten (es : List (Event × List Out)) (s : Db) (e : Event) : Prop :=
  ∀ rid, Deleted rid es → NotInMemory rid s e

/-- Behind a deletion a server is no key, and is never let in. -/
def StaysDeleted (rid : Bytes) (es : List (Event × List Out)) (s : Db) : Prop :=
  ∀ newer older os, es = newer ++ (.delete rid, os) :: older → (∀ x ∈ newer, ¬ Activates rid x.1) →
    s.db_mgr.lookup rid = none ∧ ∀ x ∈ newer, .produce (.auth_ack rid 0) ∉ x.2

variable {s : Db} {rid : Bytes} {e : Event} {es : List (Event × List Out)}

/-! ## One event -/

/-- An event that finds nothing of a deleted server leaves it out. -/
theorem step_gone (h : s.db_mgr.lookup rid = none) (hactive : ¬ Activates rid e)
    (hok : NotInMemory rid s e) :
    (step s e).1.db_mgr.lookup rid = none := by
  cases e with
  | consume k v draws =>
    cases consume_consumed s k v draws rid with
    | kept hmem hdb hsame =>
      rw [hdb]
      exact h
    | entered srv hk hnew hmine hmem hdeploy hdb =>
      rw [hdb]
      exact h
    | activated srv active_code hk hrid hsrv hmem hdb =>
      exact absurd ⟨v, draws, by rw [hk], hrid⟩ hactive
    | checked srv deploy hk hrid hsrv hdeploy hother hmem hdb =>
      obtain ⟨hcheck, _⟩ := hok hrid srv hsrv
      exact absurd (hcheck hk deploy hdeploy) hother
  | get id si =>
    unfold step
    dsimp only
    split
    · exact h
    · exact h
  | set id =>
    unfold step
    dsimp only
    split
    · rename_i si srv hcall
      have hother := hok ⟨si, srv, false⟩ hcall rfl
      split
      · exact h
      · unfold Db.put
        dsimp only
        rw [find_insert, if_neg (fun he => hother he.symm)]
        exact h
    · exact h
  | ret id success =>
    unfold step
    dsimp only
    split
    · exact h
    · exact h
  | delete r =>
    unfold step
    dsimp only
    rw [find_erase]
    split
    · rfl
    · exact h
  | restart db_pub pub_keys => exact h

theorem step_refused (hok : NotInMemory rid s e) : .produce (.auth_ack rid 0) ∉ (step s e).2 := by
  intro hack
  cases e with
  | consume k v draws =>
    unfold step at hack
    dsimp only at hack
    have hturn := deal_turn s.dc draws k v
    generalize deal s.dc draws k v = r at hturn hack
    obtain ⟨dc, os⟩ := r
    dsimp only at hturn hack
    cases hturn with
    | quiet hsrvs hindex hos _ => exact hos _ hack
    | answered hk =>
      obtain ⟨srv, active_code, hsrv, hcode, hrid, hsent⟩ := dealAuthen_granted hack
      obtain ⟨_, hauth⟩ := hok hrid srv hsrv
      exact hauth hk active_code hcode hsent
    | entered r ips uuid hk hnew hmine => simp at hack
    | activated r active_code srv hk hrid hcode hsrv => simp at hack
    | checked r srv deploy orders hk hrid hsrv hdeploy hdiffer horders =>
      rcases List.mem_cons.mp hack with he | hack
      · cases he
      · exact horders _ hack
  | get id si =>
    unfold step at hack
    dsimp only at hack
    split at hack
    · cases hack
    · cases hack
  | set id =>
    unfold step at hack
    dsimp only at hack
    split at hack
    · split at hack
      · cases hack
      · cases hack
    · cases hack
  | ret id success =>
    unfold step at hack
    dsimp only at hack
    split at hack
    · cases hack
    · cases hack
  | delete r => cases hack
  | restart db_pub pub_keys => cases hack

/-! ## The law -/

/-- A run in which the messages of a deleted server find nothing of it in memory, and no
`updateServer` that has read it before sets it again, leaves it deleted. -/
theorem a_deleted_server_stays_deleted {index : Int} {db_mgr : StdMap Srv}
    {db_pub : StdMap Published} {pub_keys : List Bytes}
    (h : Run handle Forgotten (start index db_mgr db_pub pub_keys) es s) :
    StaysDeleted rid es s := by
  refine Run.invariant (I := fun es s => StaysDeleted rid es s) ?_ ?_ h
  · intro newer older os hes
    exact absurd hes.symm (by simp)
  · intro es s e s' os hinv hok hstep newer older os' hes hnone
    have hs' : step s e = (s', os) := Except.ok.inj hstep
    cases newer with
    | nil =>
      obtain ⟨hdelete, _⟩ := List.cons.inj hes
      cases hdelete
      cases hs'
      refine ⟨?_, by simp⟩
      dsimp only
      rw [find_erase, if_pos rfl]
    | cons x newer =>
      obtain ⟨rfl, rfl⟩ := List.cons.inj hes
      have hbefore : ∀ x ∈ newer, ¬ Activates rid x.1 :=
        fun x hx => hnone x (List.mem_cons_of_mem _ hx)
      obtain ⟨hgone, hrefused⟩ := hinv newer older os' rfl hbefore
      have hmemory : NotInMemory rid s e := hok rid ⟨newer, _, older, rfl, rfl, hbefore⟩
      have hactive : ¬ Activates rid e := hnone (e, os) List.mem_cons_self
      have hgone' := step_gone hgone hactive hmemory
      have hrefused' := step_refused hmemory
      rw [hs'] at hgone' hrefused'
      refine ⟨hgone', fun x hx => ?_⟩
      rcases List.mem_cons.mp hx with rfl | hx
      · exact hrefused'
      · exact hrefused x hx

/-- Behind a start of the control the deleted server is not in memory. -/
theorem a_server_stays_deleted_behind_a_start :
    ∃ es s, Run handle Forgotten oneDb es s ∧
      es.map (·.1) = [reports, .restart ∅ [], .delete oneRid] ∧ StaysDeleted oneRid es s := by
  have hstart : Run handle Forgotten oneDb [] _ := .start
  have hdeleted := Run.next (e := Event.delete oneRid) hstart (fun _ _ => trivial) rfl
  have hrestarted := Run.next (e := Event.restart ∅ []) hdeleted (fun _ _ => trivial) rfl
  have hreported := Run.next (e := reports) hrestarted (fun _ _ _ srv hsrv => by cases hsrv) rfl
  exact ⟨_, _, hreported, rfl, a_deleted_server_stays_deleted hreported⟩

/-- A control that has it in memory lets it in, and writes it back with its next version. -/
theorem a_deleted_server_comes_back :
    ∃ es s, Run handle Any oneDb es s ∧
      es.map (·.1) = [reports, sendsCode, .delete oneRid] ∧ (s.db_mgr.lookup oneRid).isSome ∧
      ∃ os, (sendsCode, os) ∈ es ∧ .produce (.auth_ack oneRid 0) ∈ os := by
  have hstart : Run handle Any oneDb [] _ := .start
  have hdeleted := Run.next (e := Event.delete oneRid) hstart trivial rfl
  have hsent := Run.next (e := sendsCode) hdeleted trivial rfl
  have hreported := Run.next (e := reports) hsent trivial rfl
  refine ⟨_, _, hreported, rfl, rfl, _, List.mem_cons_of_mem _ List.mem_cons_self, ?_⟩
  exact List.mem_singleton.mpr rfl

end deleted_servers
