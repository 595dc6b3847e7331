-- The record of one server, which `updateServer` reads and sets while `DeployCtrl` sets it from
-- what it has in memory. The law says when the record has in the end what the last call of
-- `updateServer` gave it, and the versions that the server reported last.
import Aods.ServerDb

open machine std_map runs
open util.helper util.json
open py.deploy_ctrl (dictGet getText Draw)
open py.deploy_db py.db_engine py.server_db

namespace lost_updates

/-! ## The model -/

/-- The version and the hash that a record has for a module. -/
def pairAt (srv : Srv) (pmk : Bytes) : Option Bytes × Option Bytes :=
  match srv.deploy with
  | none => (none, none)
  | some deploy => ((deployedAt deploy pmk).version, (deployedAt deploy pmk).hash)

/-- The flag, the location and the ma of a record. -/
def info (srv : Srv) : Bytes × Option Bytes × Option Bytes := (srv.flag, srv.location, srv.ma)

/-- A record has what a call gave it. -/
def Carries (si : ServerInfo) (srv : Srv) : Prop :=
  some srv.flag = si.flag ∧ srv.location = some (si.location.getD []) ∧
    srv.ma = some (si.ma.getD [])

/-- The system, and for one server what its last set was, what the last call that returned
'success' gave it, and the last pair it reported for each module. -/
structure Tracked where
  db : Db
  lastSet : Option (Nat × ServerInfo)
  succeeded : Option ServerInfo
  checked : StdMap (Option Bytes × Option Bytes)

/-- A report that is handled: the server is in memory and has a `deploy`. -/
def handled (rid : Bytes) (s : Db) (k : Bytes) (v : CJson) : Bool :=
  k = text "check_update" && getText v "rid" = some rid &&
    ((s.dc.srvs.lookup rid).bind (·.deploy)).isSome

/-- What an event adds to the account. -/
def account (rid : Bytes) (t : Tracked) : Event → Tracked
  | .consume k v _ =>
    if handled rid t.db k v then
      { t with checked := t.checked.insert (t.db.dc.reportKey v) ((reported v).version,
        (reported v).hash) }
    else t
  | .set id =>
    match t.db.calls id with
    | some ⟨si, srv, false⟩ =>
      if si.rid = rid ∧ (updated si srv).isSome then { t with lastSet := some (id, si) } else t
    | _ => t
  | .ret id success =>
    match t.db.calls id with
    | some ⟨si, _, true⟩ => if si.rid = rid ∧ success then { t with succeeded := some si } else t
    | _ => t
  | _ => t

def track (rid : Bytes) : Handler Tracked Event Out Fault
  | t, e => .ok ({ account rid t e with db := (step t.db e).1 }, (step t.db e).2)

def begin (index : Int) (db_mgr : StdMap Srv) (db_pub : StdMap Published) (pub_keys : List Bytes) :
    Tracked :=
  ⟨start index db_mgr db_pub pub_keys, none, none, ∅⟩

/-! ## When nothing is lost -/

/-- The flag, the location and the ma in memory are those of the database. -/
def SameInfo (rid : Bytes) (s : Db) : Prop :=
  ∀ srv d, s.dc.srvs.lookup rid = some srv → s.db_mgr.lookup rid = some d → info srv = info d

/-- A call that has set the server and has not returned. -/
def Pending (rid : Bytes) (t : Tracked) (id : Nat) : Prop :=
  ∃ c, t.db.calls id = some c ∧ c.set = true ∧ c.si.rid = rid

/-- The control writes the server only with the info that the database has, and activates it only
before it reports. A call sets it only while the versions that it read are those of the
database, and returns 'success' as the last one that set it, or while that one runs.
The last one does not fail. -/
def Fits (rid : Bytes) (_ : List (Event × List Out)) (t : Tracked) : Event → Prop
  | .consume k v _ =>
    getText v "rid" = some rid →
      (k = text "check_update" →
        (∃ srv deploy, t.db.dc.srvs.lookup rid = some srv ∧ srv.deploy = some deploy ∧
          deployedAt deploy (t.db.dc.reportKey v) ≠ reported v) → SameInfo rid t.db) ∧
      (k = text "active_suc" → t.db.dc.srvs.lookup rid ≠ none → SameInfo rid t.db ∧ t.checked = ∅)
  | .set id => ∀ c, t.db.calls id = some c → c.set = false → c.si.rid = rid →
      ∀ d, t.db.db_mgr.lookup rid = some d → ∀ pmk, pairAt c.srv pmk = pairAt d pmk
  | .ret id success => ∀ c, t.db.calls id = some c → c.set = true → c.si.rid = rid →
      ∀ last si, t.lastSet = some (last, si) →
        if success then last = id ∨ Pending rid t last else last ≠ id
  | .delete r => r ≠ rid
  | .restart _ _ => False
  | _ => True

/-- Memory and database have the same versions. The last set is in the database, and its call
runs or has succeeded. Each module has the pair that was reported last. -/
structure Inv (rid : Bytes) (t : Tracked) : Prop where
  mine : ∀ srv, t.db.dc.srvs.lookup rid = some srv → rid.take 2 = t.db.dc.index
  loaded : rid.take 2 = t.db.dc.index → t.db.dc.srvs.lookup rid = none →
    t.db.db_mgr.lookup rid = none
  saved : ∀ srv, t.db.dc.srvs.lookup rid = some srv → srv.deploy ≠ none →
    t.db.db_mgr.lookup rid ≠ none
  agree : ∀ srv d, t.db.dc.srvs.lookup rid = some srv → t.db.db_mgr.lookup rid = some d →
    ∀ pmk, pairAt srv pmk = pairAt d pmk
  set : ∀ id si, t.lastSet = some (id, si) →
    si.rid = rid ∧ (∃ d, t.db.db_mgr.lookup rid = some d ∧ Carries si d) ∧
    (Pending rid t id ∨ t.succeeded = some si)
  same : ∀ id si c, t.lastSet = some (id, si) → t.db.calls id = some c → c.set = true →
    c.si.rid = rid → c.si = si
  read : ∀ id c, t.db.calls id = some c → c.si.rid = rid → t.db.db_mgr.lookup rid ≠ none
  pending : ∀ id c, t.db.calls id = some c → c.set = true → c.si.rid = rid → t.lastSet ≠ none
  done : t.succeeded ≠ none → t.lastSet ≠ none
  checked : ∀ pmk p, t.checked.lookup pmk = some p →
    ∃ srv, t.db.dc.srvs.lookup rid = some srv ∧ srv.deploy ≠ none ∧ pairAt srv pmk = p

variable {rid : Bytes} {t t' : Tracked} {e : Event} {os : List Out} {es : List (Event × List Out)}

/-! ## Records -/

theorem pairAt_none {srv : Srv} (h : srv.deploy = none) (pmk : Bytes) :
    pairAt srv pmk = (none, none) := by
  unfold pairAt
  rw [h]

theorem pairAt_some {srv : Srv} {deploy : StdMap Deployed} (h : srv.deploy = some deploy)
    (pmk : Bytes) :
    pairAt srv pmk = ((deployedAt deploy pmk).version, (deployedAt deploy pmk).hash) := by
  unfold pairAt
  rw [h]

theorem pairAt_json (srv : Srv) (pmk : Bytes) : pairAt srv.json pmk = pairAt srv pmk := by
  cases hdeploy : srv.deploy with
  | none =>
    have hjson : srv.json.deploy = none := by
      unfold Srv.json
      rw [hdeploy]
      rfl
    rw [pairAt_none hdeploy, pairAt_none hjson]
  | some deploy =>
    have hjson : srv.json.deploy =
        some (mapValues (fun d => { d with listed := true }) deploy) := by
      unfold Srv.json
      rw [hdeploy]
      rfl
    rw [pairAt_some hdeploy, pairAt_some hjson]
    unfold deployedAt
    rw [find_mapValues]
    cases deploy.lookup pmk with
    | none => rfl
    | some d => rfl

theorem pairAt_report {srv : Srv} {deploy : StdMap Deployed} (h : srv.deploy = some deploy)
    (key : Bytes) (now : Deployed) (pmk : Bytes) :
    pairAt (srv.report deploy key now) pmk = if pmk = key then (now.version, now.hash) else
      pairAt srv pmk := by
  have hreport : (srv.report deploy key now).deploy = some (deploy.insert key now) := rfl
  rw [pairAt_some hreport, pairAt_some h]
  unfold deployedAt
  rw [find_insert]
  split
  · rfl
  · rfl

theorem updated_spec {si : ServerInfo} {srv srv' : Srv} (h : updated si srv = some srv') :
    (∀ pmk, pairAt srv' pmk = pairAt srv pmk) ∧ Carries si srv' := by
  unfold updated at h
  rw [Option.map_eq_some_iff] at h
  obtain ⟨flag, hflag, rfl⟩ := h
  exact ⟨fun _ => rfl, hflag.symm, rfl, rfl⟩

theorem Carries.info {si : ServerInfo} {srv d : Srv} (h : Carries si d)
    (hsame : info srv = info d) : Carries si srv := by
  unfold lost_updates.info at hsame
  injection hsame with hflag hrest
  injection hrest with hlocation hma
  unfold Carries
  rw [hflag, hlocation, hma]
  exact h

/-! ## Messages -/

theorem handled_iff (s : Db) (k : Bytes) (v : CJson) :
    handled rid s k v = true ↔ k = text "check_update" ∧ getText v "rid" = some rid ∧
      ∃ srv deploy, s.dc.srvs.lookup rid = some srv ∧ srv.deploy = some deploy := by
  unfold handled
  rw [Bool.and_eq_true, Bool.and_eq_true, decide_eq_true_eq, decide_eq_true_eq, and_assoc,
    Option.isSome_iff_exists]
  simp only [Option.bind_eq_some_iff]
  constructor
  · rintro ⟨hk, hrid, deploy, srv, hsrv, hdeploy⟩
    exact ⟨hk, hrid, srv, deploy, hsrv, hdeploy⟩
  · rintro ⟨hk, hrid, srv, deploy, hsrv, hdeploy⟩
    exact ⟨hk, hrid, deploy, srv, hsrv, hdeploy⟩

/-- A record that the control writes to both sides, with the info that the database has. -/
theorem Inv.write (h : Inv rid t) {srv m : Srv} (hsrv : t.db.dc.srvs.lookup rid = some srv)
    (hsame : SameInfo rid t.db) (hinfo : info m = info srv)
    (hindex : t'.db.dc.index = t.db.dc.index) (hcalls : t'.db.calls = t.db.calls)
    (hmem : t'.db.dc.srvs.lookup rid = some m) (hdb : t'.db.db_mgr.lookup rid = some m.json)
    (hset : t'.lastSet = t.lastSet) (hdone : t'.succeeded = t.succeeded)
    (hchecked : ∀ pmk p, t'.checked.lookup pmk = some p → m.deploy ≠ none ∧ pairAt m pmk = p) :
    Inv rid t' where
  mine := by
    intro _ _
    rw [hindex]
    exact h.mine srv hsrv
  loaded := by
    intro _ hnone
    rw [hmem] at hnone
    cases hnone
  saved := by
    intro _ _ _
    rw [hdb]
    exact Option.some_ne_none _
  agree := by
    intro srv' d hsrv' hd pmk
    rw [hmem] at hsrv'
    rw [hdb] at hd
    cases hsrv'
    cases hd
    exact (pairAt_json m pmk).symm
  set := by
    intro id si hlast
    rw [hset] at hlast
    obtain ⟨hrid, ⟨d, hd, hcarries⟩, hstate⟩ := h.set id si hlast
    refine ⟨hrid, ⟨m.json, hdb, ?_⟩, ?_⟩
    · apply hcarries.info
      have hmd : info m.json = info m := rfl
      rw [hmd, hinfo]
      exact hsame srv d hsrv hd
    · unfold Pending
      rw [hcalls, hdone]
      exact hstate
  same := by
    rw [hset, hcalls]
    exact h.same
  read := by
    intro _ _ _ _
    rw [hdb]
    exact Option.some_ne_none _
  pending := by
    rw [hset, hcalls]
    exact h.pending
  done := by
    rw [hset, hdone]
    exact h.done
  checked := by
    intro pmk p hp
    obtain ⟨hdeploy, hpair⟩ := hchecked pmk p hp
    exact ⟨m, hmem, hdeploy, hpair⟩

/-- Only the record itself, the calls and the account count. -/
theorem Inv.congr (h : Inv rid t) (hindex : t'.db.dc.index = t.db.dc.index)
    (hcalls : t'.db.calls = t.db.calls)
    (hmem : t'.db.dc.srvs.lookup rid = t.db.dc.srvs.lookup rid)
    (hdb : t'.db.db_mgr.lookup rid = t.db.db_mgr.lookup rid)
    (hset : t'.lastSet = t.lastSet) (hdone : t'.succeeded = t.succeeded)
    (hchecked : ∀ pmk p, t'.checked.lookup pmk = some p →
      ∃ srv, t.db.dc.srvs.lookup rid = some srv ∧ srv.deploy ≠ none ∧ pairAt srv pmk = p) :
      Inv rid t' where
  mine := by
    rw [hmem, hindex]
    exact h.mine
  loaded := by
    rw [hmem, hindex, hdb]
    exact h.loaded
  saved := by
    rw [hmem, hdb]
    exact h.saved
  agree := by
    rw [hmem, hdb]
    exact h.agree
  set := by
    unfold Pending
    rw [hset, hdone, hdb, hcalls]
    exact h.set
  same := by
    rw [hset, hcalls]
    exact h.same
  read := by
    rw [hcalls, hdb]
    exact h.read
  pending := by
    rw [hset, hcalls]
    exact h.pending
  done := by
    rw [hset, hdone]
    exact h.done
  checked := by
    rw [hmem]
    exact hchecked

/-- A record that the control enters in memory only, of a server that neither side had. -/
theorem Inv.entered (h : Inv rid t) {srv : Srv} (hmine : rid.take 2 = t.db.dc.index)
    (hnew : t.db.dc.srvs.lookup rid = none) (hdeploy : srv.deploy = none)
    (hindex : t'.db.dc.index = t.db.dc.index) (hcalls : t'.db.calls = t.db.calls)
    (hmem : t'.db.dc.srvs.lookup rid = some srv)
    (hdb : t'.db.db_mgr.lookup rid = t.db.db_mgr.lookup rid) (hset : t'.lastSet = t.lastSet)
    (hdone : t'.succeeded = t.succeeded) (hchecked : t'.checked = t.checked) : Inv rid t' := by
  have hnone : t.db.db_mgr.lookup rid = none := h.loaded hmine hnew
  refine ⟨?_, ?_, ?_, ?_, ?_, ?_, ?_, ?_, ?_, ?_⟩
  · intro _ _
    rw [hindex]
    exact hmine
  · intro _ hn
    rw [hmem] at hn
    cases hn
  · intro srv' hsrv' hne
    rw [hmem] at hsrv'
    cases hsrv'
    exact absurd hdeploy hne
  · intro _ d _ hd
    rw [hdb, hnone] at hd
    cases hd
  · intro id si hlast
    rw [hset] at hlast
    obtain ⟨_, ⟨d, hd, _⟩, _⟩ := h.set id si hlast
    rw [hnone] at hd
    cases hd
  · rw [hset, hcalls]
    exact h.same
  · rw [hcalls, hdb]
    exact h.read
  · rw [hcalls, hset]
    exact h.pending
  · rw [hdone, hset]
    exact h.done
  · intro pmk p hp
    rw [hchecked] at hp
    obtain ⟨srv', hsrv', _⟩ := h.checked pmk p hp
    rw [hnew] at hsrv'
    cases hsrv'

theorem account_handled {k : Bytes} {v : CJson} (draws : List Draw)
    (h : handled rid t.db k v = true) :
    account rid t (.consume k v draws) =
      { t with checked := t.checked.insert (t.db.dc.reportKey v) ((reported v).version,
        (reported v).hash) } :=
  if_pos h

theorem account_other {k : Bytes} {v : CJson} (draws : List Draw)
    (h : ¬ handled rid t.db k v = true) :
    account rid t (.consume k v draws) = t := if_neg h

theorem Inv.consume (h : Inv rid t) {k : Bytes} {v : CJson} (draws : List Draw)
    (hok : Fits rid es t (.consume k v draws)) :
    Inv rid
      { account rid t (.consume k v draws) with db := (step t.db (.consume k v draws)).1 } := by
  obtain ⟨hindex, hcalls⟩ := consume_index t.db k v draws
  have hother : k ≠ text "check_update" → account rid t (.consume k v draws) = t := by
    intro hk
    exact account_other draws (fun hh => hk ((handled_iff t.db k v).mp hh).1)
  cases consume_consumed t.db k v draws rid with
  | kept hmem hdb hsame =>
    by_cases hhandled : handled rid t.db k v = true
    · obtain ⟨hk, hrid, srv, deploy, hsrv, hdeploy⟩ := (handled_iff t.db k v).mp hhandled
      have hpair := hsame hrid hk rid srv deploy hrid hsrv hdeploy
      rw [account_handled draws hhandled]
      refine Inv.congr h ?_ ?_ ?_ ?_ ?_ ?_ ?_
      · exact hindex
      · exact hcalls
      · exact hmem
      · exact hdb
      · rfl
      · rfl
      intro pmk p hp
      rcases find_insert_some.mp hp with ⟨rfl, rfl⟩ | ⟨_, hp⟩
      · refine ⟨srv, hsrv, by rw [hdeploy]; exact Option.some_ne_none _, ?_⟩
        rw [pairAt_some hdeploy, hpair]
      · exact h.checked pmk p hp
    · rw [account_other draws hhandled]
      exact h.congr hindex hcalls hmem hdb rfl rfl h.checked
  | entered srv hk hnew hmine hmem hdeploy hdb =>
    rw [hother (by rw [hk]; decide)]
    exact h.entered hmine hnew hdeploy hindex hcalls hmem hdb rfl rfl rfl
  | activated srv active_code hk hrid hsrv hmem hdb =>
    rw [hother (by rw [hk]; decide)]
    obtain ⟨_, hactive⟩ := hok hrid
    obtain ⟨hsame, hnothing⟩ := hactive hk (by rw [hsrv]; exact Option.some_ne_none _)
    refine h.write hsrv hsame ?_ hindex hcalls hmem hdb rfl rfl ?_
    · rfl
    · intro pmk p hp
      dsimp only at hp
      rw [hnothing] at hp
      cases hp
  | checked srv deploy hk hrid hsrv hdeploy hdiffer hmem hdb =>
    obtain ⟨hcheck, _⟩ := hok hrid
    have hsame := hcheck hk ⟨srv, deploy, hsrv, hdeploy, hdiffer⟩
    rw [account_handled draws ((handled_iff t.db k v).mpr ⟨hk, hrid, srv, deploy, hsrv, hdeploy⟩)]
    refine h.write hsrv hsame ?_ hindex hcalls hmem hdb rfl rfl ?_
    · rfl
    · intro pmk p hp
      refine ⟨Option.some_ne_none _, ?_⟩
      rw [pairAt_report hdeploy]
      rcases find_insert_some.mp hp with ⟨rfl, rfl⟩ | ⟨hne, hp⟩
      · rw [if_pos rfl]
      · obtain ⟨srv', hsrv', _, hpair⟩ := h.checked pmk p hp
        rw [hsrv] at hsrv'
        cases hsrv'
        rw [if_neg hne]
        exact hpair

/-! ## Calls of `updateServer` -/

theorem update_some {calls : Nat → Option Call} {id id' : Nat} {c : Option Call} {c' : Call}
    (h : Function.update calls id c id' = some c') :
    (id' = id ∧ c = some c') ∨ (id' ≠ id ∧ calls id' = some c') := by
  by_cases he : id' = id
  · rw [he, Function.update_self] at h
    exact Or.inl ⟨he, h⟩
  · rw [Function.update_of_ne he] at h
    exact Or.inr ⟨he, h⟩

/-- A change of the calls that have not set anything yet, or a return. -/
theorem Inv.calls (h : Inv rid t) {calls : Nat → Option Call} {succeeded : Option ServerInfo}
    (hread : ∀ id c, calls id = some c → c.si.rid = rid → t.db.db_mgr.lookup rid ≠ none)
    (hset : ∀ id c, calls id = some c → c.set = true → t.db.calls id = some c)
    (hdone : succeeded ≠ none → t.lastSet ≠ none)
    (hlast : ∀ id si, t.lastSet = some (id, si) →
      (∃ c, calls id = some c ∧ c.set = true ∧ c.si.rid = rid) ∨ succeeded = some si) :
    Inv rid { t with db := { t.db with calls := calls }, succeeded := succeeded } where
  mine := h.mine
  loaded := h.loaded
  saved := h.saved
  agree := h.agree
  set := by
    intro id si hl
    obtain ⟨hrid, hcarries, _⟩ := h.set id si hl
    exact ⟨hrid, hcarries, hlast id si hl⟩
  same := by
    intro id si c hl hc hcset hrid
    exact h.same id si c hl (hset id c hc hcset) hcset hrid
  read := hread
  pending := by
    intro id c hc hcset hrid
    exact h.pending id c (hset id c hc hcset) hcset hrid
  done := hdone
  checked := h.checked

/-- A call that has set nothing may come and go. -/
theorem Inv.unset (h : Inv rid t) {id : Nat} {c : Option Call}
    (hid : ∀ c', t.db.calls id = some c' → c'.set = false)
    (hc : ∀ c', c = some c' → c'.set = false ∧ (c'.si.rid = rid → t.db.db_mgr.lookup rid ≠ none)) :
    Inv rid { t with db := t.db.put id c } := by
  apply h.calls
  · intro id' c' hc' hrid
    rcases update_some hc' with ⟨_, hc'⟩ | ⟨_, hc'⟩
    · exact (hc c' hc').2 hrid
    · exact h.read id' c' hc' hrid
  · intro id' c' hc' hset
    rcases update_some hc' with ⟨_, hc'⟩ | ⟨_, hc'⟩
    · rw [(hc c' hc').1] at hset
      cases hset
    · exact hc'
  · exact h.done
  · intro last si hl
    obtain ⟨_, _, ⟨c', hc', hset, hrid⟩ | hsuc⟩ := h.set last si hl
    · have he : last ≠ id := by
        rintro rfl
        rw [hid c' hc'] at hset
        cases hset
      exact Or.inl ⟨c', (Function.update_of_ne he _ _).trans hc', hset, hrid⟩
    · exact Or.inr hsuc

theorem Inv.get (h : Inv rid t) (id : Nat) (si : ServerInfo) :
    Inv rid { account rid t (.get id si) with db := (step t.db (.get id si)).1 } := by
  have haccount : account rid t (.get id si) = t := rfl
  rw [haccount]
  unfold step
  dsimp only
  split
  · rename_i srv hnone hsrv
    apply h.unset
    · intro c' hc'
      rw [hnone] at hc'
      cases hc'
    · intro c' hc'
      cases hc'
      refine ⟨rfl, fun hrid => ?_⟩
      rw [← hrid, hsrv]
      exact Option.some_ne_none _
  · exact h

/-- A call that sets the server, with the versions that the database has. -/
theorem Inv.setServer (h : Inv rid t) {id : Nat} {si : ServerInfo} {srv srv' : Srv}
    (hcall : t.db.calls id = some ⟨si, srv, false⟩) (hrid : si.rid = rid)
    (hupdated : updated si srv = some srv')
    (hfits : ∀ d, t.db.db_mgr.lookup rid = some d → ∀ pmk, pairAt srv pmk = pairAt d pmk) :
    Inv rid { t with lastSet := some (id, si),
                     db := ({ t.db with db_mgr := t.db.db_mgr.insert si.rid srv'.json } : Db).put id
                       (some ⟨si, srv, true⟩) } := by
  subst hrid
  obtain ⟨hpairs, hcarries⟩ := updated_spec hupdated
  obtain ⟨d, hd⟩ := Option.ne_none_iff_exists'.mp (h.read id _ hcall rfl)
  have hset : (t.db.db_mgr.insert si.rid srv'.json).lookup si.rid = some srv'.json :=
    (find_insert _ _ _ _).trans (if_pos rfl)
  constructor
  · exact h.mine
  · intro hmine hnone
    rw [h.loaded hmine hnone] at hd
    cases hd
  · intro _ _ _ hnone
    cases hset.symm.trans hnone
  · intro m d' hm hd' pmk
    cases hset.symm.trans hd'
    rw [pairAt_json, hpairs, hfits d hd]
    exact h.agree m d hm hd pmk
  · intro last si' hlast
    cases hlast
    exact ⟨rfl, ⟨srv'.json, hset, hcarries⟩, Or.inl ⟨_, Function.update_self id _ _, rfl, rfl⟩⟩
  · intro last si' c hlast hc _ _
    cases hlast
    have hself : Function.update t.db.calls id (some ⟨si, srv, true⟩) id = some ⟨si, srv, true⟩ :=
      Function.update_self id _ _
    cases hself.symm.trans hc
    rfl
  · intro _ _ _ _ hnone
    cases hset.symm.trans hnone
  · intro _ _ _ _ _ hnone
    cases hnone
  · intro _ hnone
    cases hnone
  · exact h.checked

theorem Inv.setOther (h : Inv rid t) {id : Nat} {si : ServerInfo} {srv srv' : Srv}
    (hcall : t.db.calls id = some ⟨si, srv, false⟩) (hrid : si.rid ≠ rid) :
    Inv rid
      { t with
        db := ({ t.db with db_mgr := t.db.db_mgr.insert si.rid srv'.json } : Db).put id
          (some ⟨si, srv, true⟩) } := by
  have hdb : (t.db.db_mgr.insert si.rid srv'.json).lookup rid = t.db.db_mgr.lookup rid :=
    (find_insert _ _ _ _).trans (if_neg (fun he => hrid he.symm))
  have hkept : Inv rid
      { t with db := { t.db with db_mgr := t.db.db_mgr.insert si.rid srv'.json } } :=
    Inv.congr h rfl rfl rfl hdb rfl rfl h.checked
  -- the call is of another server, so it counts neither before nor behind
  have hother : ∀ id' c, Function.update t.db.calls id (some ⟨si, srv, true⟩) id' = some c →
      c.si.rid = rid →
      id' ≠ id ∧ t.db.calls id' = some c := by
    intro id' c hc hr
    rcases update_some hc with ⟨_, hc⟩ | hc
    · cases hc
      exact absurd hr hrid
    · exact hc
  refine ⟨hkept.mine, hkept.loaded, hkept.saved, hkept.agree, ?_, ?_, ?_, ?_, hkept.done,
    hkept.checked⟩
  · intro last si' hlast
    obtain ⟨hr, hcarries, hstate⟩ := hkept.set last si' hlast
    refine ⟨hr, hcarries, ?_⟩
    rcases hstate with ⟨c, hc, hcset, hcrid⟩ | hsuc
    · have he : last ≠ id := by
        rintro rfl
        cases hcall.symm.trans hc
        exact hrid hcrid
      exact Or.inl ⟨c, (Function.update_of_ne he _ _).trans hc, hcset, hcrid⟩
    · exact Or.inr hsuc
  · intro last si' c hlast hc hcset hcrid
    exact hkept.same last si' c hlast (hother last c hc hcrid).2 hcset hcrid
  · intro id' c hc hcrid
    exact hkept.read id' c (hother id' c hc hcrid).2 hcrid
  · intro id' c hc hcset hcrid
    exact hkept.pending id' c (hother id' c hc hcrid).2 hcset hcrid

theorem Inv.set_step (h : Inv rid t) (id : Nat) (hok : Fits rid es t (.set id)) :
    Inv rid { account rid t (.set id) with db := (step t.db (.set id)).1 } := by
  cases hcall : t.db.calls id with
  | none =>
    simp only [account, step, hcall]
    exact h
  | some c =>
    obtain ⟨si, srv, set⟩ := c
    cases set with
    | true =>
      simp only [account, step, hcall]
      exact h
    | false =>
      simp only [account, step, hcall]
      cases hupdated : updated si srv with
      | none =>
        rw [if_neg (by simp)]
        apply h.unset
        · intro c' hc'
          cases hcall.symm.trans hc'
          rfl
        · intro c' hc'
          cases hc'
      | some srv' =>
        by_cases hrid : si.rid = rid
        · rw [if_pos ⟨hrid, rfl⟩]
          exact h.setServer hcall hrid hupdated (hok _ hcall rfl hrid)
        · rw [if_neg (fun he => hrid he.1)]
          exact h.setOther hcall hrid

theorem Inv.ret (h : Inv rid t) (id : Nat) (success : Bool)
    (hok : Fits rid es t (.ret id success)) :
    Inv rid { account rid t (.ret id success) with db := (step t.db (.ret id success)).1 } := by
  cases hcall : t.db.calls id with
  | none =>
    simp only [account, step, hcall]
    exact h
  | some c =>
    obtain ⟨si, srv, set⟩ := c
    cases set with
    | false =>
      simp only [account, step, hcall]
      exact h
    | true =>
      simp only [account, step, hcall]
      have hset : ∀ id' c, Function.update t.db.calls id none id' = some c → c.set = true →
          t.db.calls id' = some c := by
        intro id' c hc _
        rcases update_some hc with ⟨_, hc⟩ | ⟨_, hc⟩
        · cases hc
        · exact hc
      have hread : ∀ id' c, Function.update t.db.calls id none id' = some c → c.si.rid = rid →
          t.db.db_mgr.lookup rid ≠ none := by
        intro id' c hc hrid
        rcases update_some hc with ⟨_, hc⟩ | ⟨_, hc⟩
        · cases hc
        · exact h.read id' c hc hrid
      -- a call that set the server last and is not this one still runs
      have hothers : ∀ last, last ≠ id → Pending rid t last →
          ∃ c, Function.update t.db.calls id none last = some c ∧ c.set = true ∧
              c.si.rid = rid := by
        rintro last he ⟨c, hc, hcset, hcrid⟩
        exact ⟨c, (Function.update_of_ne he _ _).trans hc, hcset, hcrid⟩
      by_cases hrid : si.rid = rid
      · have hreturns := hok _ hcall rfl hrid
        cases success with
        | true =>
          rw [if_pos ⟨hrid, rfl⟩]
          apply h.calls hread hset
          · intro _
            exact h.pending id _ hcall rfl hrid
          · intro last si' hlast
            rcases hreturns last si' hlast with rfl | hpending
            · have hsame := h.same last si' _ hlast hcall rfl hrid
              exact Or.inr (congrArg some hsame)
            · by_cases he : last = id
              · subst he
                have hsame := h.same last si' _ hlast hcall rfl hrid
                exact Or.inr (congrArg some hsame)
              · exact Or.inl (hothers last he hpending)
        | false =>
          rw [if_neg (by simp)]
          apply h.calls hread hset h.done
          intro last si' hlast
          have he : last ≠ id := hreturns last si' hlast
          obtain ⟨_, _, hpending | hsuc⟩ := h.set last si' hlast
          · exact Or.inl (hothers last he hpending)
          · exact Or.inr hsuc
      · rw [if_neg (fun he => hrid he.1)]
        apply h.calls hread hset h.done
        intro last si' hlast
        obtain ⟨_, _, hpending | hsuc⟩ := h.set last si' hlast
        · have he : last ≠ id := by
            rintro rfl
            obtain ⟨c, hc, _, hcrid⟩ := hpending
            cases hcall.symm.trans hc
            exact hrid hcrid
          exact Or.inl (hothers last he hpending)
        · exact Or.inr hsuc

/-! ## The law -/

theorem inv_begin (rid : Bytes) (index : Int) (db_mgr : StdMap Srv) (db_pub : StdMap Published)
    (pub_keys : List Bytes) :
    Inv rid (begin index db_mgr db_pub pub_keys) := by
  have hlookup : ((init index).initDb db_mgr db_pub pub_keys).srvs.lookup rid =
      if (init index).index <+: rid then db_mgr.lookup rid else none := initDb_lookup _ _ _ _ _
  have hmem : ∀ srv, ((init index).initDb db_mgr db_pub pub_keys).srvs.lookup rid = some srv →
      (init index).index <+: rid ∧ db_mgr.lookup rid = some srv := by
    intro srv hsrv
    rw [hlookup] at hsrv
    split at hsrv
    · rename_i hbegins
      exact ⟨hbegins, hsrv⟩
    · cases hsrv
  constructor
  · intro srv hsrv
    exact (begins_iff (init index) rid).mp (hmem srv hsrv).1
  · intro hmine hnone
    have hbegins := (begins_iff (init index) rid).mpr hmine
    have hnone' := hlookup.symm.trans hnone
    rw [if_pos hbegins] at hnone'
    exact hnone'
  · intro srv hsrv _ hnone
    cases (hmem srv hsrv).2.symm.trans hnone
  · intro srv d hsrv hd pmk
    cases (hmem srv hsrv).2.symm.trans hd
    rfl
  · intro _ _ hlast
    cases hlast
  · intro _ _ _ hlast
    cases hlast
  · intro _ _ hc
    cases hc
  · intro _ _ hc
    cases hc
  · intro hnone
    exact absurd rfl hnone
  · intro _ _ hp
    cases hp

theorem Inv.step (h : Inv rid t) (hok : Fits rid es t e) (hstep : track rid t e = .ok (t', os)) :
    Inv rid t' := by
  cases hstep
  cases e with
  | consume k v draws => exact h.consume draws hok
  | get id si => exact h.get id si
  | set id => exact h.set_step id hok
  | ret id success => exact h.ret id success hok
  | delete r =>
    refine Inv.congr h ?_ ?_ ?_ ?_ ?_ ?_ ?_
    · rfl
    · rfl
    · rfl
    · exact (find_erase _ _ _).trans (if_neg (fun he => hok he.symm))
    · rfl
    · rfl
    · exact h.checked
  | restart db_pub pub_keys => exact hok.elim

/-- In a run in which nothing is written over, the record has, once all calls have returned, what
the last successful call gave it, and at any time the pair that was reported last for each
module. -/
theorem nothing_is_lost {index : Int} {db_mgr : StdMap Srv} {db_pub : StdMap Published}
    {pub_keys : List Bytes}
    (h : Run (track rid) (Fits rid) (begin index db_mgr db_pub pub_keys) es t) :
    ((∀ id, ¬ Pending rid t id) → ∀ si, t.succeeded = some si →
      ∃ d, t.db.db_mgr.lookup rid = some d ∧ Carries si d) ∧
    ∀ pmk p, t.checked.lookup pmk = some p → ∃ d, t.db.db_mgr.lookup rid = some d ∧
      pairAt d pmk = p := by
  have hinv : Inv rid t := by
    refine Run.invariant (I := fun _ t => Inv rid t) (inv_begin rid index db_mgr db_pub pub_keys) ?_
      h
    intro es t e t' os hinv hok hstep
    exact hinv.step hok hstep
  constructor
  · intro hnone si hsuc
    have hset : t.lastSet ≠ none := hinv.done (by rw [hsuc]; exact Option.some_ne_none _)
    obtain ⟨⟨id, si'⟩, hlast⟩ := Option.ne_none_iff_exists'.mp hset
    obtain ⟨_, hcarries, hstate⟩ := hinv.set id si' hlast
    have hsuc' := hstate.resolve_left (hnone id)
    cases hsuc.symm.trans hsuc'
    exact hcarries
  · intro pmk p hp
    obtain ⟨srv, hsrv, hdeploy, hpair⟩ := hinv.checked pmk p hp
    obtain ⟨d, hd⟩ := Option.ne_none_iff_exists'.mp (hinv.saved srv hsrv hdeploy)
    refine ⟨d, hd, ?_⟩
    rw [← hinv.agree srv d hsrv hd]
    exact hpair

/-- What a call gives the server. -/
def given : ServerInfo := ⟨oneRid, some [102], none, none⟩

theorem a_report_and_a_call_are_both_kept :
    ∃ es t, Run (track oneRid) (Fits oneRid) ⟨oneDb, none, none, ∅⟩ es t ∧
      es.map (·.1) = [.ret 0 true, .set 0, .get 0 given, reports] ∧
      ((∀ id, ¬ Pending oneRid t id) → ∀ si, t.succeeded = some si →
        ∃ d, t.db.db_mgr.lookup oneRid = some d ∧ Carries si d) ∧
      ∀ pmk p, t.checked.lookup pmk = some p → ∃ d, t.db.db_mgr.lookup oneRid = some d ∧
        pairAt d pmk = p := by
  have hstart : Run (track oneRid) (Fits oneRid) ⟨oneDb, none, none, ∅⟩ [] _ := .start
  have hreported := Run.next (e := reports) hstart (fun _ => by
    refine ⟨fun _ _ srv d hsrv hd => ?_, fun hk => absurd hk (by decide)⟩
    cases hsrv
    cases hd
    rfl) rfl
  have hread := Run.next (e := Event.get 0 given) hreported trivial rfl
  have hset := Run.next (e := Event.set 0) hread (fun c hc _ _ d hd _ => by
    cases hc
    cases hd
    rfl) rfl
  have hreturned := Run.next (e := Event.ret 0 true) hset (fun _ _ _ _ last si hlast => by
    cases hlast
    exact Or.inl rfl) rfl
  exact ⟨_, _, hreturned, rfl, nothing_is_lost hreturned⟩

/-- A call has given the server a flag and has returned. The next report writes the flag back that
the control has in memory. -/
theorem a_report_takes_a_flag_back :
    ∃ es t, Run (track oneRid) Any ⟨oneDb, none, none, ∅⟩ es t ∧
      es.map (·.1) = [reports, .ret 0 true, .set 0, .get 0 given] ∧ (∀ id, ¬ Pending oneRid t id) ∧
      t.succeeded = some given ∧ ¬ ∃ d, t.db.db_mgr.lookup oneRid = some d ∧ Carries given d := by
  have hstart : Run (track oneRid) Any ⟨oneDb, none, none, ∅⟩ [] _ := .start
  have hread := Run.next (e := Event.get 0 given) hstart trivial rfl
  have hset := Run.next (e := Event.set 0) hread trivial rfl
  have hreturned := Run.next (e := Event.ret 0 true) hset trivial rfl
  have hreported := Run.next (e := reports) hreturned trivial rfl
  refine ⟨_, _, hreported, rfl, ?_, rfl, ?_⟩
  · rintro id ⟨c, hc, _⟩
    by_cases hid : id = 0
    · subst hid
      cases hc
    · have hnone : Function.update
          (Function.update (Function.update oneDb.calls 0 (some ⟨given, oneSrv, false⟩)) 0
          (some ⟨given, oneSrv, true⟩)) 0 none id = none := by
        rw [Function.update_of_ne hid, Function.update_of_ne hid, Function.update_of_ne hid]
        rfl
      cases hnone.symm.trans hc
  · rintro ⟨d, hd, hflag, _⟩
    cases hd
    cases hflag

end lost_updates
