-- Messages of the topic `publish` as they come to one `DeployCtrl`, in any order and each once or
-- more often. The law says that the table does not depend on the order, and that the last
-- order for a server and a module is that of the latest message.
import Aods.DbEngine
import Aods.Latest

open machine std_map latest
open py.deploy_ctrl (dictGet getText)
open py.clock py.deploy_db py.db_engine

namespace publish_order

/-! ## The pure model -/

/-- The control after some messages. -/
def deliver (dc : DeployCtrl) (ps : List Publication) : DeployCtrl :=
  ps.foldl (fun dc p => (dealPublish dc p.value).1) dc

/-- The orders in the order in which they go out. -/
def updates (os : List Out) : List UpdateMsg :=
  os.filterMap (fun o => match o with | .produce (.update m) => some m | _ => none)

def ordersOf (dc : DeployCtrl) : List Publication → List UpdateMsg
  | [] => []
  | p :: ps => updates (dealPublish dc p.value).2 ++ ordersOf (dealPublish dc p.value).1 ps

/-- An order is for a server and a module of a project. -/
def For (rid project module : Bytes) (m : UpdateMsg) : Prop :=
  m.rid = rid ∧ m.project = some project ∧ m.module = some module

instance (rid project module : Bytes) (m : UpdateMsg) : Decidable (For rid project module m) :=
  inferInstanceAs (Decidable (_ ∧ _))

def lastOrder (rid project module : Bytes) (ms : List UpdateMsg) : Option UpdateMsg :=
  (ms.filter (fun m => For rid project module m)).getLast?

/-- Messages of one module of a project. -/
def SameModule (p q : Publication) : Prop := p.project = q.project ∧ p.module = q.module

instance (p q : Publication) : Decidable (SameModule p q) := inferInstanceAs (Decidable (_ ∧ _))

/-- The message that is the latest of its module, and no older than what the table had for it. -/
structure Newest (dc : DeployCtrl) (ps : List Publication) (w : Publication) : Prop where
  came : w ∈ ps
  latest : ∀ p ∈ ps, SameModule p w → p.datetime ≤ w.datetime
  notLater : NotLater stamp (dc.publish.lookup (w.key dc)) w.entry

/-- Messages for a control, of projects without '#', no two of one module with one time. -/
structure Deliverable (dc : DeployCtrl) (ps : List Publication) : Prop where
  mine : ∀ p ∈ ps, dc.index ∈ p.groups
  free : ∀ p ∈ ps, 35 ∉ p.project
  distinct : ∀ p ∈ ps, ∀ q ∈ ps, SameModule p q → p.datetime = q.datetime → p = q

variable {dc : DeployCtrl} {p q w : Publication} {ps qs : List Publication} {rid : Bytes}

/-! ## Keys -/

theorem append_hash_inj {a b : Bytes} (ha : 35 ∉ a) (hb : 35 ∉ b) (s t : Bytes) :
    a ++ 35 :: s = b ++ 35 :: t ↔ a = b ∧ s = t := by
  induction a generalizing b with
  | nil =>
    cases b with
    | nil => simp
    | cons y b =>
      have hy : ¬ 35 = y := fun he => hb (by rw [he]; exact List.mem_cons_self)
      simp [hy]
  | cons x a ih =>
    have hx : ¬ x = 35 := fun he => ha (by rw [he]; exact List.mem_cons_self)
    cases b with
    | nil => simp [hx]
    | cons y b =>
      have ha' : 35 ∉ a := fun hm => ha (List.mem_cons_of_mem x hm)
      have hb' : 35 ∉ b := fun hm => hb (List.mem_cons_of_mem y hm)
      rw [List.cons_append, List.cons_append, List.cons.injEq, ih ha' hb', List.cons.injEq]
      tauto

theorem key_eq_iff (dc : DeployCtrl) (hp : 35 ∉ p.project) (hq : 35 ∉ q.project) :
    p.key dc = q.key dc ↔ SameModule p q := by
  unfold Publication.key DeployCtrl.prjModule2Key SameModule
  simp only [pyText, Option.getD_some, List.append_cancel_left_eq, List.cons.injEq, true_and]
  exact append_hash_inj hp hq p.module q.module

/-! ## One message -/

theorem dealPublish_srvs (dc : DeployCtrl) (v : util.json.CJson) :
    (dealPublish dc v).1.srvs = dc.srvs ∧ (dealPublish dc v).1.index = dc.index := by
  unfold dealPublish
  split
  · exact ⟨rfl, rfl⟩
  dsimp only
  split
  · exact ⟨rfl, rfl⟩
  split
  · exact ⟨rfl, rfl⟩
  · exact ⟨rfl, rfl⟩

theorem key_congr {dc' : DeployCtrl} (h : dc'.index = dc.index) (p : Publication) :
    p.key dc' = p.key dc := by
  unfold Publication.key DeployCtrl.prjModule2Key
  rw [h]

/-- What a message makes of the table: its entry takes its place unless the one there is later. -/
theorem dealPublish_publish (h : dc.index ∈ p.groups) (k : Bytes) :
    (dealPublish dc p.value).1.publish.lookup k =
      if k = p.key dc then keepLast stamp (dc.publish.lookup k) p.entry
      else dc.publish.lookup k := by
  rw [dealPublish_value dc p h]
  by_cases hk : k = p.key dc
  · subst hk
    rw [if_pos rfl]
    by_cases hlate : ignored (dc.publish.lookup (p.key dc)) (some p.datetime) = true
    · rw [if_pos hlate]
      obtain ⟨e, he, hlt⟩ := (ignored_iff _ p).mp hlate
      rw [he]
      exact (keepLast_of_later hlt).symm
    · rw [if_neg hlate]
      dsimp only
      rw [find_insert, if_pos rfl]
      symm
      apply keepLast_of_notLater
      intro e he
      by_contra hlt
      exact hlate ((ignored_iff _ p).mpr ⟨e, he, not_le.mp hlt⟩)
  · rw [if_neg hk]
    split
    · rfl
    · dsimp only
      rw [find_insert, if_neg hk]

/-- A message that is no older than the entry there goes to all servers. -/
theorem dealPublish_tells (h : dc.index ∈ p.groups)
    (hnew : NotLater stamp (dc.publish.lookup (p.key dc)) p.entry) :
    updates (dealPublish dc p.value).2 = dc.srvs.keys.map p.order := by
  have hnot : ¬ ignored (dc.publish.lookup (p.key dc)) (some p.datetime) = true := by
    intro hlate
    obtain ⟨e, he, hlt⟩ := (ignored_iff _ p).mp hlate
    exact absurd hlt (not_lt.mpr (hnew e he))
  rw [dealPublish_value dc p h, if_neg hnot]
  unfold updates
  dsimp only
  rw [List.filterMap_map, ← List.filterMap_eq_map]
  rfl

/-- A message goes to all servers or to none. -/
theorem dealPublish_orders (h : dc.index ∈ p.groups) :
    updates (dealPublish dc p.value).2 = dc.srvs.keys.map p.order ∨
      (updates (dealPublish dc p.value).2 = [] ∧ (dealPublish dc p.value).1 = dc) := by
  by_cases hlate : ignored (dc.publish.lookup (p.key dc)) (some p.datetime) = true
  · right
    rw [dealPublish_value dc p h, if_pos hlate]
    exact ⟨rfl, rfl⟩
  · left
    apply dealPublish_tells h
    intro e he
    by_contra hlt
    exact hlate ((ignored_iff _ p).mpr ⟨e, he, not_le.mp hlt⟩)

/-! ## Deliveries -/

theorem deliver_srvs (dc : DeployCtrl) (ps : List Publication) :
    (deliver dc ps).srvs = dc.srvs ∧ (deliver dc ps).index = dc.index := by
  induction ps generalizing dc with
  | nil => exact ⟨rfl, rfl⟩
  | cons p ps ih =>
    obtain ⟨hsrvs, hindex⟩ := dealPublish_srvs dc p.value
    obtain ⟨hsrvs', hindex'⟩ := ih (dealPublish dc p.value).1
    exact ⟨hsrvs'.trans hsrvs, hindex'.trans hindex⟩

/-- A key of the table is a register of the messages of its module. -/
theorem deliver_publish (hmine : ∀ p ∈ ps, dc.index ∈ p.groups) (k : Bytes) :
    (deliver dc ps).publish.lookup k =
      ((ps.filter (fun p => k = p.key dc)).map Publication.entry).foldl (keepLast stamp)
        (dc.publish.lookup k) := by
  induction ps generalizing dc with
  | nil => rfl
  | cons p ps ih =>
    obtain ⟨_, hindex⟩ := dealPublish_srvs dc p.value
    have hstep := dealPublish_publish (hmine p List.mem_cons_self) k
    have hrest : ∀ q ∈ ps, (dealPublish dc p.value).1.index ∈ q.groups := by
      intro q hq
      rw [hindex]
      exact hmine q (List.mem_cons_of_mem p hq)
    have hkeys : ps.filter (fun q => k = q.key (dealPublish dc p.value).1) =
        ps.filter (fun q => k = q.key dc) := by
      apply List.filter_congr
      intro q _
      rw [key_congr hindex]
    have hdeliver : deliver dc (p :: ps) = deliver (dealPublish dc p.value).1 ps := rfl
    rw [hdeliver, ih hrest, hkeys, hstep]
    by_cases hk : k = p.key dc
    · rw [if_pos hk, List.filter_cons_of_pos (by simpa using hk)]
      rfl
    · rw [if_neg hk, List.filter_cons_of_neg (by simpa using hk)]

theorem deliver_mine (dc : DeployCtrl) (ps : List Publication) :
    deliver dc ps = deliver dc (ps.filter (fun p => dc.index ∈ p.groups)) := by
  induction ps generalizing dc with
  | nil => rfl
  | cons p ps ih =>
    have hdeliver : deliver dc (p :: ps) = deliver (dealPublish dc p.value).1 ps := rfl
    by_cases h : dc.index ∈ p.groups
    · obtain ⟨_, hindex⟩ := dealPublish_srvs dc p.value
      rw [List.filter_cons_of_pos (by simpa using h), hdeliver, ih, hindex]
      rfl
    · rw [List.filter_cons_of_neg (by simpa using h), hdeliver, dealPublish_other dc p h]
      exact ih dc

theorem ordersOf_concat (dc : DeployCtrl) (ps : List Publication) (p : Publication) :
    ordersOf dc (ps ++ [p]) =
      ordersOf dc ps ++ updates (dealPublish (deliver dc ps) p.value).2 := by
  induction ps generalizing dc with
  | nil => simp [ordersOf, deliver]
  | cons q ps ih =>
    rw [List.cons_append, ordersOf, ordersOf, ih, List.append_assoc]
    rfl

/-! ## The latest message -/

theorem deliver_newest (h : Deliverable dc ps) (hw : Newest dc ps w) :
    (deliver dc ps).publish.lookup (w.key dc) = some w.entry := by
  have hsame : ∀ p ∈ ps.filter (fun p => w.key dc = p.key dc), p ∈ ps ∧ SameModule p w := by
    intro p hp
    obtain ⟨hp, hk⟩ := List.mem_filter.mp hp
    exact ⟨hp, (key_eq_iff dc (h.free p hp) (h.free w hw.came)).mp (of_decide_eq_true hk).symm⟩
  rw [deliver_publish h.mine]
  apply foldl_keepLast_greatest
  · intro x hx y hy hstamp
    obtain ⟨p, hp, rfl⟩ := List.mem_map.mp hx
    obtain ⟨q, hq, rfl⟩ := List.mem_map.mp hy
    obtain ⟨hp, hpw⟩ := hsame p hp
    obtain ⟨hq, hqw⟩ := hsame q hq
    rw [h.distinct p hp q hq ⟨hpw.1.trans hqw.1.symm, hpw.2.trans hqw.2.symm⟩ hstamp]
  · apply List.mem_map_of_mem
    apply List.mem_filter.mpr
    exact ⟨hw.came, by simp⟩
  · refine ⟨hw.notLater, fun x hx => ?_⟩
    obtain ⟨p, hp, rfl⟩ := List.mem_map.mp hx
    obtain ⟨hp, hpw⟩ := hsame p hp
    exact hw.latest p hp hpw

/-- The order of an entry of the table for a server. -/
def orderOf (rid project module : Bytes) (e : Entry) : UpdateMsg :=
  ⟨rid, some project, some module, e.ver, e.hash, e.url, e.code⟩

theorem orders_for (hrid : rid ∈ dc.srvs.keys) (p : Publication) :
    (dc.srvs.keys.map p.order).filter (fun m => For rid p.project p.module m) = [p.order rid] := by
  have hnodup : dc.srvs.keys.Nodup := dc.srvs.nodupKeys
  have hfor : ∀ r, For rid p.project p.module (p.order r) ↔ r = rid := by
    intro r
    simp [For, Publication.order]
  rw [List.filter_map]
  have hone : dc.srvs.keys.filter ((fun m => decide (For rid p.project p.module m)) ∘ p.order) =
      [rid] := by
    have hcongr : dc.srvs.keys.filter ((fun m => decide (For rid p.project p.module m)) ∘ p.order) =
        dc.srvs.keys.filter (fun r => r == rid) := by
      apply List.filter_congr
      intro r _
      rw [Function.comp_apply, decide_eq_decide.mpr (hfor r)]
      exact (beq_eq_decide r rid).symm
    rw [hcongr, List.filter_beq, List.count_eq_one_of_mem hnodup hrid]
    rfl
  rw [hone]
  rfl

theorem orders_other (hother : ¬ SameModule p w) (keys : List Bytes) :
    (keys.map p.order).filter (fun m => For rid w.project w.module m) = [] := by
  rw [List.filter_eq_nil_iff]
  intro m hm
  obtain ⟨r, _, rfl⟩ := List.mem_map.mp hm
  rw [decide_eq_true_eq]
  rintro ⟨_, hproject, hmodule⟩
  exact hother ⟨Option.some.inj hproject, Option.some.inj hmodule⟩

/-- The table has an entry for the module of a message, and the last order for a server is that
of this entry. -/
def Told (dc : DeployCtrl) (w : Publication) (rid : Bytes) (ms : List UpdateMsg) : Prop :=
  ∃ e, dc.publish.lookup (w.key dc) = some e ∧
    lastOrder rid w.project w.module ms = some (orderOf rid w.project w.module e)

theorem lastOrder_nothing {ms ms' : List UpdateMsg} {project module : Bytes}
    (h : ms'.filter (fun m => For rid project module m) = []) :
    lastOrder rid project module (ms ++ ms') = lastOrder rid project module ms := by
  unfold lastOrder
  rw [List.filter_append, h, List.append_nil]

/-- A message that is no older than the entry there is told at once. -/
theorem told_now {ms : List UpdateMsg} (hmine : dc.index ∈ p.groups) (hsame : SameModule p w)
    (hnew : NotLater stamp (dc.publish.lookup (p.key dc)) p.entry) (hrid : rid ∈ dc.srvs.keys) :
    Told (dealPublish dc p.value).1 w rid (ms ++ updates (dealPublish dc p.value).2) := by
  obtain ⟨_, hindex⟩ := dealPublish_srvs dc p.value
  obtain ⟨hproject, hmodule⟩ := hsame
  have hkey : w.key (dealPublish dc p.value).1 = p.key dc := by
    rw [key_congr hindex]
    unfold Publication.key
    rw [hproject, hmodule]
  refine ⟨p.entry, ?_, ?_⟩
  · rw [hkey, dealPublish_publish hmine, if_pos rfl]
    exact keepLast_of_notLater hnew
  · unfold lastOrder
    rw [dealPublish_tells hmine hnew, List.filter_append, ← hproject, ← hmodule, orders_for hrid,
      List.getLast?_concat]
    rfl

/-- Whatever comes behind it leaves a module told. -/
theorem Told.next {ms : List UpdateMsg} (h : Told dc w rid ms) (hmine : dc.index ∈ p.groups)
    (hp : 35 ∉ p.project) (hw : 35 ∉ w.project) (hrid : rid ∈ dc.srvs.keys) :
    Told (dealPublish dc p.value).1 w rid (ms ++ updates (dealPublish dc p.value).2) := by
  obtain ⟨_, hindex⟩ := dealPublish_srvs dc p.value
  by_cases hsame : SameModule p w
  · by_cases hnew : NotLater stamp (dc.publish.lookup (p.key dc)) p.entry
    · exact told_now hmine hsame hnew hrid
    · rcases dealPublish_orders hmine with htells | ⟨hsilent, hdc⟩
      · -- a message that goes to the servers is no older than the entry there
        exfalso
        apply hnew
        intro e he
        by_contra hlt
        have hlate := (ignored_iff _ p).mpr ⟨e, he, not_le.mp hlt⟩
        rw [dealPublish_value dc p hmine, if_pos hlate] at htells
        have hnil := congrArg List.length htells
        rw [List.length_map] at hnil
        exact absurd (List.length_pos_of_mem hrid) (by rw [← hnil]; exact Nat.lt_irrefl 0)
      · rw [hsilent, hdc, List.append_nil]
        exact h
  · obtain ⟨e, he, hlast⟩ := h
    have hkey : ¬ w.key dc = p.key dc := fun hk => hsame ((key_eq_iff dc hp hw).mp hk.symm)
    refine ⟨e, ?_, ?_⟩
    · rw [key_congr hindex, dealPublish_publish hmine, if_neg hkey]
      exact he
    · rw [lastOrder_nothing]
      · exact hlast
      · rcases dealPublish_orders hmine with htells | ⟨hsilent, _⟩
        · rw [htells]
          exact orders_other hsame _
        · rw [hsilent]
          rfl

/-- From the latest message on a module is told. -/
theorem told_newest (h : Deliverable dc ps) (hw : Newest dc ps w) (hrid : rid ∈ dc.srvs.keys) :
    Told (deliver dc ps) w rid (ordersOf dc ps) := by
  induction ps using List.reverseRecOn with
  | nil => cases hw.came
  | append_singleton ps p ih =>
    obtain ⟨hsrvs, hindex⟩ := deliver_srvs dc ps
    have hp : p ∈ ps ++ [p] := List.mem_append_right _ List.mem_cons_self
    have hbefore : ∀ q ∈ ps, q ∈ ps ++ [p] := fun q hq => List.mem_append_left _ hq
    have hps : Deliverable dc ps :=
      ⟨fun q hq => h.mine q (hbefore q hq), fun q hq => h.free q (hbefore q hq),
      fun q hq r hr => h.distinct q (hbefore q hq) r (hbefore r hr)⟩
    have hdeliver : deliver dc (ps ++ [p]) = (dealPublish (deliver dc ps) p.value).1 := by
      unfold deliver
      rw [List.foldl_append]
      rfl
    have hmine : (deliver dc ps).index ∈ p.groups := by
      rw [hindex]
      exact h.mine p hp
    have hrid' : rid ∈ (deliver dc ps).srvs.keys := by
      rw [hsrvs]
      exact hrid
    rw [hdeliver, ordersOf_concat]
    by_cases hwps : w ∈ ps
    · have htold := ih hps ⟨hwps, fun q hq => hw.latest q (hbefore q hq), hw.notLater⟩
      exact htold.next hmine (h.free p hp) (h.free w hw.came) hrid'
    · -- the latest message comes now, and nothing that came or was there is later
      have hwp : w = p := List.mem_singleton.mp ((List.mem_append.mp hw.came).resolve_left hwps)
      subst hwp
      refine told_now hmine ⟨rfl, rfl⟩ ?_ hrid'
      intro e he
      rw [key_congr hindex, deliver_publish hps.mine] at he
      obtain ⟨hmem, _⟩ := foldl_some keeps_keepLast he
      rcases hmem with hmem | hmem
      · obtain ⟨q, hq, rfl⟩ := List.mem_map.mp hmem
        obtain ⟨hq, hkq⟩ := List.mem_filter.mp hq
        have hqw := (key_eq_iff dc (hps.free q hq) (h.free w hp)).mp (of_decide_eq_true hkq).symm
        exact hw.latest q (hbefore q hq) hqw
      · exact hw.notLater e hmem

/-! ## The law -/

/-- Two orders of the same messages, each once or more often, leave the same table. For each
module the table has the latest message, where it is no older than what was there, and so
has the last order for each server. -/
theorem the_order_of_the_messages_does_not_matter (h : Deliverable dc ps)
    (hsame : ∀ p, p ∈ ps ↔ p ∈ qs) :
    (∀ k, (deliver dc ps).publish.lookup k = (deliver dc qs).publish.lookup k) ∧
    ∀ w, Newest dc ps w → (deliver dc ps).publish.lookup (w.key dc) = some w.entry ∧
      ∀ rid ∈ dc.srvs.keys, lastOrder rid w.project w.module (ordersOf dc ps) =
        some (w.order rid) := by
  refine ⟨fun k => ?_, fun w hw => ⟨deliver_newest h hw, fun rid hrid => ?_⟩⟩
  · have hmine : ∀ q ∈ qs, dc.index ∈ q.groups := fun q hq => h.mine q ((hsame q).mpr hq)
    rw [deliver_publish h.mine, deliver_publish hmine]
    apply foldl_keepLast_same
    · intro x hx y hy hstamp
      obtain ⟨p, hp, rfl⟩ := List.mem_map.mp hx
      obtain ⟨q, hq, rfl⟩ := List.mem_map.mp hy
      obtain ⟨hp, hkp⟩ := List.mem_filter.mp hp
      obtain ⟨hq, hkq⟩ := List.mem_filter.mp hq
      have hkeys : p.key dc = q.key dc := (of_decide_eq_true hkp).symm.trans (of_decide_eq_true hkq)
      have hmodule := (key_eq_iff dc (h.free p hp) (h.free q hq)).mp hkeys
      rw [h.distinct p hp q hq hmodule hstamp]
    · intro x
      simp only [List.mem_map, List.mem_filter, hsame]
  · obtain ⟨e, he, hlast⟩ := told_newest h hw hrid
    obtain ⟨_, hindex⟩ := deliver_srvs dc ps
    rw [key_congr hindex, deliver_newest h hw] at he
    cases he
    exact hlast

/-- A message of the first group, of one module, at a time. -/
def messageAt (version datetime : Bytes) : Publication :=
  ⟨[1], [112], [109], version, [104], [99], [117], datetime⟩

/-- The control of the first group, with one server. -/
def oneServer : DeployCtrl := (init 1).enter [48, 49, 114] ⟨[], [], none, none, none, none⟩

/-- Two messages in both orders, the later one twice. -/
theorem two_messages_leave_the_later_one :
    (deliver oneServer [messageAt [49] [49], messageAt [50] [50]]).publish.lookup
      ((messageAt [50] [50]).key oneServer) =
      some (messageAt [50] [50]).entry ∧
    lastOrder [48, 49, 114] [112] [109]
        (ordersOf oneServer [messageAt [50] [50], messageAt [49] [49], messageAt [50] [50]]) =
      some ((messageAt [50] [50]).order [48, 49, 114]) := by
  have h : Deliverable oneServer [messageAt [50] [50], messageAt [49] [49], messageAt [50] [50]] :=
    ⟨by decide, by decide, by decide⟩
  have hsame : ∀ p, p ∈ [messageAt [50] [50], messageAt [49] [49], messageAt [50] [50]] ↔
      p ∈ [messageAt [49] [49], messageAt [50] [50]] := by
    intro p
    simp only [List.mem_cons]
    tauto
  have hw : Newest oneServer [messageAt [50] [50], messageAt [49] [49], messageAt [50] [50]]
      (messageAt [50] [50]) :=
    ⟨by decide, by decide, fun e he => by cases he⟩
  obtain ⟨htable, hnewest⟩ := the_order_of_the_messages_does_not_matter h hsame
  obtain ⟨hentry, hlast⟩ := hnewest _ hw
  rw [htable] at hentry
  exact ⟨hentry, hlast _ (by decide)⟩

end publish_order
