-- `CAoList`, a list of nodes that are linked both ways, with a count beside the links. The law says
-- in which runs of its calls the links, the elements and the count stay those of a reference list.
import Aods.Calls
import Aods.Heap
import Aods.LinkedChains

open machine calls heap linked_chains

namespace util.ao_list

/-! ## The model -/

structure Node (V : Type) where
  p_data : V
  p_pre : Ptr
  p_next : Ptr

/-- The members, and the nodes that `new` gave and that are not deleted. -/
structure CAoList (V : Type) where
  p_head : Ptr
  p_end : Ptr
  n_num : Int
  nodes : Heap (Node V)

variable {V : Type}

namespace CAoList

/-- The constructor. -/
def new : CAoList V := ⟨none, none, 0, ∅⟩

/-- `push_back`. `new Node` gives the address `a`. -/
def pushBack (l : CAoList V) (p_data : V) (a : Nat) : Except Fault (CAoList V) :=
  let n_num := i32 (l.n_num + 1)
  if l.p_head = none then .ok ⟨some a, some a, n_num, l.nodes.insert a ⟨p_data, none, none⟩⟩
  else do
    let nodes ← modify (l.nodes.insert a ⟨p_data, l.p_end, none⟩)
      (fun n => { n with p_next := some a }) l.p_end
    pure ⟨l.p_head, some a, n_num, nodes⟩

def pushFront (l : CAoList V) (p_data : V) (a : Nat) : Except Fault (CAoList V) :=
  let n_num := i32 (l.n_num + 1)
  if l.p_head = none then .ok ⟨some a, some a, n_num, l.nodes.insert a ⟨p_data, none, none⟩⟩
  else do
    let nodes ← modify (l.nodes.insert a ⟨p_data, none, l.p_head⟩)
      (fun n => { n with p_pre := some a }) l.p_head
    pure ⟨some a, l.p_end, n_num, nodes⟩

/-- A write to a node beside another one, if there is one. -/
def beside (nodes : Heap (Node V)) (f : Node V → Node V) (p : Ptr) : Except Fault (Heap (Node V)) :=
  if p ≠ none then modify nodes f p else .ok nodes

/-- `Remove`, which reads the node again behind each write. -/
def remove (l : CAoList V) (p_node : Ptr) : Except Fault (CAoList V) :=
  if p_node = none ∨ l.n_num < 1 then .ok l
  else do
    let node ← read l.nodes p_node
    let nodes ← beside l.nodes (fun n => { n with p_next := node.p_next }) node.p_pre
    let node ← read nodes p_node
    let nodes ← beside nodes (fun n => { n with p_pre := node.p_pre }) node.p_next
    let node ← read nodes p_node
    let p_head := if l.p_head = p_node then node.p_next else l.p_head
    let p_end := if l.p_end = p_node then node.p_pre else l.p_end
    let nodes ← delete nodes p_node
    pure ⟨p_head, p_end, i32 (l.n_num - 1), nodes⟩

/-- The loop of `Clear`. Each turn deletes a node, so there are no more turns than nodes: a pointer
that is left when none is left dangles. -/
def clearFrom : Nat → Heap (Node V) → Ptr → Except Fault (Heap (Node V))
  | _, nodes, none => .ok nodes
  | 0, _, some _ => .error .bad_iterator
  | n + 1, nodes, some a => do
    let node ← read nodes (some a)
    let nodes ← delete nodes (some a)
    clearFrom n nodes node.p_next

def clear (l : CAoList V) : Except Fault (CAoList V) := do
  let nodes ← clearFrom l.nodes.keys.length l.nodes l.p_head
  pure { l with p_head := none, p_end := none, nodes }

def size (l : CAoList V) : Int := l.n_num

/-- The links of the nodes. -/
def next (l : CAoList V) (a : Nat) : Ptr := (l.nodes.lookup a).bind (·.p_next)

def pre (l : CAoList V) (a : Nat) : Ptr := (l.nodes.lookup a).bind (·.p_pre)

/-- And what is in them. -/
def data (l : CAoList V) (a : Nat) : Option V := (l.nodes.lookup a).map (·.p_data)

end CAoList

inductive Op (V : Type) where
  | push_back (p_data : V) (a : Nat)
  | push_front (p_data : V) (a : Nat)
  | remove (a : Nat)
  | clear

/-- The reference list, its elements with the nodes that they are in. -/
abbrev Reference (V : Type) := List (Nat × V)

def Reference.step (ref : Reference V) : Op V → Reference V
  | .push_back p_data a => ref ++ [(a, p_data)]
  | .push_front p_data a => (a, p_data) :: ref
  | .remove a => ref.eraseP (fun e => e.1 = a)
  | .clear => []

/-- The list beside its reference list. -/
structure Run (V : Type) where
  list : CAoList V
  ref : Reference V

def start : Run V := ⟨.new, []⟩

def step : Step (Run V) (Op V) Fault
  | s, .push_back p_data a =>
    (s.list.pushBack p_data a).map (fun l => ⟨l, s.ref.step (.push_back p_data a)⟩)
  | s, .push_front p_data a =>
    (s.list.pushFront p_data a).map (fun l => ⟨l, s.ref.step (.push_front p_data a)⟩)
  | s, .remove a => (s.list.remove (some a)).map (fun l => ⟨l, s.ref.step (.remove a)⟩)
  | s, .clear => s.list.clear.map (fun l => ⟨l, s.ref.step .clear⟩)

/-! ## What is asked of it -/

/-- `new` gives the address of no other node, and a node that is removed is in the list. -/
def Allowed (s : Run V) : Op V → Prop
  | .push_back _ a => s.list.nodes.lookup a = none
  | .push_front _ a => s.list.nodes.lookup a = none
  | .remove a => a ∈ s.ref.map (·.1)
  | .clear => True

/-- Both traversals come by the nodes of the reference list, these hold its elements, and the count
is theirs. -/
structure Represents (s : Run V) : Prop where
  forward : Chain s.list.next s.list.p_head (s.ref.map (·.1)) none
  backward : Chain s.list.pre s.list.p_end (s.ref.map (·.1)).reverse none
  elements : ∀ e ∈ s.ref, s.list.data e.1 = some e.2
  size : s.list.size = s.ref.length

/-- One element more can be counted, and no element is cleared. -/
def Counted (s : Run V) : Op V → Prop
  | .push_back _ _ => s.ref.length + 1 < 2147483648
  | .push_front _ _ => s.ref.length + 1 < 2147483648
  | .remove _ => True
  | .clear => s.ref = []

/-- One element more can be counted, with those that are cleared. -/
def Room (s : Run V) : Op V → Prop
  | .push_back _ _ => s.list.n_num + 1 < 2147483648
  | .push_front _ _ => s.list.n_num + 1 < 2147483648
  | .remove _ => True
  | .clear => True

/-- The elements that a call drops without counting them off. -/
def dropped (s : Run V) : Op V → Nat
  | .clear => s.ref.length
  | _ => 0

instance (s : Run V) : (op : Op V) → Decidable (Allowed s op)
  | .push_back _ a => inferInstanceAs (Decidable (s.list.nodes.lookup a = none))
  | .push_front _ a => inferInstanceAs (Decidable (s.list.nodes.lookup a = none))
  | .remove a => inferInstanceAs (Decidable (a ∈ s.ref.map (·.1)))
  | .clear => inferInstanceAs (Decidable True)

instance (s : Run V) : (op : Op V) → Decidable (Counted s op)
  | .push_back _ _ => inferInstanceAs (Decidable (s.ref.length + 1 < 2147483648))
  | .push_front _ _ => inferInstanceAs (Decidable (s.ref.length + 1 < 2147483648))
  | .remove _ => inferInstanceAs (Decidable True)
  | .clear => inferInstanceAs (Decidable (s.ref = []))

/-! ## The invariant -/

/-- What holds of the list when `Clear` has dropped some elements: they still count. -/
structure Inv (dropped : Nat) (s : Run V) : Prop where
  linked : Linked s.list.next s.list.pre s.list.p_head s.list.p_end (s.ref.map (·.1))
  holds : ∀ a v, s.list.data a = some v ↔ (a, v) ∈ s.ref
  count : s.list.n_num = s.ref.length + dropped
  small : s.ref.length + dropped < 2147483648

variable {s s' : Run V} {l : CAoList V} {ref : Reference V} {a b : Nat} {v : V} {k : Nat}

theorem inv_start : Inv 0 (start : Run V) :=
  ⟨linked_nil _ _, by simp [start, CAoList.new, CAoList.data], rfl, Nat.zero_lt_succ _⟩

theorem Inv.represents (h : Inv 0 s) : Represents s where
  forward := h.linked.forward
  backward := h.linked.backward
  elements := fun e he => (h.holds e.1 e.2).mpr he
  size := by rw [CAoList.size, h.count, Int.natCast_zero, Int.add_zero]

theorem Inv.allocated (h : Inv k s) (a : Nat) : (s.list.nodes.lookup a).isSome ↔
    a ∈ s.ref.map (·.1) := by
  have hdata : (s.list.nodes.lookup a).isSome = (s.list.data a).isSome := by
    rw [CAoList.data, Option.isSome_map]
  rw [hdata, Option.isSome_iff_exists]
  constructor
  · rintro ⟨v, hv⟩
    exact List.mem_map.mpr ⟨(a, v), (h.holds a v).mp hv, rfl⟩
  · intro ha
    obtain ⟨e, he, rfl⟩ := List.mem_map.mp ha
    exact ⟨e.2, (h.holds e.1 e.2).mpr he⟩

theorem Inv.fresh (h : Inv k s) (ha : s.list.nodes.lookup a = none) : a ∉ s.ref.map (·.1) := by
  rw [← h.allocated, ha]
  simp

theorem Inv.head_none (h : Inv k s) : s.list.p_head = none ↔ s.ref = [] := by
  rw [h.linked.head_eq, List.head?_eq_none_iff, List.map_eq_nil_iff]

theorem Inv.end_none (h : Inv k s) : s.list.p_end = none ↔ s.ref = [] := by
  rw [h.linked.last_eq, List.getLast?_eq_none_iff, List.map_eq_nil_iff]

theorem Inv.end_allocated (h : Inv k s) (he : s.list.p_end = some a) :
    (s.list.nodes.lookup a).isSome := by
  rw [h.allocated]
  rw [h.linked.last_eq] at he
  exact List.mem_of_getLast? he

theorem Inv.head_allocated (h : Inv k s) (he : s.list.p_head = some a) :
    (s.list.nodes.lookup a).isSome := by
  rw [h.allocated]
  rw [h.linked.head_eq] at he
  exact List.mem_of_head? he

/-! ## The calls -/

/-- What `push_back` does to the nodes: a new one, and a link to it in the last one. -/
theorem pushBack_finds (h : Inv k s) (ha : s.list.nodes.lookup a = none) (v : V) : ∃ nodes,
    s.list.pushBack v a =
      .ok ⟨if s.list.p_head = none then some a else s.list.p_head, some a,
        i32 (s.list.n_num + 1), nodes⟩ ∧
    ∀ b, nodes.lookup b = if b = a then some ⟨v, s.list.p_end, none⟩
      else if s.list.p_end = some b then
        (s.list.nodes.lookup b).map (fun n => { n with p_next := some a })
      else s.list.nodes.lookup b := by
  unfold CAoList.pushBack
  dsimp only
  by_cases hhead : s.list.p_head = none
  · have hend : s.list.p_end = none := h.end_none.mpr (h.head_none.mp hhead)
    rw [if_pos hhead, if_pos hhead, hend]
    refine ⟨_, rfl, fun b => ?_⟩
    rw [find_insert]
    simp
  · have hend : s.list.p_end ≠ none := mt (fun he => h.head_none.mpr (h.end_none.mp he)) hhead
    obtain ⟨nodes, hmodify, hfinds⟩ := insert_modify_finds ha ⟨v, s.list.p_end, none⟩
      (fun b hb => h.end_allocated hb) hend (f := fun n => { n with p_next := some a })
    rw [if_neg hhead, if_neg hhead, hmodify]
    exact ⟨nodes, rfl, hfinds⟩

/-- And `push_front`: a link in the first one. -/
theorem pushFront_finds (h : Inv k s) (ha : s.list.nodes.lookup a = none) (v : V) : ∃ nodes,
    s.list.pushFront v a =
      .ok ⟨some a, if s.list.p_end = none then some a else s.list.p_end,
        i32 (s.list.n_num + 1), nodes⟩ ∧
    ∀ b, nodes.lookup b = if b = a then some ⟨v, none, s.list.p_head⟩
      else if s.list.p_head = some b then
        (s.list.nodes.lookup b).map (fun n => { n with p_pre := some a })
      else s.list.nodes.lookup b := by
  unfold CAoList.pushFront
  dsimp only
  by_cases hhead : s.list.p_head = none
  · have hend : s.list.p_end = none := h.end_none.mpr (h.head_none.mp hhead)
    rw [if_pos hhead, if_pos hend, hhead]
    refine ⟨_, rfl, fun b => ?_⟩
    rw [find_insert]
    simp
  · have hend : s.list.p_end ≠ none := mt (fun he => h.head_none.mpr (h.end_none.mp he)) hhead
    obtain ⟨nodes, hmodify, hfinds⟩ := insert_modify_finds ha ⟨v, none, s.list.p_head⟩
      (fun b hb => h.head_allocated hb) hhead (f := fun n => { n with p_pre := some a })
    rw [if_neg hhead, if_neg hend, hmodify]
    exact ⟨nodes, rfl, hfinds⟩

theorem data_push {nodes : Heap (Node V)} {n : Node V} {p : Ptr} {f : Node V → Node V}
    (hfinds : ∀ b, nodes.lookup b = if b = a then some n
      else if p = some b then (s.list.nodes.lookup b).map f else s.list.nodes.lookup b)
    (hf : ∀ m : Node V, (f m).p_data = m.p_data) (b : Nat) :
    (nodes.lookup b).map (·.p_data) = if b = a then some n.p_data else s.list.data b := by
  unfold CAoList.data
  rw [hfinds]
  split
  · rfl
  · split
    · rw [Option.map_map]
      exact congrArg (fun g => (s.list.nodes.lookup b).map g) (funext hf)
    · rfl

theorem holds_push (h : Inv k s) (ha : s.list.nodes.lookup a = none)
    (hdata : ∀ b, l.data b = if b = a then some v else s.list.data b)
    (hmem : ∀ e, e ∈ ref ↔ e = (a, v) ∨ e ∈ s.ref) (b : Nat) (w : V) :
    l.data b = some w ↔ (b, w) ∈ ref := by
  rw [hdata, hmem]
  by_cases hb : b = a
  · subst hb
    have hnot : (b, w) ∉ s.ref := fun hin => h.fresh ha (List.mem_map_of_mem hin)
    simp [hnot, eq_comm]
  · rw [if_neg hb, h.holds]
    simp [hb]

theorem count_push (h : Inv k s) (hsmall : s.ref.length + k + 1 < 2147483648) :
    i32 (s.list.n_num + 1) = (s.ref.length + 1 : Nat) + k := by
  rw [h.count, i32_of_range (by omega) (by omega)]
  omega

theorem pushBack_inv (h : Inv k s) (ha : s.list.nodes.lookup a = none) (v : V)
    (hsmall : s.ref.length + k + 1 < 2147483648) :
    ∃ s', step s (.push_back v a) = .ok s' ∧ Inv k s' := by
  obtain ⟨nodes, hpush, hfinds⟩ := pushBack_finds h ha v
  have hfresh := h.fresh ha
  refine ⟨⟨⟨_, some a, _, nodes⟩, s.ref ++ [(a, v)]⟩, by rw [step, hpush]; rfl, ?_, ?_, ?_, ?_⟩
  · have hne : ∀ b ∈ s.ref.map (·.1), b ≠ a := fun b hb he => hfresh (he ▸ hb)
    rw [List.map_append]
    refine h.linked.concat hfresh ?_ ?_ (fun b hb => ?_) (fun b hb hnot => ?_) (fun b hb => ?_)
    · simp [CAoList.next, hfinds]
    · simp [CAoList.pre, hfinds]
    · have hsome := h.end_allocated hb
      obtain ⟨n, hn⟩ := Option.isSome_iff_exists.mp hsome
      have hba := hne b ((h.allocated b).mp hsome)
      simp [CAoList.next, hfinds, hba, hb, hn]
    · simp [CAoList.next, hfinds, hne b hb, hnot]
    · obtain ⟨n, hn⟩ := Option.isSome_iff_exists.mp ((h.allocated b).mpr hb)
      simp only [CAoList.pre, hfinds, hne b hb, if_false, hn]
      split
      · rfl
      · rfl
  · exact holds_push h ha (data_push hfinds (fun _ => rfl)) (by simp [or_comm])
  · rw [count_push h hsmall, List.length_append]
    rfl
  · rw [List.length_append, List.length_singleton]
    omega

theorem pushFront_inv (h : Inv k s) (ha : s.list.nodes.lookup a = none) (v : V)
    (hsmall : s.ref.length + k + 1 < 2147483648) :
    ∃ s', step s (.push_front v a) = .ok s' ∧ Inv k s' := by
  obtain ⟨nodes, hpush, hfinds⟩ := pushFront_finds h ha v
  have hfresh := h.fresh ha
  refine ⟨⟨⟨some a, _, _, nodes⟩, (a, v) :: s.ref⟩, by rw [step, hpush]; rfl, ?_, ?_, ?_, ?_⟩
  · have hne : ∀ b ∈ s.ref.map (·.1), b ≠ a := fun b hb he => hfresh (he ▸ hb)
    refine h.linked.cons hfresh ?_ ?_ (fun b hb => ?_) (fun b hb hnot => ?_) (fun b hb => ?_)
    · simp [CAoList.pre, hfinds]
    · simp [CAoList.next, hfinds]
    · have hsome := h.head_allocated hb
      obtain ⟨n, hn⟩ := Option.isSome_iff_exists.mp hsome
      have hba := hne b ((h.allocated b).mp hsome)
      simp [CAoList.pre, hfinds, hba, hb, hn]
    · simp [CAoList.pre, hfinds, hne b hb, hnot]
    · obtain ⟨n, hn⟩ := Option.isSome_iff_exists.mp ((h.allocated b).mpr hb)
      simp only [CAoList.next, hfinds, hne b hb, if_false, hn]
      split
      · rfl
      · rfl
  · exact holds_push h ha (data_push hfinds (fun _ => rfl)) (by simp)
  · rw [count_push h hsmall]
    rfl
  · rw [List.length_cons]
    omega

/-- A write beside a node changes the node there only, if there is one. -/
theorem beside_finds {nodes : Heap (Node V)} {p : Ptr} (f : Node V → Node V)
    (hp : ∀ b, p = some b → (nodes.lookup b).isSome) :
    ∃ nodes', CAoList.beside nodes f p = .ok nodes' ∧
      ∀ b, nodes'.lookup b = if p = some b then (nodes.lookup b).map f else nodes.lookup b := by
  unfold CAoList.beside
  by_cases hnull : p = none
  · subst hnull
    exact ⟨nodes, rfl, fun b => rfl⟩
  · rw [if_pos hnull]
    exact modify_finds hp hnull

/-- What `Remove` does to the nodes: the one before the node gets its link forth, the one behind it
its link back, and it is gone. -/
theorem remove_finds {n : Node V} (hn : s.list.nodes.lookup a = some n)
    (hcount : ¬ s.list.n_num < 1)
    (hpre : ∀ b, n.p_pre = some b → b ≠ a ∧ (s.list.nodes.lookup b).isSome)
    (hnext : ∀ b, n.p_next = some b → b ≠ a ∧ (s.list.nodes.lookup b).isSome) : ∃ nodes,
    s.list.remove (some a) = .ok ⟨if s.list.p_head = some a then n.p_next else s.list.p_head,
      if s.list.p_end = some a then n.p_pre else s.list.p_end, i32 (s.list.n_num - 1), nodes⟩ ∧
    ∀ b, nodes.lookup b = if b = a then none else (s.list.nodes.lookup b).map (fun m => ⟨m.p_data,
      if n.p_next = some b then n.p_pre else m.p_pre, if n.p_pre = some b then
        n.p_next else m.p_next⟩) := by
  obtain ⟨nodes₁, hbeside₁, hfinds₁⟩ :=
    beside_finds (fun m : Node V => { m with p_next := n.p_next }) (fun b hb => (hpre b hb).2)
  have hn₁ : nodes₁.lookup a = some n := by rw [hfinds₁, if_neg (fun he => (hpre a he).1 rfl), hn]
  obtain ⟨nodes₂, hbeside₂, hfinds₂⟩ := @beside_finds _ nodes₁ n.p_next
    (fun m : Node V => { m with p_pre := n.p_pre }) (fun b hb => by
      rw [hfinds₁]
      split
      · rw [Option.isSome_map]
        exact (hnext b hb).2
      · exact (hnext b hb).2)
  have hn₂ : nodes₂.lookup a = some n := by rw [hfinds₂, if_neg (fun he => (hnext a he).1 rfl), hn₁]
  refine ⟨nodes₂.erase a, ?_, fun b => ?_⟩
  · unfold CAoList.remove
    rw [if_neg (not_or.mpr ⟨Option.some_ne_none a, hcount⟩)]
    simp only [bind, Except.bind, read_some hn, hbeside₁, read_some hn₁, hbeside₂, read_some hn₂,
      delete_some hn₂]
    rfl
  · rw [find_erase]
    by_cases hb : b = a
    · rw [if_pos hb, if_pos hb]
    · rw [if_neg hb, if_neg hb, hfinds₂, hfinds₁]
      cases s.list.nodes.lookup b with
      | none => simp
      | some m =>
        by_cases h1 : n.p_next = some b
        · by_cases h2 : n.p_pre = some b
          · simp [h1, h2]
          · simp [h1, h2]
        · by_cases h2 : n.p_pre = some b
          · simp [h1, h2]
          · simp [h1, h2]

/-- The reference list without the element of a node. -/
theorem eraseP_node {l r : Reference V} (hnot : a ∉ l.map (·.1)) :
    (l ++ (a, v) :: r).eraseP (fun e => e.1 = a) = l ++ r := by
  rw [List.eraseP_append_right _ (fun e he => by
    rw [decide_eq_true_iff]
    exact fun heq => hnot (List.mem_map.mpr ⟨e, he, heq⟩)), List.eraseP_cons_of_pos (by simp)]

/-- A node of the list, with what stands before it and behind it. -/
theorem Inv.node (h : Inv k s) (ha : a ∈ s.ref.map (·.1)) :
    ∃ n v l r, s.list.nodes.lookup a = some n ∧
    s.ref = l ++ (a, v) :: r ∧ a ∉ l.map (·.1) ∧ a ∉ r.map (·.1) ∧
    (∀ b, n.p_pre = some b → b ∈ l.map (·.1)) ∧ ∀ b, n.p_next = some b → b ∈ r.map (·.1) := by
  obtain ⟨n, hn⟩ := Option.isSome_iff_exists.mp ((h.allocated a).mpr ha)
  obtain ⟨⟨a', v⟩, hmem, he⟩ := List.mem_map.mp ha
  obtain rfl : a' = a := he
  obtain ⟨l, r, href⟩ := List.append_of_mem hmem
  have hlinked := h.linked
  rw [href, List.map_append, List.map_cons] at hlinked
  obtain ⟨_, har, hdisjoint⟩ := List.nodup_append.mp hlinked.nodup
  obtain ⟨hpre, hnext⟩ := hlinked.neighbours
  rw [CAoList.pre, hn] at hpre
  rw [CAoList.next, hn] at hnext
  refine ⟨n, v, l, r, hn, href, fun hin => hdisjoint a' hin a' List.mem_cons_self rfl,
    (List.nodup_cons.mp har).1,
    fun b hb => List.mem_of_getLast? ?_, fun b hb => List.mem_of_head? ?_⟩
  · rw [← hpre]
    exact hb
  · rw [← hnext]
    exact hb

theorem remove_inv (h : Inv k s) (ha : a ∈ s.ref.map (·.1)) :
    ∃ s', step s (.remove a) = .ok s' ∧ Inv k s' := by
  obtain ⟨n, v, l, r, hn, href, hl, hr, hpre, hnext⟩ := h.node ha
  have hin : ∀ b, b ∈ l.map (·.1) ∨ b ∈ r.map (·.1) →
      b ≠ a ∧ ∃ m, s.list.nodes.lookup b = some m := by
    intro b hb
    rw [← Option.isSome_iff_exists, h.allocated, href, List.map_append, List.map_cons,
      List.mem_append, List.mem_cons]
    refine ⟨?_, hb.imp_right Or.inr⟩
    rintro rfl
    exact hb.elim hl hr
  have hlen : s.ref.length = (l ++ r).length + 1 := by
    rw [href, List.length_append, List.length_append]
    rfl
  have hcount := h.count
  have hsmall := h.small
  obtain ⟨nodes, hremove, hfinds⟩ := remove_finds hn (by omega)
    (fun b hb => (hin b (Or.inl (hpre b hb))).imp_right Option.isSome_iff_exists.mpr)
    (fun b hb => (hin b (Or.inr (hnext b hb))).imp_right Option.isSome_iff_exists.mpr)
  have hstep : step s (.remove a) =
      .ok ⟨⟨if s.list.p_head = some a then n.p_next else s.list.p_head,
        if s.list.p_end = some a then n.p_pre else s.list.p_end,
        i32 (s.list.n_num - 1), nodes⟩, l ++ r⟩ := by
    rw [step, hremove, Reference.step, href, eraseP_node hl]
    rfl
  refine ⟨_, hstep, ?_, ?_, ?_, ?_⟩
  · have hlinked := h.linked
    have hpreN : s.list.pre a = n.p_pre := by rw [CAoList.pre, hn, Option.bind_some]
    have hnextN : s.list.next a = n.p_next := by rw [CAoList.next, hn, Option.bind_some]
    rw [href, List.map_append, List.map_cons] at hlinked
    rw [List.map_append, ← hpreN, ← hnextN]
    refine hlinked.removed (fun b hb => ?_) (fun b hb hnot => ?_) (fun b hb => ?_)
      (fun b hb hnot => ?_)
    · rw [hpreN] at hb
      obtain ⟨hne, m, hm⟩ := hin b (Or.inl (hpre b hb))
      simp [CAoList.next, hfinds, hne, hm, hb, hn]
    · obtain ⟨hne, m, hm⟩ := hin b (List.mem_append.mp hb)
      rw [hpreN] at hnot
      simp [CAoList.next, hfinds, hne, hm, hnot]
    · rw [hnextN] at hb
      obtain ⟨hne, m, hm⟩ := hin b (Or.inr (hnext b hb))
      simp [CAoList.pre, hfinds, hne, hm, hb, hn]
    · obtain ⟨hne, m, hm⟩ := hin b (List.mem_append.mp hb)
      rw [hnextN] at hnot
      simp [CAoList.pre, hfinds, hne, hm, hnot]
  · intro b w
    have hdata : CAoList.data ⟨if s.list.p_head = some a then n.p_next else s.list.p_head,
        if s.list.p_end = some a then n.p_pre else s.list.p_end, i32 (s.list.n_num - 1), nodes⟩ b =
        if b = a then none else s.list.data b := by
      unfold CAoList.data
      rw [hfinds]
      split
      · rfl
      · rw [Option.map_map]
        rfl
    rw [hdata]
    by_cases hb : b = a
    · subst hb
      rw [if_pos rfl]
      refine iff_of_false (by simp) (fun hmem => ?_)
      exact (List.mem_append.mp hmem).elim (fun hin => hl (List.mem_map_of_mem hin))
        (fun hin => hr (List.mem_map_of_mem hin))
    · rw [if_neg hb, h.holds, href]
      simp [hb]
  · dsimp only
    rw [i32_of_range (by omega) (by omega), hcount, hlen]
    omega
  · dsimp only
    omega

/-- The loop of `Clear` deletes the nodes of its chain, and comes to its end. -/
theorem clearFrom_chain {nodes : Heap (Node V)} {p : Ptr} {xs : List Nat} {n : Nat}
    (hchain : Chain (fun a => (nodes.lookup a).bind (·.p_next)) p xs none) (hnodup : xs.Nodup)
    (hin : ∀ a ∈ xs, (nodes.lookup a).isSome) (hn : xs.length ≤ n) :
    ∃ nodes', CAoList.clearFrom n nodes p = .ok nodes' ∧ ∀ b, nodes'.lookup b =
      if b ∈ xs then none else nodes.lookup b := by
  induction xs generalizing nodes p n with
  | nil =>
    obtain rfl : p = none := hchain
    refine ⟨nodes, by rw [CAoList.clearFrom], fun b => by simp⟩
  | cons a xs ih =>
    obtain ⟨rfl, hrest⟩ := hchain
    obtain ⟨ha, hxs⟩ := List.nodup_cons.mp hnodup
    obtain ⟨node, hnode⟩ := Option.isSome_iff_exists.mp (hin a List.mem_cons_self)
    obtain ⟨n, rfl⟩ := Nat.exists_eq_add_of_lt hn
    have hne : ∀ b ∈ xs, b ≠ a := fun b hb he => ha (he ▸ hb)
    dsimp only at hrest
    rw [hnode, Option.bind_some] at hrest
    obtain ⟨nodes', hclear, hfinds⟩ := @ih (nodes.erase a) node.p_next (xs.length + n)
      (hrest.congr (fun b hb => by rw [find_erase, if_neg (hne b hb)])) hxs
      (fun b hb => by
        rw [find_erase, if_neg (hne b hb)]
        exact hin b (List.mem_cons_of_mem a hb)) (Nat.le_add_right _ _)
    refine ⟨nodes', ?_, fun b => ?_⟩
    · rw [CAoList.clearFrom]
      simp only [bind, Except.bind, read_some hnode, delete_some hnode]
      exact hclear
    · rw [hfinds, find_erase]
      by_cases hb : b = a
      · simp [hb]
      · simp [hb]

theorem length_le_keys {nodes : Heap (Node V)} {xs : List Nat} (hnodup : xs.Nodup)
    (hin : ∀ a ∈ xs, (nodes.lookup a).isSome) :
    xs.length ≤ nodes.keys.length :=
  hnodup.length_le_of_subset (fun a ha => AList.mem_keys.mp (AList.lookup_isSome.mp (hin a ha)))

/-- `Clear` leaves no node, and the count as it was. -/
theorem clear_inv (h : Inv k s) : ∃ s', step s .clear = .ok s' ∧ Inv (k + s.ref.length) s' := by
  have hin : ∀ a ∈ s.ref.map (·.1), (s.list.nodes.lookup a).isSome :=
    fun a ha => (h.allocated a).mpr ha
  obtain ⟨nodes, hclear, hfinds⟩ :=
    clearFrom_chain h.linked.forward h.linked.nodup hin (length_le_keys h.linked.nodup hin)
  have hstep : step s .clear = .ok ⟨⟨none, none, s.list.n_num, nodes⟩, []⟩ := by
    rw [step, CAoList.clear, hclear]
    rfl
  have hcount := h.count
  have hsmall := h.small
  refine ⟨_, hstep, linked_nil _ _, fun a v => ?_, ?_, ?_⟩
  · have hnone : nodes.lookup a = none := by
      rw [hfinds]
      split
      · rfl
      · rename_i hnot
        rw [← h.allocated, Option.not_isSome_iff_eq_none] at hnot
        exact hnot
    simp [CAoList.data, hnone]
  · dsimp only
    rw [hcount, List.length_nil]
    omega
  · rw [List.length_nil]
    omega

/-- What the calls do to the count: both branches of a push set the same one. -/
theorem count_of_push {c : Prop} [Decidable c] {m : Int} {l₁ l' : CAoList V}
    {x : Except Fault (Heap (Node V))} {g : Heap (Node V) → CAoList V} (hl : l₁.n_num = m)
    (hg : ∀ nodes, (g nodes).n_num = m)
    (h : (if c then .ok l₁ else x >>= fun nodes => pure (g nodes)) = .ok l') : l'.n_num = m := by
  split at h
  · cases h
    exact hl
  · obtain ⟨nodes, _, h⟩ := bind_ok h
    cases h
    exact hg nodes

theorem pushBack_count {l' : CAoList V} (h : l.pushBack v a = .ok l') :
    l'.n_num = i32 (l.n_num + 1) :=
  count_of_push (by rfl) (fun _ => by rfl) h

theorem pushFront_count {l' : CAoList V} (h : l.pushFront v a = .ok l') :
    l'.n_num = i32 (l.n_num + 1) :=
  count_of_push (by rfl) (fun _ => by rfl) h

theorem clear_count {l' : CAoList V} (h : l.clear = .ok l') : l'.n_num = l.n_num := by
  obtain ⟨nodes, _, h⟩ := bind_ok h
  cases h
  rfl

/-! ## The laws -/

/-- A call that is allowed keeps the invariant, while the count has room. -/
theorem step_inv (h : Inv k s) {op : Op V} (hallowed : Allowed s op) (hroom : Room s op) :
    ∃ s', step s op = .ok s' ∧ Inv (k + dropped s op) s' := by
  have hcount := h.count
  cases op with
  | push_back v a =>
    have hlt : s.list.n_num + 1 < 2147483648 := hroom
    exact pushBack_inv h hallowed v (by omega)
  | push_front v a =>
    have hlt : s.list.n_num + 1 < 2147483648 := hroom
    exact pushFront_inv h hallowed v (by omega)
  | remove a => exact remove_inv h hallowed
  | clear => exact clear_inv h

theorem count_wraps (h : Inv k s) {op : Op V} (hroom : ¬ Room s op) (hstep : step s op = .ok s') :
    s'.list.n_num < 0 := by
  have hcount := h.count
  have hsmall := h.small
  have hwrap : ¬ s.list.n_num + 1 < 2147483648 → i32 (s.list.n_num + 1) < 0 := by
    intro hnot
    have hmax : s.list.n_num + 1 = 2147483648 := by omega
    rw [hmax]
    decide
  cases op with
  | push_back v a =>
    obtain ⟨l, hl, rfl⟩ := map_ok hstep
    rw [pushBack_count hl]
    exact hwrap hroom
  | push_front v a =>
    obtain ⟨l, hl, rfl⟩ := map_ok hstep
    rw [pushFront_count hl]
    exact hwrap hroom
  | remove a => exact absurd trivial hroom
  | clear => exact absurd trivial hroom

theorem room_of_counted (h : Inv 0 s) {op : Op V} (hcounted : Counted s op) :
    Room s op ∧ dropped s op = 0 := by
  have hcount := h.count
  cases op with
  | push_back v a =>
    have hlt : s.ref.length + 1 < 2147483648 := hcounted
    exact ⟨show s.list.n_num + 1 < 2147483648 by omega, rfl⟩
  | push_front v a =>
    have hlt : s.ref.length + 1 < 2147483648 := hcounted
    exact ⟨show s.list.n_num + 1 < 2147483648 by omega, rfl⟩
  | remove a => exact ⟨trivial, rfl⟩
  | clear => exact ⟨trivial, List.length_eq_zero_iff.mpr hcounted⟩

theorem count_lost (h : Inv 0 s) {op : Op V} (hnot : ¬ Counted s op) (hstep : step s op = .ok s') :
    s'.list.n_num ≠ s'.ref.length := by
  have hcount := h.count
  have hwraps : ¬ Room s op → s'.list.n_num ≠ s'.ref.length := by
    intro hroom
    have hneg := count_wraps h hroom hstep
    omega
  cases op with
  | push_back v a =>
    refine hwraps (fun hroom => hnot ?_)
    have hlt : s.list.n_num + 1 < 2147483648 := hroom
    exact show s.ref.length + 1 < 2147483648 by omega
  | push_front v a =>
    refine hwraps (fun hroom => hnot ?_)
    have hlt : s.list.n_num + 1 < 2147483648 := hroom
    exact show s.ref.length + 1 < 2147483648 by omega
  | remove a => exact absurd trivial hnot
  | clear =>
    obtain ⟨l, hl, rfl⟩ := map_ok hstep
    have hpos : 0 < s.ref.length := List.length_pos_iff.mpr hnot
    rw [clear_count hl, hcount]
    simp only [Reference.step, List.length_nil]
    omega

/-- In a run of calls both traversals, the elements and the count stay those of the reference list
just while the elements are less than 2^31 and none is cleared: `Clear` leaves the count. -/
theorem the_list_stays_just_while_nothing_is_cleared (ops : List (Op V))
    (h : Along step Allowed start ops) :
    Keeps step Represents (fun _ _ _ => True) start ops ↔ Along step Counted start ops := by
  refine keeps_iff (fun s hs => hs.represents) (fun s op hs hallowed hcounted => ?_)
    (fun s op s' hs _ hnot hstep _ hs' => count_lost hs hnot hstep hs'.size) inv_start h
  obtain ⟨hroom, hnone⟩ := room_of_counted hs hcounted
  obtain ⟨s', hstep, hs'⟩ := step_inv hs hallowed hroom
  rw [hnone] at hs'
  exact ⟨s', hstep, trivial, hs'⟩

/-- Two elements come in, one goes out, and an empty list is cleared. -/
def calls : List (Op Nat) :=
  [.push_back 7 1, .push_front 8 2, .remove 1, .remove 2, .clear, .push_back 9 1]

theorem the_list_stays_over_some_calls : Keeps step Represents (fun _ _ _ => True) start calls :=
  (the_list_stays_just_while_nothing_is_cleared calls (by decide)).mpr (by decide)

/-- An element comes in, and `Clear` leaves the count at 1. -/
theorem a_cleared_element_still_counts :
    Along step Allowed start [.push_back 7 1, .clear] ∧
      ¬ Keeps step Represents (fun _ _ _ => True) start [.push_back 7 1, .clear] := by
  refine ⟨by decide, ?_⟩
  rintro ⟨_, s, hpush, _, _, s', hclear, _, hs'⟩
  cases hpush
  cases hclear
  exact absurd hs'.size (by decide)

end util.ao_list
