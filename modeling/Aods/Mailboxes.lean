-- A box that many senders put items into, and one receiver who sleeps at a bell, takes all that
-- lies in the box at once and then handles the items one by one. A sender rings the bell some time
-- after it has put its item in. The laws say that the receiver does not sleep over an item, and
-- that it comes to sleep by steps of its own.
import Mathlib.Tactic.Common
import Mathlib.Data.List.Basic

namespace mailboxes

variable {α E : Type}

/-! ## The model -/

/-- What the receiver sleeps at: a bell that has been rung some number of times, and lets the
receiver through once for each, or for several together. -/
structure Bell (E : Type) where
  ring : E → E
  /-- `none`: the receiver sleeps on. -/
  answer : E → Option E
  rings : E → Nat
  answer_none : ∀ e, answer e = none ↔ rings e = 0
  answer_some : ∀ e e', answer e = some e' → rings e = rings e' + 1
  rings_ring : ∀ e, 0 < rings (ring e)

/-- What the receiver is about to do. -/
inductive Pc where
  | sleep
  | fetch
  | handle
  deriving DecidableEq

/-- The box, the items that the receiver has taken, and the senders that have not rung yet. All
items that came, and all that were handled, are kept account of. -/
structure Box (α E : Type) where
  later : List α
  now : List α
  bell : E
  unrung : Nat
  pc : Pc
  came : List α
  handled : List α

def Box.start (e : E) (pc : Pc) : Box α E := ⟨[], [], e, 0, pc, [], []⟩

/-- A sender puts in an item, or finds the box full. -/
def Box.put (x : Box α E) (a : Option α) : Box α E :=
  { x with later := x.later ++ a.toList, came := x.came ++ a.toList, unrung := x.unrung + 1 }

/-- The receiver's next step. An eager one looks into the box again before it sleeps, and a lazy
one does not. `none`: it sleeps on. -/
def Box.next (b : Bell E) (eager : Bool) (x : Box α E) : Option (Box α E) :=
  match x.pc with
  | .sleep => (b.answer x.bell).map (fun e => { x with bell := e, pc := .fetch })
  | .fetch => some { x with
      later := []
      now := x.later
      pc := if eager ∧ x.later = [] then .sleep else .handle }
  | .handle =>
    match x.now with
    | a :: now => some { x with now := now, handled := x.handled ++ [a] }
    | [] => some { x with pc := if eager then .fetch else .sleep }

/-- What can happen to a box. A sleep may end without the bell. -/
inductive Step (b : Bell E) (eager : Bool) (x : Box α E) : Box α E → Prop where
  | put (a : Option α) : Step b eager x (x.put a)
  | ring (h : 0 < x.unrung) : Step b eager x
      { x with bell := b.ring x.bell, unrung := x.unrung - 1 }
  | timeout (h : x.pc = .sleep) : Step b eager x { x with pc := .fetch }
  | next (x' : Box α E) (h : x.next b eager = some x') : Step b eager x x'

/-- The receiver sleeps, and the bell does not ring. -/
def Asleep (b : Bell E) (x : Box α E) : Prop := x.pc = .sleep ∧ b.answer x.bell = none

/-! ## The invariant -/

/-- For an item in the box there is a ring that the receiver has not answered, or that is still to
come, or the receiver is about to take it out. Items leave in the order in which they came. -/
structure Sound (b : Bell E) (x : Box α E) : Prop where
  rung : x.later ≠ [] → 0 < b.rings x.bell ∨ 0 < x.unrung ∨ x.pc = .fetch
  taken : x.pc ≠ .handle → x.now = []
  order : x.came = x.handled ++ (x.now ++ x.later)

variable {b : Bell E} {eager : Bool} {x x' : Box α E}

theorem sound_start (b : Bell E) (e : E) (pc : Pc) : Sound b (Box.start (α := α) e pc) where
  rung := fun h => absurd rfl h
  taken := fun _ => rfl
  order := rfl

theorem Sound.put (h : Sound b x) (a : Option α) : Sound b (x.put a) where
  rung := fun _ => Or.inr (Or.inl (Nat.succ_pos x.unrung))
  taken := h.taken
  order := by
    unfold Box.put
    dsimp only
    rw [h.order, List.append_assoc, List.append_assoc]

/-- What the receiver's next step can be. -/
theorem next_cases (h : x.next b eager = some x') :
    (x.pc = .sleep ∧ ∃ e, b.answer x.bell = some e ∧ x' = { x with bell := e, pc := .fetch }) ∨
    (x.pc = .fetch ∧ x' = { x with
      later := []
      now := x.later
      pc := if eager ∧ x.later = [] then .sleep else .handle }) ∨
    (x.pc = .handle ∧ ∃ a now, x.now = a :: now ∧
      x' = { x with now := now, handled := x.handled ++ [a] }) ∨
    (x.pc = .handle ∧ x.now = [] ∧ x' = { x with pc := if eager then .fetch else .sleep }) := by
  unfold Box.next at h
  split at h
  · rename_i hpc
    obtain ⟨e, he, rfl⟩ := Option.map_eq_some_iff.mp h
    exact Or.inl ⟨hpc, e, he, rfl⟩
  · rename_i hpc
    cases h
    exact Or.inr (Or.inl ⟨hpc, rfl⟩)
  · rename_i hpc
    split at h
    · rename_i a now hnow
      cases h
      exact Or.inr (Or.inr (Or.inl ⟨hpc, a, now, hnow, rfl⟩))
    · rename_i hnow
      cases h
      exact Or.inr (Or.inr (Or.inr ⟨hpc, hnow, rfl⟩))

theorem next_keeps (h : x.next b eager = some x') : x'.unrung = x.unrung ∧ x'.came = x.came := by
  rcases next_cases h with ⟨_, _, _, rfl⟩ | ⟨_, rfl⟩ | ⟨_, _, _, _, rfl⟩ | ⟨_, _, rfl⟩
  · exact ⟨rfl, rfl⟩
  · exact ⟨rfl, rfl⟩
  · exact ⟨rfl, rfl⟩
  · exact ⟨rfl, rfl⟩

theorem Sound.next (h : Sound b x) (hnext : x.next b eager = some x') : Sound b x' := by
  rcases next_cases hnext with ⟨hpc, e, _, rfl⟩ | ⟨hpc, rfl⟩ | ⟨hpc, a, now, hnow, rfl⟩ |
    ⟨hpc, hnow, rfl⟩
  · exact ⟨fun _ => Or.inr (Or.inr rfl), fun _ => h.taken (by rw [hpc]; exact Pc.noConfusion),
      h.order⟩
  · have hempty : x.now = [] := h.taken (by rw [hpc]; exact Pc.noConfusion)
    refine ⟨fun hne => absurd rfl hne, ?_, ?_⟩
    · intro hpc'
      dsimp only at hpc' ⊢
      split at hpc'
      · rename_i hboth
        exact hboth.2
      · exact absurd rfl hpc'
    · dsimp only
      rw [h.order, hempty, List.append_nil, List.nil_append]
  · refine ⟨h.rung, fun hne => absurd hpc hne, ?_⟩
    dsimp only
    rw [h.order, hnow, List.append_assoc, List.cons_append, List.singleton_append]
  · refine ⟨?_, fun _ => hnow, h.order⟩
    intro hne
    rcases h.rung hne with hrings | hunrung | hfetch
    · exact Or.inl hrings
    · exact Or.inr (Or.inl hunrung)
    · rw [hpc] at hfetch
      cases hfetch

/-- No step leaves an item in the box without a ring. -/
theorem Sound.step (h : Sound b x) (hstep : Step b eager x x') : Sound b x' := by
  cases hstep with
  | put a => exact h.put a
  | ring hpos => exact ⟨fun _ => Or.inl (b.rings_ring x.bell), h.taken, h.order⟩
  | timeout hpc =>
    exact ⟨fun _ => Or.inr (Or.inr rfl), fun _ => h.taken (by rw [hpc]; exact Pc.noConfusion),
      h.order⟩
  | next x' hnext => exact h.next hnext

/-- A receiver that sleeps, when every sender has rung, has handled all that came, in its order. -/
theorem Sound.asleep (h : Sound b x) (hsleep : Asleep b x) (hunrung : x.unrung = 0) :
    x.handled = x.came := by
  obtain ⟨hpc, hanswer⟩ := hsleep
  have hnow : x.now = [] := h.taken (by rw [hpc]; exact Pc.noConfusion)
  have hlater : x.later = [] := by
    by_contra hne
    rcases h.rung hne with hrings | hpos | hfetch
    · have hzero := (b.answer_none x.bell).mp hanswer
      omega
    · omega
    · rw [hpc] at hfetch
      cases hfetch
  rw [h.order, hnow, hlater, List.append_nil, List.append_nil]

/-! ## The way to sleep -/

/-- How far the receiver is from its sleep. A fetch counts more where the receiver does not look
into the box again. -/
def Pc.weight (eager : Bool) : Pc → Nat
  | .sleep => 0
  | .fetch => if eager then 1 else 2
  | .handle => if eager then 2 else 1

/-- The steps that are left at most. -/
def Box.work (b : Bell E) (eager : Bool) (x : Box α E) : Nat :=
  3 * b.rings x.bell + 3 * x.later.length + x.now.length + x.pc.weight eager

theorem work_next (h : Sound b x) (hnext : x.next b eager = some x') :
    x'.work b eager < x.work b eager := by
  unfold Box.work
  rcases next_cases hnext with ⟨hpc, e, he, rfl⟩ | ⟨hpc, rfl⟩ | ⟨hpc, a, now, hnow, rfl⟩ |
    ⟨hpc, hnow, rfl⟩
  · have hrings := b.answer_some _ _ he
    dsimp only
    rw [hpc]
    cases eager <;> simp only [Pc.weight] <;> simp <;> omega
  · have hempty : x.now = [] := h.taken (by rw [hpc]; exact Pc.noConfusion)
    dsimp only
    rw [hpc, hempty, List.length_nil]
    cases eager with
    | false => simp [Pc.weight]; omega
    | true =>
      by_cases hlater : x.later = []
      · simp [Pc.weight, hlater]
      · have hpos := List.length_pos_of_ne_nil hlater
        simp [Pc.weight, hlater]
        omega
  · dsimp only
    rw [hnow, List.length_cons]
    omega
  · dsimp only
    rw [hpc]
    cases eager <;> simp [Pc.weight]

theorem next_none (h : x.next b eager = none) : Asleep b x := by
  unfold Box.next at h
  split at h
  · rename_i hpc
    exact ⟨hpc, Option.map_eq_none_iff.mp h⟩
  · cases h
  · split at h
    · cases h
    · cases h

/-- What follows the receiver step by step follows it to its sleep, in no more steps than are
left. -/
theorem Sound.comes_to_sleep {σ : Type} {R : Nat → σ → Box α E → Prop}
    (hfollow : ∀ k n x x', R k n x → x.next b eager = some x' → ∃ n', R (k + 1) n' x') {k : Nat}
    {n : σ} (hsound : Sound b x) (h : R k n x) :
    ∃ k' n' x', k' ≤ k + x.work b eager ∧ R k' n' x' ∧ Sound b x' ∧ Asleep b x' ∧
      x'.unrung = x.unrung ∧ x'.came = x.came := by
  generalize hwork : x.work b eager = w
  induction w using Nat.strongRecOn generalizing k n x with
  | _ w ih =>
    cases hx : x.next b eager with
    | none => exact ⟨k, n, x, Nat.le_add_right k w, h, hsound, next_none hx, rfl, rfl⟩
    | some x₁ =>
      obtain ⟨n₁, h₁⟩ := hfollow k n x x₁ h hx
      have hless : x₁.work b eager < w := by
        rw [← hwork]
        exact work_next hsound hx
      obtain ⟨hunrung, hcame⟩ := next_keeps hx
      obtain ⟨k', n', x', hle, h', hsound', hasleep, hunrung', hcame'⟩ :=
        ih _ hless (hsound.next hx) h₁ rfl
      exact ⟨k', n', x', by omega, h', hsound', hasleep, hunrung'.trans hunrung, hcame'.trans hcame⟩

end mailboxes
