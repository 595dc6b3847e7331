-- Chains of links: from a first link on, each member of a list leads to the next one. The laws say
-- what a chain is when a member comes in at its end or is taken out, and when two chains go through
-- one list both ways.
import Mathlib.Tactic.Common
import Mathlib.Data.List.Basic
import Mathlib.Data.List.Nodup

namespace linked_chains

variable {α : Type}

/-- From `p` on, the links `next` lead through the list and to `q` behind it. -/
def Chain (next : α → Option α) : Option α → List α → Option α → Prop
  | p, [], q => p = q
  | p, x :: xs, q => p = some x ∧ Chain next (next x) xs q

/-- The links lead through the list from its first member on, and back from its last one. -/
structure Linked (next pre : α → Option α) (head last : Option α) (xs : List α) : Prop where
  nodup : xs.Nodup
  forward : Chain next head xs none
  backward : Chain pre last xs.reverse none

variable {next next' pre pre' : α → Option α} {p q head last : Option α} {x : α} {xs ys : List α}

/-! ## One chain -/

theorem chain_append : Chain next p (xs ++ ys) q ↔ ∃ m, Chain next p xs m ∧ Chain next m ys q := by
  induction xs generalizing p with
  | nil => simp [Chain]
  | cons x xs ih => simp [Chain, ih, and_assoc]

theorem Chain.start (h : Chain next p xs none) : p = xs.head? := by
  cases xs with
  | nil => exact h
  | cons x xs => exact h.1

/-- A chain depends on the links of its members only. -/
theorem Chain.congr (h : Chain next p xs q) (hsame : ∀ y ∈ xs, next' y = next y) :
    Chain next' p xs q := by
  induction xs generalizing p with
  | nil => exact h
  | cons x xs ih =>
    refine ⟨h.1, ?_⟩
    rw [hsame x List.mem_cons_self]
    exact ih h.2 (fun y hy => hsame y (List.mem_cons_of_mem x hy))

theorem Chain.redirect {q' : Option α} (h : Chain next p xs q) (hnodup : xs.Nodup)
    (hlast : ∀ y, xs.getLast? = some y → next' y = q')
    (hsame : ∀ y ∈ xs, xs.getLast? ≠ some y → next' y = next y) :
    Chain next' (if xs = [] then q' else p) xs q' := by
  induction xs generalizing p with
  | nil => rfl
  | cons x xs ih =>
    rw [if_neg (List.cons_ne_nil x xs)]
    refine ⟨h.1, ?_⟩
    obtain ⟨hx, hxs⟩ := List.nodup_cons.mp hnodup
    cases xs with
    | nil => exact hlast x rfl
    | cons y ys =>
      have hne : (x :: y :: ys).getLast? ≠ some x := by
        rw [List.getLast?_cons_cons]
        intro he
        exact hx (List.mem_of_getLast? he)
      rw [hsame x List.mem_cons_self hne]
      have hrest := ih h.2 hxs (fun z hz => hlast z (by rw [List.getLast?_cons_cons]; exact hz))
        (fun z hz hz' => hsame z (List.mem_cons_of_mem x hz)
          (by rw [List.getLast?_cons_cons]; exact hz'))
      rw [if_neg (List.cons_ne_nil y ys)] at hrest
      exact hrest

theorem Chain.concat (h : Chain next p xs none) (hnodup : xs.Nodup) (hnext : next' x = none)
    (hlast : ∀ y, xs.getLast? = some y → next' y = some x)
    (hsame : ∀ y ∈ xs, xs.getLast? ≠ some y → next' y = next y) :
    Chain next' (if xs = [] then some x else p) (xs ++ [x]) none :=
  chain_append.mpr ⟨some x, h.redirect hnodup hlast hsame, rfl, hnext⟩

/-- A member is taken out: the one before it is linked with the one behind it. -/
theorem Chain.removed [DecidableEq α] (h : Chain next p (xs ++ x :: ys) none)
    (hnodup : (xs ++ x :: ys).Nodup) (hlast : ∀ y, xs.getLast? = some y → next' y = next x)
    (hsame : ∀ y ∈ xs ++ ys, xs.getLast? ≠ some y → next' y = next y) :
    Chain next' (if p = some x then next x else p) (xs ++ ys) none := by
  obtain ⟨m, hbefore, rfl, hbehind⟩ := chain_append.mp h
  obtain ⟨hxs, hxys, hdisjoint⟩ := List.nodup_append.mp hnodup
  have hfirst : (if p = some x then next x else p) = if xs = [] then next x else p := by
    cases xs with
    | nil => rw [if_pos (show p = some x from hbefore), if_pos rfl]
    | cons y xs =>
      rw [if_neg (List.cons_ne_nil y xs), if_neg]
      rw [hbefore.1]
      intro he
      exact hdisjoint y List.mem_cons_self x List.mem_cons_self (Option.some.inj he)
  rw [hfirst]
  refine chain_append.mpr ⟨next x, ?_, ?_⟩
  · exact hbefore.redirect hxs hlast (fun y hy => hsame y (List.mem_append_left ys hy))
  · refine hbehind.congr (fun y hy => hsame y (List.mem_append_right xs hy) (fun he => ?_))
    exact hdisjoint y (List.mem_of_getLast? he) y (List.mem_cons_of_mem x hy) rfl

/-! ## Both ways -/

theorem linked_nil (next pre : α → Option α) : Linked next pre none none [] :=
  ⟨List.nodup_nil, rfl, rfl⟩

theorem Linked.swap (h : Linked next pre head last xs) : Linked pre next last head xs.reverse :=
  ⟨List.nodup_reverse.mpr h.nodup, h.backward, by rw [List.reverse_reverse]; exact h.forward⟩

theorem Linked.head_eq (h : Linked next pre head last xs) : head = xs.head? := h.forward.start

theorem Linked.last_eq (h : Linked next pre head last xs) : last = xs.getLast? := by
  rw [h.backward.start, List.head?_reverse]

theorem Linked.neighbours (h : Linked next pre head last (xs ++ x :: ys)) :
    pre x = xs.getLast? ∧ next x = ys.head? := by
  obtain ⟨_, _, _, hnext⟩ := chain_append.mp h.forward
  have hback := h.backward
  rw [List.reverse_append, List.reverse_cons, List.append_assoc, List.singleton_append] at hback
  obtain ⟨_, _, _, hpre⟩ := chain_append.mp hback
  exact ⟨by rw [hpre.start, List.head?_reverse], hnext.start⟩

theorem Linked.concat (h : Linked next pre head last xs) (hx : x ∉ xs) (hnext : next' x = none)
    (hpre : pre' x = last) (hlast : ∀ y, last = some y → next' y = some x)
    (hsame : ∀ y ∈ xs, last ≠ some y → next' y = next y) (hback : ∀ y ∈ xs, pre' y = pre y) :
    Linked next' pre' (if head = none then some x else head) (some x) (xs ++ [x]) := by
  refine ⟨?_, ?_, ?_⟩
  · rw [List.nodup_append_comm]
    exact List.nodup_cons.mpr ⟨hx, h.nodup⟩
  · rw [h.last_eq] at hlast hsame
    have hfirst : (head = none) = (xs = []) := by
      rw [h.head_eq, List.head?_eq_none_iff]
    simp only [hfirst]
    exact h.forward.concat h.nodup hnext hlast hsame
  · rw [List.reverse_append, List.reverse_singleton, List.singleton_append]
    refine ⟨rfl, ?_⟩
    rw [hpre]
    exact h.backward.congr (fun y hy => hback y (List.mem_reverse.mp hy))

theorem Linked.cons (h : Linked next pre head last xs) (hx : x ∉ xs) (hpre : pre' x = none)
    (hnext : next' x = head) (hhead : ∀ y, head = some y → pre' y = some x)
    (hsame : ∀ y ∈ xs, head ≠ some y → pre' y = pre y) (hforth : ∀ y ∈ xs, next' y = next y) :
    Linked next' pre' (some x) (if last = none then some x else last) (x :: xs) := by
  have hswap := h.swap.concat (mt List.mem_reverse.mp hx) hpre hnext hhead
    (fun y hy => hsame y (List.mem_reverse.mp hy)) (fun y hy => hforth y (List.mem_reverse.mp hy))
  have hlinked := hswap.swap
  rw [List.reverse_append, List.reverse_reverse] at hlinked
  exact hlinked

theorem Linked.removed [DecidableEq α] (h : Linked next pre head last (xs ++ x :: ys))
    (hnext : ∀ y, pre x = some y → next' y = next x)
    (hforth : ∀ y ∈ xs ++ ys, pre x ≠ some y → next' y = next y)
    (hpre : ∀ y, next x = some y → pre' y = pre x)
    (hback : ∀ y ∈ xs ++ ys, next x ≠ some y → pre' y = pre y) :
    Linked next' pre' (if head = some x then next x else head)
      (if last = some x then pre x else last) (xs ++ ys) := by
  obtain ⟨hpreX, hnextX⟩ := h.neighbours
  have hsub : (xs ++ ys).Sublist (xs ++ x :: ys) :=
    (List.Sublist.refl xs).append (List.sublist_cons_self x ys)
  refine ⟨h.nodup.sublist hsub, ?_, ?_⟩
  · rw [hpreX] at hnext hforth
    exact h.forward.removed h.nodup hnext hforth
  · have hswap := h.swap
    have hrev : (xs ++ x :: ys).reverse = ys.reverse ++ x :: xs.reverse := by simp
    rw [hrev] at hswap
    have hlastX : next x = ys.reverse.getLast? := by rw [hnextX, List.getLast?_reverse]
    rw [hlastX] at hpre hback
    rw [List.reverse_append]
    refine hswap.forward.removed hswap.nodup hpre (fun y hy => hback y ?_)
    simpa [or_comm] using hy

end linked_chains
