-- Registers that keep the latest of the values that come, by a stamp. One keeps the last of two
-- with the same stamp, the other the first. The laws say what is left when the values have
-- come, and that their order does not matter where no two have one stamp.
import Mathlib.Order.Lattice
import Mathlib.Tactic.Common
import Mathlib.Data.List.Induction

namespace latest

variable {α τ : Type} [LinearOrder τ] (stamp : α → τ)

/-- A value takes the place of what is kept, unless that is later. -/
def keepLast (kept : Option α) (x : α) : Option α :=
  match kept with
  | none => some x
  | some y => if stamp x < stamp y then some y else some x

/-- A value takes the place of what is kept when it is later. -/
def keepFirst (kept : Option α) (x : α) : Option α :=
  match kept with
  | none => some x
  | some y => if stamp y < stamp x then some x else some y

/-- What was kept is not later than a value. -/
def NotLater (kept : Option α) (w : α) : Prop := ∀ y, kept = some y → stamp y ≤ stamp w

/-- No value that comes is later, and neither is what was kept. -/
structure Greatest (kept : Option α) (xs : List α) (w : α) : Prop where
  kept_le : NotLater stamp kept w
  all_le : ∀ x ∈ xs, stamp x ≤ stamp w

variable {stamp} {kept : Option α} {x w : α} {xs ys : List α}

theorem notLater_none (w : α) : NotLater stamp none w := by
  intro y hy
  cases hy

theorem keepLast_of_notLater (h : NotLater stamp kept x) : keepLast stamp kept x = some x := by
  cases kept with
  | none => rfl
  | some y =>
    unfold keepLast
    exact if_neg (not_lt.mpr (h y rfl))

theorem keepLast_of_later {y : α} (h : stamp x < stamp y) : keepLast stamp (some y) x = some y :=
  if_pos h

/-- One step of either register: what is left is one of the two, and neither is later. -/
theorem keepLast_cases (kept : Option α) (x : α) :
    ∃ w, keepLast stamp kept x = some w ∧ (w = x ∨ kept = some w) ∧ NotLater stamp kept w ∧
      stamp x ≤ stamp w := by
  cases kept with
  | none => exact ⟨x, rfl, Or.inl rfl, notLater_none x, le_refl _⟩
  | some y =>
    by_cases h : stamp x < stamp y
    · refine ⟨y, keepLast_of_later h, Or.inr rfl, fun z hz => ?_, le_of_lt h⟩
      cases hz
      exact le_refl _
    · refine ⟨x, if_neg h, Or.inl rfl, fun z hz => ?_, le_refl _⟩
      cases hz
      exact not_lt.mp h

theorem keepFirst_cases (kept : Option α) (x : α) :
    ∃ w, keepFirst stamp kept x = some w ∧ (w = x ∨ kept = some w) ∧ NotLater stamp kept w ∧
      stamp x ≤ stamp w := by
  cases kept with
  | none => exact ⟨x, rfl, Or.inl rfl, notLater_none x, le_refl _⟩
  | some y =>
    by_cases h : stamp y < stamp x
    · refine ⟨x, if_pos h, Or.inl rfl, fun z hz => ?_, le_refl _⟩
      cases hz
      exact le_of_lt h
    · refine ⟨y, if_neg h, Or.inr rfl, fun z hz => ?_, not_lt.mp h⟩
      cases hz
      exact le_refl _

/-! ## Runs of a register -/

/-- A step that leaves one of its two values and a latest one. -/
def Keeps (keep : Option α → α → Option α) (stamp : α → τ) : Prop :=
  ∀ kept x, ∃ w, keep kept x = some w ∧ (w = x ∨ kept = some w) ∧ NotLater stamp kept w ∧
    stamp x ≤ stamp w

variable {keep : Option α → α → Option α}

/-- What a run leaves came or was kept, and is a greatest. -/
theorem foldl_some (hkeep : Keeps keep stamp) (h : xs.foldl keep kept = some w) :
    (w ∈ xs ∨ kept = some w) ∧ Greatest stamp kept xs w := by
  induction xs generalizing kept with
  | nil =>
    refine ⟨Or.inr h, fun y hy => ?_, by simp⟩
    rw [List.foldl_nil, hy] at h
    cases h
    exact le_refl _
  | cons x xs ih =>
    rw [List.foldl_cons] at h
    obtain ⟨v, hv, hfrom, hold, hnew⟩ := hkeep kept x
    obtain ⟨hmem, hle, hall⟩ := ih h
    rw [hv] at hmem hle
    have hvw : stamp v ≤ stamp w := hle v rfl
    refine ⟨?_, fun y hy => le_trans (hold y hy) hvw, fun y hy => ?_⟩
    · rcases hmem with hmem | hmem
      · exact Or.inl (List.mem_cons_of_mem x hmem)
      · cases hmem
        rcases hfrom with rfl | hkept
        · exact Or.inl List.mem_cons_self
        · exact Or.inr hkept
    · rcases List.mem_cons.mp hy with rfl | hy
      · exact le_trans hnew hvw
      · exact hall y hy

theorem foldl_isSome (hkeep : Keeps keep stamp) (h : xs ≠ [] ∨ kept ≠ none) :
    ∃ w, xs.foldl keep kept = some w := by
  induction xs generalizing kept with
  | nil =>
    rcases h with h | h
    · exact absurd rfl h
    · exact Option.ne_none_iff_exists'.mp h
  | cons x xs ih =>
    obtain ⟨v, hv, _⟩ := hkeep kept x
    rw [List.foldl_cons, hv]
    exact ih (Or.inr (Option.some_ne_none v))

theorem keeps_keepLast : Keeps (keepLast stamp) stamp := keepLast_cases

theorem keeps_keepFirst : Keeps (keepFirst stamp) stamp := keepFirst_cases

/-- A greatest value that came last of all with its stamp stays, whatever came before. -/
theorem foldl_keepLast_concat (h : Greatest stamp kept xs w) :
    (xs ++ [w]).foldl (keepLast stamp) kept = some w := by
  rw [List.foldl_append, List.foldl_cons, List.foldl_nil]
  apply keepLast_of_notLater
  intro y hy
  obtain ⟨hmem, _⟩ := foldl_some keeps_keepLast hy
  rcases hmem with hmem | hmem
  · exact h.all_le y hmem
  · exact h.kept_le y hmem

/-- Of values that come in the order of their stamps the last one stays. -/
theorem foldl_keepLast_sorted (h : xs.Pairwise (fun x y => stamp x ≤ stamp y)) :
    xs.foldl (keepLast stamp) none = xs.getLast? := by
  induction xs using List.reverseRecOn with
  | nil => rfl
  | append_singleton xs w _ =>
    rw [List.getLast?_concat]
    apply foldl_keepLast_concat
    refine ⟨notLater_none w, fun x hx => ?_⟩
    exact (List.pairwise_append.mp h).2.2 x hx w (List.mem_singleton_self w)

/-- A register of the second kind keeps a greatest value that comes first. -/
theorem foldl_keepFirst_cons (h : ∀ x ∈ xs, stamp x ≤ stamp w) :
    (w :: xs).foldl (keepFirst stamp) none = some w := by
  rw [List.foldl_cons]
  have hfirst : keepFirst stamp none w = some w := rfl
  rw [hfirst]
  induction xs with
  | nil => rfl
  | cons x xs ih =>
    have hkeep : keepFirst stamp (some w) x = some w := if_neg (not_lt.mpr (h x List.mem_cons_self))
    rw [List.foldl_cons, hkeep]
    exact ih (fun y hy => h y (List.mem_cons_of_mem x hy))

/-! ## The order of the values -/

/-- Values with one stamp are the same. -/
def Distinct (stamp : α → τ) (xs : List α) : Prop := ∀ x ∈ xs, ∀ y ∈ xs, stamp x = stamp y → x = y

/-- A greatest of distinct values is what is left. -/
theorem foldl_keepLast_greatest (hdistinct : Distinct stamp xs) (hw : w ∈ xs)
    (h : Greatest stamp kept xs w) :
    xs.foldl (keepLast stamp) kept = some w := by
  induction xs using List.reverseRecOn with
  | nil => cases hw
  | append_singleton xs x ih =>
    by_cases hx : x = w
    · subst hx
      exact foldl_keepLast_concat ⟨h.kept_le, fun y hy => h.all_le y (List.mem_append_left _ hy)⟩
    · have hmem : w ∈ xs := by
        rcases List.mem_append.mp hw with hw | hw
        · exact hw
        · exact absurd (List.mem_singleton.mp hw).symm hx
      have hlast : x ∈ xs ++ [x] := List.mem_append_right _ List.mem_cons_self
      have hlt : stamp x < stamp w :=
        lt_of_le_of_ne (h.all_le x hlast) (fun he => hx (hdistinct x hlast w hw he))
      have hbefore :=
        ih (fun y hy z hz => hdistinct y (List.mem_append_left _ hy) z (List.mem_append_left _ hz))
          hmem
        ⟨h.kept_le, fun y hy => h.all_le y (List.mem_append_left _ hy)⟩
      rw [List.foldl_append, hbefore]
      exact keepLast_of_later hlt

/-- Distinct values leave the same in every order, and however often each comes. -/
theorem foldl_keepLast_same (hdistinct : Distinct stamp xs) (hsame : ∀ x, x ∈ xs ↔ x ∈ ys) :
    xs.foldl (keepLast stamp) kept = ys.foldl (keepLast stamp) kept := by
  by_cases hnil : xs = []
  · subst hnil
    have hys : ys = [] := List.eq_nil_iff_forall_not_mem.mpr (fun y hy => by cases (hsame y).mpr hy)
    rw [hys]
  · have hsome : ∃ w, xs.foldl (keepLast stamp) kept = some w :=
      foldl_isSome keeps_keepLast (Or.inl hnil)
    obtain ⟨w, hw⟩ := hsome
    obtain ⟨hmem, hgreatest⟩ := foldl_some keeps_keepLast hw
    have hdistinct' : Distinct stamp ys :=
      fun y hy z hz => hdistinct y ((hsame y).mpr hy) z ((hsame z).mpr hz)
    have hgreatest' : Greatest stamp kept ys w :=
      ⟨hgreatest.kept_le, fun y hy => hgreatest.all_le y ((hsame y).mpr hy)⟩
    by_cases hcame : w ∈ xs
    · rw [hw, foldl_keepLast_greatest hdistinct' ((hsame w).mp hcame) hgreatest']
    · -- what was kept is later than all that comes
      have hkept := hmem.resolve_left hcame
      have hsome : ∃ v, ys.foldl (keepLast stamp) kept = some v :=
        foldl_isSome keeps_keepLast (Or.inr (by rw [hkept]; exact Option.some_ne_none w))
      obtain ⟨v, hv⟩ := hsome
      obtain ⟨hmem', hv'⟩ := foldl_some keeps_keepLast hv
      rcases hmem' with hmem' | hmem'
      · have hvx := (hsame v).mpr hmem'
        have hv₁ := foldl_keepLast_greatest hdistinct hvx
          ⟨hv'.kept_le, fun x hx => hv'.all_le x ((hsame x).mp hx)⟩
        rw [hv₁, hv]
      · rw [hw, hv, ← hmem', hkept]

end latest
