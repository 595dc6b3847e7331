-- A flat memory: cells by their offset from a base address. A read copies
-- cells out, a write lays cells over, and neither looks at any bound.
import Mathlib.Tactic.Common
import Mathlib.Data.List.Basic

namespace flat_memory

variable {α : Type}

/-- The cells around a base address, by their offset from it. -/
abbrev Mem (α : Type) := Int → α

/-- The `n` cells from offset `o` on. -/
def read (m : Mem α) (o : Int) (n : Nat) : List α :=
  (List.range n).map (fun i : Nat => m (o + (i : Int)))

/-- The memory with `xs` laid over the cells from offset `o` on. -/
def write (m : Mem α) (o : Int) (xs : List α) : Mem α := fun i =>
  if i < o then m i else (xs[(i - o).toNat]?).getD (m i)

/-! ## One read -/

@[simp] theorem length_read (m : Mem α) (o : Int) (n : Nat) : (read m o n).length = n := by
  simp [read]

@[simp] theorem read_zero (m : Mem α) (o : Int) : read m o 0 = [] := rfl

theorem getElem?_read (m : Mem α) (o : Int) {n i : Nat} (h : i < n) :
    (read m o n)[i]? = some (m (o + (i : Int))) := by
  simp [read, h]

theorem read_congr {m m' : Mem α} {o : Int} {n : Nat}
    (h : ∀ i : Nat, i < n → m (o + (i : Int)) = m' (o + (i : Int))) : read m o n = read m' o n := by
  apply List.map_congr_left
  intro i hi
  exact h i (List.mem_range.mp hi)

theorem read_add (m : Mem α) (o : Int) (a b : Nat) :
    read m o (a + b) = read m o a ++ read m (o + (a : Int)) b := by
  unfold read
  rw [List.range_add, List.map_append, List.map_map]
  congr 1
  apply List.map_congr_left
  intro i _
  simp only [Function.comp_apply, Int.natCast_add]
  congr 1
  omega

theorem read_of_le {m : Mem α} {o : Int} {n k : Nat} {xs : List α} (h : read m o n = xs)
    (hk : k ≤ n) : read m o k = xs.take k := by
  obtain ⟨r, rfl⟩ := Nat.exists_eq_add_of_le hk
  rw [← h, read_add]
  simp

theorem read_drop {m : Mem α} {o : Int} {n k : Nat} {xs : List α} (h : read m o n = xs)
    (hk : k ≤ n) : read m (o + (k : Int)) (n - k) = xs.drop k := by
  obtain ⟨r, rfl⟩ := Nat.exists_eq_add_of_le hk
  rw [← h, read_add]
  simp

/-! ## A write, and the read after it -/

theorem write_before (m : Mem α) {o i : Int} (xs : List α) (h : i < o) : write m o xs i = m i := by
  simp [write, h]

theorem write_after (m : Mem α) {o i : Int} (xs : List α) (h : o + (xs.length : Int) ≤ i) :
    write m o xs i = m i := by
  have hle : xs.length ≤ (i - o).toNat := by omega
  simp [write, List.getElem?_eq_none hle]

theorem write_at (m : Mem α) (o : Int) (xs : List α) {k : Nat} (h : k < xs.length) :
    write m o xs (o + (k : Int)) = xs[k] := by
  have hk : (o + (k : Int) - o).toNat = k := by omega
  have hlt : ¬ o + (k : Int) < o := by omega
  rw [write, if_neg hlt, hk, List.getElem?_eq_getElem h]
  rfl

@[simp] theorem write_nil (m : Mem α) (o : Int) : write m o [] = m := by
  funext i
  simp [write]

@[simp] theorem read_write_self (m : Mem α) (o : Int) (xs : List α) :
    read (write m o xs) o xs.length = xs := by
  apply List.ext_getElem
  · simp
  · intro i h1 h2
    simpa [read] using write_at m o xs h2

theorem write_read_self (m : Mem α) (o : Int) (n : Nat) : write m o (read m o n) = m := by
  funext i
  by_cases h1 : i < o
  · exact write_before m _ h1
  obtain ⟨k, rfl⟩ : ∃ k : Nat, i = o + (k : Int) := ⟨(i - o).toNat, by omega⟩
  by_cases h2 : k < n
  · rw [write_at m o _ (by simpa using h2)]
    simp [read]
  · exact write_after m _ (by simp; omega)

/-- A write leaves every read that it does not meet as it was. -/
theorem read_write_of_disjoint (m : Mem α) {o p : Int} (xs : List α) {n : Nat}
    (h : p + (n : Int) ≤ o ∨ o + (xs.length : Int) ≤ p) : read (write m o xs) p n = read m p n := by
  apply read_congr
  intro i hi
  rcases h with h | h
  · exact write_before m xs (by omega)
  · exact write_after m xs (by omega)

theorem read_write_append (m : Mem α) (o : Int) (n : Nat) (xs : List α) :
    read (write m (o + (n : Int)) xs) o (n + xs.length) = read m o n ++ xs := by
  rw [read_add, read_write_self, read_write_of_disjoint _ _ (Or.inl (Int.le_refl _))]

/-- Where a write laid nothing, the cell is as before; where it did, the cell it laid. -/
theorem write_cases (m : Mem α) (o : Int) (xs : List α) (i : Int) :
    ((i < o ∨ o + (xs.length : Int) ≤ i) ∧ write m o xs i = m i) ∨
      ∃ k : Nat, ∃ h : k < xs.length, i = o + (k : Int) ∧ write m o xs i = xs[k] := by
  by_cases h1 : i < o
  · exact Or.inl ⟨Or.inl h1, write_before m xs h1⟩
  by_cases h2 : o + (xs.length : Int) ≤ i
  · exact Or.inl ⟨Or.inr h2, write_after m xs h2⟩
  obtain ⟨k, rfl⟩ : ∃ k : Nat, i = o + (k : Int) := ⟨(i - o).toNat, by omega⟩
  have hk : k < xs.length := by omega
  exact Or.inr ⟨k, hk, rfl, write_at m o xs hk⟩

/-- Two writes that do not meet may change places. -/
theorem write_comm (m : Mem α) {o p : Int} {xs ys : List α}
    (h : o + (xs.length : Int) ≤ p ∨ p + (ys.length : Int) ≤ o) :
    write (write m o xs) p ys = write (write m p ys) o xs := by
  funext i
  rcases write_cases (write m o xs) p ys i with ⟨hp, he⟩ | ⟨k, hk, rfl, he⟩
  · rcases write_cases m o xs i with ⟨ho, he'⟩ | ⟨k, hk, rfl, he'⟩
    · rw [he, he']
      rcases write_cases (write m p ys) o xs i with ⟨_, he2⟩ | ⟨j, hj, rfl, _⟩
      · rw [he2]
        rcases hp with hp | hp
        · rw [write_before m ys hp]
        · rw [write_after m ys hp]
      · omega
    · rw [he, he', write_at (write m p ys) o xs hk]
  · rw [he]
    rcases write_cases (write m p ys) o xs (p + (k : Int)) with ⟨_, he2⟩ | ⟨j, hj, hj', _⟩
    · rw [he2, write_at m p ys hk]
    · omega

/-- A write covers one of the same cells before it. -/
theorem write_write_same (m : Mem α) (o : Int) {xs ys : List α} (h : xs.length = ys.length) :
    write (write m o xs) o ys = write m o ys := by
  funext i
  rcases write_cases (write m o xs) o ys i with ⟨hp, he⟩ | ⟨k, hk, rfl, he⟩
  · rw [he]
    rcases hp with hp | hp
    · rw [write_before m xs hp, write_before m ys hp]
    · rw [write_after m xs (by omega), write_after m ys hp]
  · rw [he, write_at m o ys hk]

/-- Two writes side by side are one write. -/
theorem write_write_append (m : Mem α) (o : Int) (xs ys : List α) :
    write (write m o xs) (o + (xs.length : Int)) ys = write m o (xs ++ ys) := by
  funext i
  by_cases h1 : i < o
  · rw [write_before _ _ h1, write_before _ _ (by omega), write_before _ _ h1]
  obtain ⟨k, rfl⟩ : ∃ k : Nat, i = o + (k : Int) := ⟨(i - o).toNat, by omega⟩
  by_cases h2 : k < xs.length
  · rw [write_before _ _ (by omega), write_at _ _ _ h2, write_at _ _ _ (by simp; omega),
      List.getElem_append_left h2]
  by_cases h3 : k < (xs ++ ys).length
  · have hk : o + (k : Int) = o + (xs.length : Int) + ((k - xs.length : Nat) : Int) := by omega
    have hy : k - xs.length < ys.length := by simp at h3; omega
    rw [write_at _ _ _ h3, hk, write_at _ _ _ hy, List.getElem_append_right (by omega)]
  · simp only [List.length_append] at h3
    rw [write_after _ _ (by omega), write_after _ _ (by omega), write_after _ _ (by simp; omega)]

end flat_memory
