-- Objects on a heap, by their addresses. What is read, written or deleted through a pointer has to
-- be there.
import Aods.Machine
import Mathlib.Data.List.AList

open machine

namespace heap

variable {V : Type}

/-- A pointer. `none` is NULL. -/
abbrev Ptr := Option Nat

abbrev Heap (V : Type) := AList (fun _ : Nat => V)

/-- A pointer to an object that is deleted dangles, as an iterator of an element that is erased
does. -/
def read (h : Heap V) : Ptr → Except Fault V
  | none => .error .null_pointer
  | some a =>
    match h.lookup a with
    | none => .error .bad_iterator
    | some v => .ok v

def modify (h : Heap V) (f : V → V) : Ptr → Except Fault (Heap V)
  | none => .error .null_pointer
  | some a =>
    match h.lookup a with
    | none => .error .bad_iterator
    | some v => .ok (h.insert a (f v))

/-- `delete`, which leaves NULL alone. -/
def delete (h : Heap V) : Ptr → Except Fault (Heap V)
  | none => .ok h
  | some a => if a ∈ h then .ok (h.erase a) else .error .bad_iterator

variable {h : Heap V} {a : Nat} {v : V} {f : V → V} {p : Ptr}

theorem find_insert (h : Heap V) (a b : Nat) (v : V) :
    (h.insert a v).lookup b = if b = a then some v else h.lookup b := by
  split
  · rename_i he
    rw [he, AList.lookup_insert]
  · rename_i hne
    exact AList.lookup_insert_ne hne

theorem find_erase (h : Heap V) (a b : Nat) :
    (h.erase a).lookup b = if b = a then none else h.lookup b := by
  split
  · rename_i he
    rw [he, AList.lookup_erase]
  · rename_i hne
    exact AList.lookup_erase_ne hne

theorem read_some (ha : h.lookup a = some v) : read h (some a) = .ok v := by
  simp only [read, ha]

theorem modify_some (ha : h.lookup a = some v) : modify h f (some a) = .ok (h.insert a (f v)) := by
  simp only [modify, ha]

theorem delete_some (ha : h.lookup a = some v) : delete h (some a) = .ok (h.erase a) := by
  have hmem : a ∈ h := AList.lookup_isSome.mp (by rw [ha]; rfl)
  simp only [delete, hmem, if_true]

theorem modify_finds (hp : ∀ a, p = some a → (h.lookup a).isSome) (hnull : p ≠ none) :
    ∃ h', modify h f p = .ok h' ∧ ∀ b, h'.lookup b = if p = some b then (h.lookup b).map f else
      h.lookup b := by
  obtain ⟨a, rfl⟩ := Option.ne_none_iff_exists'.mp hnull
  obtain ⟨v, hv⟩ := Option.isSome_iff_exists.mp (hp a rfl)
  refine ⟨_, modify_some hv, fun b => ?_⟩
  rw [find_insert]
  by_cases hb : b = a
  · rw [if_pos hb, hb, if_pos rfl, hv]
    rfl
  · rw [if_neg hb, if_neg (fun he => hb (Option.some.inj he).symm)]

theorem insert_modify_finds (ha : h.lookup a = none) (v : V)
    (hp : ∀ b, p = some b → (h.lookup b).isSome) (hnull : p ≠ none) :
    ∃ h', modify (h.insert a v) f p = .ok h' ∧ ∀ b, h'.lookup b =
      if b = a then some v else if p = some b then (h.lookup b).map f else h.lookup b := by
  obtain ⟨h', hmodify, hfinds⟩ := @modify_finds _ (h.insert a v) f p (fun b hb => by
    rw [find_insert]
    split
    · rfl
    · exact hp b hb) hnull
  refine ⟨h', hmodify, fun b => ?_⟩
  rw [hfinds, find_insert]
  by_cases hb : b = a
  · have hne : p ≠ some b := by
      intro he
      have hsome := hp b he
      rw [hb, ha] at hsome
      cases hsome
    rw [if_neg hne]
    simp only [hb, if_true]
  · simp only [hb, if_false]

end heap
