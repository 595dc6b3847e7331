-- `std::map` with a string for key. An iterator that `find` gives is a lookup,
-- and its laws say what a write to one key does to every other.
import Aods.Machine
import Mathlib.Data.List.AList

open machine

namespace std_map

abbrev StdMap (V : Type) := AList (fun _ : Bytes => V)

variable {V : Type}

theorem find_insert (m : StdMap V) (k k' : Bytes) (v : V) :
    (m.insert k v).lookup k' = if k' = k then some v else m.lookup k' := by
  split
  · rename_i h
    rw [h, AList.lookup_insert]
  · rename_i h
    exact AList.lookup_insert_ne h

theorem find_erase (m : StdMap V) (k k' : Bytes) :
    (m.erase k).lookup k' = if k' = k then none else m.lookup k' := by
  split
  · rename_i h
    rw [h, AList.lookup_erase]
  · rename_i h
    exact AList.lookup_erase_ne h

@[simp] theorem find_empty (k : Bytes) : (∅ : StdMap V).lookup k = none := AList.lookup_empty k

theorem find_insert_some {m : StdMap V} {k k' : Bytes} {v w : V} :
    (m.insert k v).lookup k' = some w ↔ (k' = k ∧ v = w) ∨ (k' ≠ k ∧ m.lookup k' = some w) := by
  rw [find_insert]
  by_cases h : k' = k
  · simp [h]
  · simp [h]

theorem find_erase_some {m : StdMap V} {k k' : Bytes} {w : V} :
    (m.erase k).lookup k' = some w ↔ k' ≠ k ∧ m.lookup k' = some w := by
  rw [find_erase]
  by_cases h : k' = k
  · simp [h]
  · simp [h]

/-! ## Maps of values -/

variable {W : Type}

/-- An entry with another value. -/
def mapEntry (f : V → W) (e : Sigma fun _ : Bytes => V) : Sigma fun _ : Bytes => W := ⟨e.1, f e.2⟩

/-- The map with another value for each key. -/
def mapValues (f : V → W) (m : StdMap V) : StdMap W where
  entries := m.entries.map (mapEntry f)
  nodupKeys := by
    have hkeys : (m.entries.map (mapEntry f)).keys = m.entries.keys := by
      simp [List.keys, mapEntry]
    rw [List.NodupKeys, hkeys]
    exact m.nodupKeys

theorem dlookup_map (f : V → W) (k : Bytes) (l : List (Sigma fun _ : Bytes => V)) :
    (l.map (mapEntry f)).dlookup k = (l.dlookup k).map f := by
  induction l with
  | nil => rfl
  | cons e l ih =>
    obtain ⟨k', v⟩ := e
    have hentry : mapEntry f ⟨k', v⟩ = ⟨k', f v⟩ := rfl
    rw [List.map_cons, hentry]
    by_cases h : k = k'
    · subst h
      rw [List.dlookup_cons_eq, List.dlookup_cons_eq]
      rfl
    · rw [List.dlookup_cons_ne _ _ h, List.dlookup_cons_ne _ _ h, ih]

theorem kerase_map (f : V → W) (k : Bytes) (l : List (Sigma fun _ : Bytes => V)) :
    (l.map (mapEntry f)).kerase k = (l.kerase k).map (mapEntry f) := by
  induction l with
  | nil => rfl
  | cons e l ih =>
    rw [List.map_cons]
    by_cases h : k = e.1
    · have h' : k = (mapEntry f e).1 := h
      rw [List.kerase_cons_eq h, List.kerase_cons_eq h']
    · have h' : k ≠ (mapEntry f e).1 := h
      rw [List.kerase_cons_ne h, List.kerase_cons_ne h', ih, List.map_cons]

theorem find_mapValues (f : V → W) (m : StdMap V) (k : Bytes) :
    (mapValues f m).lookup k = (m.lookup k).map f := dlookup_map f k m.entries

theorem mapValues_insert (f : V → W) (m : StdMap V) (k : Bytes) (v : V) :
    mapValues f (m.insert k v) = (mapValues f m).insert k (f v) := by
  apply AList.ext
  rw [AList.entries_insert]
  unfold mapValues
  dsimp only
  rw [AList.entries_insert, List.map_cons, kerase_map]
  rfl

/-! ## Iteration -/

/-- The entries as an iterator comes by them, in the order of their keys. -/
def inOrder (m : StdMap V) : List (Bytes × V) :=
  (m.entries.mergeSort (fun a b => a.1 ≤ b.1)).map (fun e => (e.1, e.2))

theorem mem_inOrder {m : StdMap V} {k : Bytes} {v : V} :
    (k, v) ∈ inOrder m ↔ m.lookup k = some v := by
  have hentry : m.lookup k = some v ↔ (⟨k, v⟩ : Sigma fun _ : Bytes => V) ∈ m.entries :=
    AList.mem_lookup_iff
  unfold inOrder
  rw [hentry, List.mem_map]
  constructor
  · rintro ⟨e, he, hkv⟩
    obtain ⟨rfl, rfl⟩ := Prod.mk.inj hkv
    exact List.mem_mergeSort.mp he
  · intro h
    exact ⟨⟨k, v⟩, List.mem_mergeSort.mpr h, rfl⟩

theorem inOrder_of_entries {m : StdMap V} {k : Bytes} {v : V} (h : m.entries = [⟨k, v⟩]) :
    inOrder m = [(k, v)] := by
  unfold inOrder
  rw [h, List.mergeSort_singleton]
  rfl

end std_map
