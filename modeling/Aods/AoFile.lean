-- `CAoFile`: what a loop of reads gives of a file, and what a loop of writes leaves in
-- one. A read may give less than it asked for, and a write may save less than it got.
import Mathlib.Algebra.GroupWithZero.Nat
import Aods.Machine

open machine

namespace util.ao_file

/-- What calls of `Read` for `cap` bytes give of a file, up to the first that gives nothing.
The sizes say how many bytes each call can give. -/
def reads (cap : Nat) : List Nat → Bytes → List Bytes
  | [], _ => []
  | n :: sizes, file =>
    let block := file.take (min n cap)
    if block = [] then [] else block :: reads cap sizes (file.drop block.length)

/-- What calls of `Write` leave in a file, where call `n` saves `saved n` bytes of its block at
most. -/
def written (saved : Nat → Nat) (blocks : List Bytes) : Bytes :=
  (blocks.mapIdx (fun n block => block.take (saved n))).flatten

/-- Positive sizes that add up to a file. -/
structure Whole (cap : Nat) (sizes : List Nat) (file : Bytes) : Prop where
  positive : ∀ n ∈ sizes, 0 < n ∧ n ≤ cap
  sum : sizes.sum = file.length

/-- Calls that fill their blocks, and enough of them for a file. -/
structure Filling (cap : Nat) (sizes : List Nat) (file : Bytes) : Prop where
  filled : ∀ n ∈ sizes, cap ≤ n
  enough : file.length ≤ cap * sizes.length

theorem reads_length {cap : Nat} {sizes : List Nat} {file block : Bytes}
    (h : block ∈ reads cap sizes file) :
    0 < block.length ∧ block.length ≤ cap := by
  induction sizes generalizing file with
  | nil => cases h
  | cons n sizes ih =>
    unfold reads at h
    dsimp only at h
    split at h
    · cases h
    · rename_i hne
      rcases List.mem_cons.mp h with rfl | h
      · refine ⟨List.length_pos_iff.mpr hne, ?_⟩
        rw [List.length_take]
        omega
      · exact ih h

theorem Whole.flatten {cap : Nat} {sizes : List Nat} {file : Bytes} (h : Whole cap sizes file) :
    (reads cap sizes file).flatten = file := by
  induction sizes generalizing file with
  | nil =>
    have hsum := h.sum
    rw [List.sum_nil] at hsum
    exact (List.eq_nil_of_length_eq_zero hsum.symm).symm
  | cons n sizes ih =>
    obtain ⟨hpos, hcap⟩ := h.positive n List.mem_cons_self
    have hsum := h.sum
    rw [List.sum_cons] at hsum
    have hlen : (file.take n).length = n := by
      rw [List.length_take]
      omega
    have hne : file.take n ≠ [] := List.ne_nil_of_length_pos (by omega)
    have hrest : Whole cap sizes (file.drop n) :=
      ⟨fun m hm => h.positive m (List.mem_cons_of_mem n hm), by rw [List.length_drop]; omega⟩
    unfold reads
    dsimp only
    rw [Nat.min_eq_left hcap, if_neg hne, List.flatten_cons, hlen, ih hrest, List.take_append_drop]

theorem Filling.cons {cap : Nat} {sizes : List Nat} {file : Bytes} (h : Filling cap sizes file)
    (hcap : 0 < cap) (hne : file ≠ []) :
    ∃ sizes', reads cap sizes file = file.take cap :: reads cap sizes' (file.drop cap) ∧
      Filling cap sizes' (file.drop cap) := by
  cases sizes with
  | nil =>
    have henough := h.enough
    rw [List.length_nil, Nat.mul_zero] at henough
    exact absurd (List.eq_nil_of_length_eq_zero (Nat.le_zero.mp henough)) hne
  | cons n sizes =>
    have hn := h.filled n List.mem_cons_self
    have henough := h.enough
    rw [List.length_cons, Nat.mul_succ] at henough
    have hblock : file.take cap ≠ [] := by
      intro hnil
      rcases List.take_eq_nil_iff.mp hnil with hzero | hnil
      · omega
      · exact hne hnil
    refine ⟨sizes, ?_, fun m hm => h.filled m (List.mem_cons_of_mem n hm), ?_⟩
    · conv_lhs => unfold reads
      dsimp only
      rw [Nat.min_eq_right hn, if_neg hblock, List.length_take]
      rcases Nat.le_total cap file.length with hle | hle
      · rw [Nat.min_eq_left hle]
      · rw [Nat.min_eq_right hle, List.drop_length, List.drop_of_length_le hle]
    · rw [List.length_drop]
      omega

theorem reads_nil (cap : Nat) (sizes : List Nat) : reads cap sizes [] = [] := by
  cases sizes with
  | nil => rfl
  | cons n sizes => simp [reads]

theorem written_eq_flatten {saved : Nat → Nat} {blocks : List Bytes}
    (h : ∀ n block, blocks[n]? = some block → block.length ≤ saved n) :
    written saved blocks = blocks.flatten := by
  have hblocks : blocks.mapIdx (fun n block => block.take (saved n)) = blocks := by
    apply List.ext_getElem
    · simp
    · intro n h1 h2
      rw [List.getElem_mapIdx]
      exact List.take_of_length_le (h n _ (List.getElem?_eq_getElem h2))
  rw [written, hblocks]

theorem written_full {saved : Nat → Nat} {blocks : List Bytes}
    (h : ∀ n, ∀ block ∈ blocks, block.length ≤ saved n) : written saved blocks = blocks.flatten :=
  written_eq_flatten (fun n block hblock => h n block (List.mem_of_getElem? hblock))

theorem written_cons (saved : Nat → Nat) (block : Bytes) (blocks : List Bytes) :
    written saved (block :: blocks) =
      block.take (saved 0) ++ written (fun n => saved (n + 1)) blocks := by
  unfold written
  rw [List.mapIdx_cons, List.flatten_cons]

theorem written_length_le (saved : Nat → Nat) (blocks : List Bytes) :
    (written saved blocks).length ≤ blocks.flatten.length := by
  induction blocks generalizing saved with
  | nil => simp [written]
  | cons block blocks ih =>
    have hrest := ih (fun n => saved (n + 1))
    rw [written_cons, List.flatten_cons, List.length_append, List.length_append, List.length_take]
    omega

theorem saved_of_written_length {saved : Nat → Nat} {blocks : List Bytes}
    (h : (written saved blocks).length = blocks.flatten.length) {n : Nat} {block : Bytes}
    (hblock : blocks[n]? = some block) : block.length ≤ saved n := by
  induction blocks generalizing saved n with
  | nil => simp at hblock
  | cons b blocks ih =>
    have hrest := written_length_le (fun n => saved (n + 1)) blocks
    rw [written_cons, List.flatten_cons, List.length_append, List.length_append,
      List.length_take] at h
    cases n with
    | zero =>
      cases hblock
      omega
    | succ n =>
      have hbehind : (written (fun n => saved (n + 1)) blocks).length = blocks.flatten.length := by
        omega
      exact ih hbehind hblock

/-- How many bytes calls of `Read` can give, up to the first that can give none. -/
def given (cap : Nat) (sizes : List Nat) : Nat :=
  ((sizes.takeWhile (fun n => 0 < n)).map (fun n => min n cap)).sum

theorem reads_flatten {cap : Nat} (hcap : 0 < cap) (sizes : List Nat) (file : Bytes) :
    (reads cap sizes file).flatten = file.take (given cap sizes) := by
  induction sizes generalizing file with
  | nil => simp [reads, given]
  | cons n sizes ih =>
    unfold reads
    dsimp only
    by_cases hn : 0 < n
    · have hgiven : given cap (n :: sizes) = min n cap + given cap sizes := by
        simp [given, hn]
      rw [hgiven]
      split
      · rename_i hnil
        have hfile : file = [] := by
          rcases List.take_eq_nil_iff.mp hnil with hzero | hfile
          · omega
          · exact hfile
        simp [hfile]
      · have hdrop : file.drop (file.take (min n cap)).length = file.drop (min n cap) := by
          rw [List.length_take]
          rcases Nat.le_total (min n cap) file.length with hle | hle
          · rw [Nat.min_eq_left hle]
          · rw [Nat.min_eq_right hle, List.drop_length, List.drop_of_length_le hle]
        rw [List.flatten_cons, hdrop, ih, List.take_add]
    · have hzero : n = 0 := by omega
      simp [hzero, given]

/-- A loop of reads and writes leaves all of a file just when the reads come to its end and
no write is short. -/
theorem written_reads_iff {cap : Nat} (hcap : 0 < cap) (saved : Nat → Nat) (sizes : List Nat)
    (file : Bytes) :
    written saved (reads cap sizes file) = file ↔
      file.length ≤ given cap sizes ∧
        ∀ n block, (reads cap sizes file)[n]? = some block → block.length ≤ saved n := by
  have hflatten := reads_flatten hcap sizes file
  constructor
  · intro h
    have hle := written_length_le saved (reads cap sizes file)
    have hwhole : (reads cap sizes file).flatten.length = min (given cap sizes) file.length := by
      rw [hflatten, List.length_take]
    rw [h] at hle
    refine ⟨by omega, fun n block hblock => saved_of_written_length ?_ hblock⟩
    rw [h]
    omega
  · rintro ⟨hgiven, hsaved⟩
    rw [written_eq_flatten hsaved, hflatten, List.take_of_length_le hgiven]

end util.ao_file
