-- The first place where some bytes stand in others, and where a byte stands first.
import Aods.Machine

open machine

namespace occurrences

/-- The first position at which `find` stands in some bytes. -/
def first (find : Bytes) : Bytes → Option Nat
  | [] => if find = [] then some 0 else none
  | b :: s => if find.isPrefixOf (b :: s) then some 0 else (first find s).map (· + 1)

theorem first_some {find s : Bytes} {n : Nat} (h : first find s = some n) :
    n ≤ s.length ∧ find <+: s.drop n ∧ ∀ k < n, ¬ find <+: s.drop k := by
  induction s generalizing n with
  | nil =>
    unfold first at h
    split at h
    · rename_i hnil
      cases h
      exact ⟨Nat.le_refl _, by
        rw [hnil]; exact List.nil_prefix, fun k hk => absurd hk (Nat.not_lt_zero k)⟩
    · cases h
  | cons b s ih =>
    unfold first at h
    split at h
    · rename_i hprefix
      cases h
      exact ⟨Nat.zero_le _, List.isPrefixOf_iff_prefix.mp hprefix,
        fun k hk => absurd hk (Nat.not_lt_zero k)⟩
    · rename_i hprefix
      obtain ⟨m, hm, rfl⟩ := Option.map_eq_some_iff.mp h
      obtain ⟨hle, hstands, hbefore⟩ := ih hm
      refine ⟨Nat.succ_le_succ hle, hstands, fun k hk => ?_⟩
      cases k with
      | zero => exact fun hp => hprefix (List.isPrefixOf_iff_prefix.mpr hp)
      | succ k => exact hbefore k (Nat.lt_of_succ_lt_succ hk)

theorem first_none {find s : Bytes} (h : first find s = none) (k : Nat) : ¬ find <+: s.drop k := by
  induction s generalizing k with
  | nil =>
    unfold first at h
    split at h
    · cases h
    · rename_i hne
      rw [List.drop_nil]
      exact fun hp => hne (List.prefix_nil.mp hp)
  | cons b s ih =>
    unfold first at h
    split at h
    · cases h
    · rename_i hprefix
      cases k with
      | zero => exact fun hp => hprefix (List.isPrefixOf_iff_prefix.mpr hp)
      | succ k => exact ih (Option.map_eq_none_iff.mp h) k

/-- The first position is told by where `find` stands and where it does not. -/
theorem first_eq_some {find s : Bytes} {n : Nat} (hlen : n ≤ s.length) (h : find <+: s.drop n)
    (hbefore : ∀ k < n, ¬ find <+: s.drop k) : first find s = some n := by
  cases hfirst : first find s with
  | none => exact absurd h (first_none hfirst n)
  | some m =>
    obtain ⟨_, hstands, hnot⟩ := first_some hfirst
    rcases Nat.lt_trichotomy m n with hlt | rfl | hlt
    · exact absurd hstands (hbefore m hlt)
    · rfl
    · exact absurd h (hnot n hlt)

theorem first_room {find s : Bytes} {n : Nat} (h : first find s = some n) :
    n + find.length ≤ s.length := by
  obtain ⟨hle, hstands, _⟩ := first_some h
  have hlen := hstands.length_le
  rw [List.length_drop] at hlen
  omega

theorem first_short {find s : Bytes} (h : s.length < find.length) : first find s = none := by
  cases hfirst : first find s with
  | none => rfl
  | some n =>
    have hroom := first_room hfirst
    omega

/-- More text behind leaves the first position. -/
theorem first_append_of_some {find s : Bytes} {n : Nat} (h : first find s = some n) (t : Bytes) :
    first find (s ++ t) = some n := by
  obtain ⟨hle, hstands, hbefore⟩ := first_some h
  have hroom := first_room h
  apply first_eq_some
  · rw [List.length_append]
    omega
  · rw [List.drop_append_of_le_length hle]
    exact hstands.trans (List.prefix_append _ _)
  · intro k hk hp
    have hin : k ≤ s.length := by omega
    rw [List.drop_append_of_le_length hin] at hp
    exact hbefore k hk (List.prefix_of_prefix_length_le hp (List.prefix_append _ _)
      (by rw [List.length_drop]; omega))

/-- Text without the byte that `find` begins with comes before its first position. -/
theorem first_append {find s : Bytes} {c : UInt8} (hfind : find.head? = some c)
    (hs : c ∉ s) (t : Bytes) :
    first find (s ++ t) = (first find t).map (s.length + ·) := by
  induction s with
  | nil => simp
  | cons b s ih =>
    rw [List.mem_cons, not_or] at hs
    have hnot : ¬ find.isPrefixOf (b :: (s ++ t)) = true := by
      rw [List.isPrefixOf_iff_prefix]
      rintro ⟨u, hu⟩
      cases find with
      | nil => cases hfind
      | cons d find =>
        cases hfind
        exact hs.1 (List.cons.inj hu).1
    rw [List.cons_append, first, if_neg hnot, ih hs.2, Option.map_map]
    congr 1
    funext m
    show s.length + m + 1 = s.length + 1 + m
    omega

/-! ## One byte -/

/-- The first position of a byte is how many others are before it. -/
theorem findIdx_eq (s : Bytes) (c : UInt8) : s.findIdx (· = c) = (s.takeWhile (· ≠ c)).length := by
  induction s with
  | nil => rfl
  | cons b s ih =>
    by_cases hb : b = c
    · simp [List.findIdx_cons, hb]
    · simp [List.findIdx_cons, hb, ih]

end occurrences
