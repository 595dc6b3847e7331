-- Patterns by which a store lists its keys: `*` for any text, `?` for one byte, a bracket for one
-- byte of a class, and `\` in front of a byte that stands for itself. The laws are about the bytes
-- that are always themselves, and about patterns with another one, which match more than one text.
import Aods.Machine
import Mathlib.Data.List.Infix

open machine

namespace glob

/-! ## Patterns -/

/-- The bytes that may stand for others: `*`, `?`, `[` and `\`. -/
def special : Bytes := [42, 63, 91, 92]

/-- A text that is itself only. -/
def Plain (s : Bytes) : Prop := ∀ b ∈ s, b ∉ special

/-- A way to match a pattern with a text. What a bracket takes in is left open, but that it is one
byte of the text, and more than the bracket of the pattern. -/
structure Lawful (g : Bytes → Bytes → Bool) : Prop where
  nil : ∀ s, g [] s = true ↔ s = []
  lit : ∀ {b} p s, b ∉ special → (g (b :: p) s = true ↔ ∃ t, s = b :: t ∧ g p t = true)
  star : ∀ p s, g (42 :: p) s = true ↔ ∃ a t, s = a ++ t ∧ g p t = true
  any : ∀ p s, g (63 :: p) s = true ↔ ∃ b t, s = b :: t ∧ g p t = true
  escape : ∀ b p s, g (92 :: b :: p) s = true ↔ ∃ t, s = b :: t ∧ g p t = true
  bracket : ∀ p, p ≠ [] → ∃ ok : UInt8 → Bool, ∃ q r, p = q ++ r ∧ q ≠ [] ∧
    ∀ s, g (91 :: p) s = true ↔ ∃ b t, s = b :: t ∧ ok b = true ∧ g r t = true

variable {g : Bytes → Bytes → Bool} (hg : Lawful g)

/-! ## Plain texts -/

theorem Plain.append {s t : Bytes} (hs : Plain s) (ht : Plain t) : Plain (s ++ t) := by
  intro b hb
  rcases List.mem_append.mp hb with hb | hb
  · exact hs b hb
  · exact ht b hb

include hg

/-- A plain text in front of a pattern is itself. -/
theorem Lawful.plain {s : Bytes} (h : Plain s) (p t : Bytes) :
    g (s ++ p) t = true ↔ ∃ r, t = s ++ r ∧ g p r = true := by
  induction s generalizing t with
  | nil => simp
  | cons b s ih =>
    have hb := h b List.mem_cons_self
    have hs : Plain s := fun c hc => h c (List.mem_cons_of_mem b hc)
    rw [List.cons_append, hg.lit _ _ hb]
    constructor
    · rintro ⟨r, rfl, hr⟩
      obtain ⟨r', rfl, hr'⟩ := (ih hs r).mp hr
      exact ⟨r', rfl, hr'⟩
    · rintro ⟨r, rfl, hr⟩
      exact ⟨s ++ r, rfl, (ih hs _).mpr ⟨r, rfl, hr⟩⟩

theorem Lawful.star_nil (t : Bytes) : g [42] t = true :=
  (hg.star [] t).mpr ⟨t, [], by simp, (hg.nil []).mpr rfl⟩

/-- A plain text between two stars. -/
theorem Lawful.between {s : Bytes} (h : Plain s) (p t : Bytes) :
    g (42 :: (s ++ p)) t = true ↔ ∃ a r, t = a ++ (s ++ r) ∧ g p r = true := by
  rw [hg.star]
  constructor
  · rintro ⟨a, t', rfl, ht⟩
    obtain ⟨r, rfl, hr⟩ := (hg.plain h p t').mp ht
    exact ⟨a, r, rfl, hr⟩
  · rintro ⟨a, r, rfl, hr⟩
    exact ⟨a, s ++ r, rfl, (hg.plain h p _).mpr ⟨r, rfl, hr⟩⟩

/-! ## Other texts -/

/-- What is no star takes one byte. A bracket and a `\` take more than one of the pattern. -/
theorem Lawful.step {x : UInt8} {p t : Bytes} (hx : x ≠ 42) (hp : p ≠ [])
    (h : g (x :: p) t = true) :
    ∃ b r q, t = b :: r ∧ q <:+ p ∧ g q r = true ∧
      (∀ r', g q r' = true → g (x :: p) (b :: r') = true) ∧
      (x = 91 ∨ x = 92 → q.length < p.length) := by
  by_cases hany : x = 63
  · subst hany
    obtain ⟨b, r, rfl, hr⟩ := (hg.any p t).mp h
    exact ⟨b, r, p, rfl, List.suffix_refl p, hr,
      fun r' hr' => (hg.any p _).mpr ⟨b, r', rfl, hr'⟩, by simp⟩
  by_cases hbracket : x = 91
  · subst hbracket
    obtain ⟨ok, q, r, rfl, hq, hmatch⟩ := hg.bracket p hp
    obtain ⟨b, t', rfl, hb, ht'⟩ := (hmatch t).mp h
    refine ⟨b, t', r, rfl, List.suffix_append q r, ht',
      fun r' hr' => (hmatch _).mpr ⟨b, r', rfl, hb, hr'⟩, fun _ => ?_⟩
    have hpos : 0 < q.length := List.length_pos_iff.mpr hq
    rw [List.length_append]
    omega
  by_cases hescape : x = 92
  · subst hescape
    cases p with
    | nil => exact absurd rfl hp
    | cons b p =>
      obtain ⟨r, rfl, hr⟩ := (hg.escape b p t).mp h
      refine ⟨b, r, p, rfl, List.suffix_cons b p, hr,
        fun r' hr' => (hg.escape b p _).mpr ⟨r', rfl, hr'⟩, fun _ => ?_⟩
      rw [List.length_cons]
      omega
  · have hlit : x ∉ special := by simp [special, hx, hany, hbracket, hescape]
    obtain ⟨r, rfl, hr⟩ := (hg.lit p t hlit).mp h
    refine ⟨x, r, p, rfl, List.suffix_refl p, hr,
      fun r' hr' => (hg.lit p _ hlit).mpr ⟨r', rfl, hr'⟩, fun he => ?_⟩
    rcases he with he | he
    · exact absurd he hbracket
    · exact absurd he hescape

/-- A pattern that ends with a star and is not longer than a part of the text has a star over that
part. So there is room for another byte. -/
theorem Lawful.room {p a v : Bytes} (hlen : p.length < a.length)
    (h : g (p ++ [42]) (a ++ v) = true) :
    ∃ b c, a = b ++ c ∧ c ≠ [] ∧ ∀ x, g (p ++ [42]) (b ++ x :: (c ++ v)) = true := by
  induction hn : p.length using Nat.strong_induction_on generalizing p a with
  | _ n ih =>
    have ha : a ≠ [] := by
      intro hnil
      rw [hnil] at hlen
      exact absurd hlen (Nat.not_lt_zero _)
    cases p with
    | nil => exact ⟨[], a, rfl, ha, fun x => hg.star_nil _⟩
    | cons y p =>
      by_cases hstar : y = 42
      · subst hstar
        obtain ⟨s, t, hst, ht⟩ := (hg.star _ _).mp h
        refine ⟨[], a, rfl, ha, fun x => (hg.star _ _).mpr ⟨x :: s, t, ?_, ht⟩⟩
        rw [List.nil_append, hst]
        rfl
      · obtain ⟨b, r, q, hr, hq, hmatch, hback, _⟩ := hg.step hstar (by simp) h
        obtain ⟨z, a, rfl⟩ := List.exists_cons_of_ne_nil ha
        obtain ⟨rfl, rfl⟩ := List.cons.inj hr
        rw [List.length_cons] at hlen hn
        rw [List.length_cons] at hlen
        rcases List.suffix_concat_iff.mp hq with rfl | ⟨q', rfl, hq'⟩
        · -- the rest of the text is left over
          have hnil := (hg.nil _).mp hmatch
          have hanil : a = [] := (List.append_eq_nil_iff.mp hnil).1
          rw [hanil, List.length_nil] at hlen
          omega
        · have hle := hq'.length_le
          obtain ⟨s, c, rfl, hc, hroom⟩ := ih q'.length (by omega) (by omega) hmatch rfl
          exact ⟨z :: s, c, rfl, hc, fun x => hback _ (hroom x)⟩

/-- A text that is not plain, with a star behind it, takes another text as well as itself: there is
room for a byte in front of its end, or any byte may stand for a `?`. -/
theorem Lawful.other {w v : Bytes} {s : UInt8} (hw : ¬ Plain w)
    (h : g (w ++ [s] ++ [42]) (w ++ [s] ++ v) = true) :
    (∃ b c, w ++ [s] = b ++ c ∧ c ≠ [] ∧ ∀ x, g (w ++ [s] ++ [42]) (b ++ x :: (c ++ v)) = true) ∨
    ∃ b c, w ++ [s] = b ++ 63 :: c ∧ ∀ x, g (w ++ [s] ++ [42]) (b ++ x :: (c ++ v)) = true := by
  induction w with
  | nil => exact absurd (fun b hb => by simp at hb) hw
  | cons y w ih =>
    by_cases hstar : y = 42
    · subst hstar
      obtain ⟨a, t, hat, ht⟩ := (hg.star _ _).mp h
      refine Or.inl ⟨[], 42 :: (w ++ [s]),
        rfl, by simp, fun x => (hg.star _ _).mpr ⟨x :: a, t, ?_, ht⟩⟩
      rw [List.nil_append]
      exact congrArg (x :: ·) hat
    by_cases hany : y = 63
    · subst hany
      obtain ⟨b, r, hr, hmatch⟩ := (hg.any _ _).mp h
      obtain ⟨rfl, rfl⟩ := List.cons.inj hr
      exact Or.inr ⟨[], w ++ [s], rfl, fun x => (hg.any _ _).mpr ⟨x, _, rfl, hmatch⟩⟩
    obtain ⟨b, r, q, hr, hq, hmatch, hback, hshort⟩ := hg.step hstar (by simp) h
    obtain ⟨rfl, rfl⟩ := List.cons.inj hr
    by_cases hmore : y = 91 ∨ y = 92
    · have hlt := hshort hmore
      rcases List.suffix_concat_iff.mp hq with rfl | ⟨q', rfl, hq'⟩
      · have hnil := (hg.nil _).mp hmatch
        simp at hnil
      · obtain ⟨b, c, hbc, hc, hroom⟩ := hg.room (a := w ++ [s]) (by simpa using hlt) hmatch
        exact Or.inl ⟨y :: b, c, by rw [List.cons_append, hbc]; rfl, hc, fun x => hback _ (hroom x)⟩
    · have hlit : y ∉ special := by
        simp only [special, List.mem_cons, List.not_mem_nil, or_false]
        tauto
      have hw' : ¬ Plain w := by
        intro hplain
        apply hw
        intro b hb
        rcases List.mem_cons.mp hb with rfl | hb
        · exact hlit
        · exact hplain b hb
      have hrest : g (w ++ [s] ++ [42]) (w ++ [s] ++ v) = true := by
        obtain ⟨t, ht, hmatch'⟩ := (hg.lit _ _ hlit).mp h
        obtain ⟨_, rfl⟩ := List.cons.inj ht
        exact hmatch'
      have hcons : ∀ t, g (w ++ [s] ++ [42]) t = true → g (y :: w ++ [s] ++ [42]) (y :: t) = true :=
        fun t ht => (hg.lit _ _ hlit).mpr ⟨t, rfl, ht⟩
      rcases ih hw' hrest with ⟨b, c, hbc, hc, hroom⟩ | ⟨b, c, hbc, hroom⟩
      · exact Or.inl ⟨y :: b,
          c, by rw [List.cons_append, List.cons_append, hbc], hc, fun x => hcons _ (hroom x)⟩
      · exact Or.inr ⟨y :: b,
          c, by rw [List.cons_append, List.cons_append, hbc], fun x => hcons _ (hroom x)⟩

omit hg

/-! ## A way to match -/

/-- The ranges of a class, and the pattern behind its bracket. A class without an end goes to the
end of the pattern. -/
def classOf : Bytes → List (UInt8 × UInt8) × Bytes
  | [] => ([], [])
  | 93 :: p => ([], p)
  | 92 :: b :: p => ((b, b) :: (classOf p).1, (classOf p).2)
  | a :: 45 :: b :: p => ((min a b, max a b) :: (classOf p).1, (classOf p).2)
  | b :: p => ((b, b) :: (classOf p).1, (classOf p).2)

theorem classOf_suffix (p : Bytes) : (classOf p).2 <:+ p := by
  fun_induction classOf p with
  | case1 => exact List.suffix_refl []
  | case2 p => exact List.suffix_cons 93 p
  | case3 b p ih => exact (ih.trans (List.suffix_cons b p)).trans (List.suffix_cons 92 (b :: p))
  | case4 a b p _ _ ih =>
    exact ((ih.trans (List.suffix_cons b p)).trans (List.suffix_cons 45 _)).trans
      (List.suffix_cons a _)
  | case5 =>
    rename_i ih
    exact ih.trans (List.suffix_cons _ _)

/-- A bracket that begins with `^` takes what is not in the class. -/
def bracketOf : Bytes → (UInt8 → Bool) × Bytes
  | 94 :: p => (fun c => !(classOf p).1.any (fun r => r.1 ≤ c ∧ c ≤ r.2), (classOf p).2)
  | p => (fun c => (classOf p).1.any (fun r => r.1 ≤ c ∧ c ≤ r.2), (classOf p).2)

theorem bracketOf_suffix (p : Bytes) : (bracketOf p).2 <:+ p := by
  unfold bracketOf
  split
  · exact (classOf_suffix _).trans (List.suffix_cons _ _)
  · exact classOf_suffix _

/-- `stringmatchlen`. -/
def stringmatch : Bytes → Bytes → Bool
  | [], s => s.isEmpty
  | b :: p, s =>
    if b = 42 then s.tails.any (fun t => stringmatch p t)
    else
      match s with
      | [] => false
      | c :: t =>
        if b = 63 then stringmatch p t
        else if b = 91 then (bracketOf p).1 c && stringmatch (bracketOf p).2 t
        else if b = 92 then
          match p with
          | [] => c = 92 && stringmatch [] t
          | d :: q => c = d && stringmatch q t
        else c = b && stringmatch p t
termination_by p => p.length
decreasing_by
  · exact Nat.lt_succ_self _
  · exact Nat.lt_succ_self _
  · exact Nat.lt_succ_of_le (bracketOf_suffix p).length_le
  · simp
  · simp only [List.length_cons]
    omega
  · exact Nat.lt_succ_self _

theorem bracketOf_shorter {p : Bytes} (hp : p ≠ []) : (bracketOf p).2.length < p.length := by
  have hclass : (classOf p).2.length < p.length := by
    unfold classOf
    split
    · exact absurd rfl hp
    · exact Nat.lt_succ_self _
    · have hle := (classOf_suffix ‹_›).length_le
      simp only [List.length_cons]
      omega
    · have hle := (classOf_suffix ‹_›).length_le
      simp only [List.length_cons]
      omega
    · have hle := (classOf_suffix ‹_›).length_le
      simp only [List.length_cons]
      omega
  unfold bracketOf
  split
  · exact Nat.lt_succ_of_le (classOf_suffix _).length_le
  · exact hclass

theorem stringmatch_lawful : Lawful stringmatch where
  nil s := by
    rw [stringmatch.eq_def]
    exact List.isEmpty_iff
  lit {b} p s hb := by
    simp only [special, List.mem_cons, List.not_mem_nil, or_false, not_or] at hb
    obtain ⟨h1, h2, h3, h4⟩ := hb
    rw [stringmatch.eq_def]
    dsimp only
    rw [if_neg h1]
    cases s with
    | nil => simp
    | cons c t =>
      dsimp only
      rw [if_neg h2, if_neg h3, if_neg h4]
      simp
  star p s := by
    rw [stringmatch.eq_def]
    dsimp only
    rw [if_pos rfl, List.any_eq_true]
    constructor
    · rintro ⟨t, ht, hmatch⟩
      obtain ⟨a, ha⟩ := (List.mem_tails _ _).mp ht
      exact ⟨a, t, ha.symm, hmatch⟩
    · rintro ⟨a, t, rfl, hmatch⟩
      exact ⟨t, (List.mem_tails _ _).mpr (List.suffix_append a t), hmatch⟩
  any p s := by
    rw [stringmatch.eq_def]
    cases s with
    | nil => simp
    | cons c t => simp
  escape b p s := by
    rw [stringmatch.eq_def]
    cases s with
    | nil => simp
    | cons c t => simp
  bracket p hp := by
    obtain ⟨q, hq⟩ := bracketOf_suffix p
    refine ⟨(bracketOf p).1, q, (bracketOf p).2, hq.symm, ?_, ?_⟩
    · intro hnil
      have hlt := bracketOf_shorter hp
      rw [hnil, List.nil_append] at hq
      rw [hq] at hlt
      exact absurd hlt (Nat.lt_irrefl _)
    · intro s
      rw [stringmatch.eq_def]
      cases s with
      | nil => simp
      | cons c t => simp

end glob
