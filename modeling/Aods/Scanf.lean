-- The conversions of `sscanf` that texts from a network go through, in the C locale and as the
-- GNU library does them: what is taken from the front of a text, and the number that it gives.
import Aods.Machine

open machine

namespace scanf

/-! ## Characters -/

def isDigit (b : UInt8) : Bool := 48 ≤ b && b ≤ 57

def isAlpha (b : UInt8) : Bool := (65 ≤ b && b ≤ 90) || (97 ≤ b && b ≤ 122)

def isAlnum (b : UInt8) : Bool := isDigit b || isAlpha b

def isXdigit (b : UInt8) : Bool := isDigit b || (65 ≤ b && b ≤ 70) || (97 ≤ b && b ≤ 102)

def isSpace (b : UInt8) : Bool := b = 32 || (9 ≤ b && b ≤ 13)

def lower (b : UInt8) : UInt8 := if 65 ≤ b ∧ b ≤ 90 then b + 32 else b

def skipSpace (s : Bytes) : Bytes := s.dropWhile isSpace

/-! ## Numbers -/

/-- The number that digits spell. -/
def number (ds : Bytes) : Nat := ds.foldl (fun n d => 10 * n + (d.toNat - 48)) 0

/-- Whether a text begins with a minus, and what is behind its sign. -/
def sign (s : Bytes) : Bool × Bytes :=
  match s with
  | [] => (false, [])
  | b :: t => if b = 45 then (true, t) else if b = 43 then (false, t) else (false, b :: t)

/-- Digits behind space and a sign: the minus, the number, and the text behind. -/
def signed (s : Bytes) : Option (Bool × Nat × Bytes) :=
  let body := sign (skipSpace s)
  if body.2.takeWhile isDigit = [] then none
  else some (body.1, number (body.2.takeWhile isDigit), body.2.dropWhile isDigit)

/-- "%d": the number as a `long` holds it, and what an `int` keeps of that. -/
def scanD (s : Bytes) : Option (Int × Bytes) :=
  (signed s).map (fun r =>
    (i32 (if r.1 then -(min r.2.1 9223372036854775808 : Nat) else
      (min r.2.1 9223372036854775807 : Nat)), r.2.2))

/-- "%llu": a number that is too large is cut to the largest, and a minus wraps. -/
def scanLlu (s : Bytes) : Option (Nat × Bytes) :=
  (signed s).map (fun r =>
    (if 18446744073709551616 ≤ r.2.1 then 18446744073709551615
      else if r.1 then (18446744073709551616 - r.2.1) % 18446744073709551616 else r.2.1, r.2.2))

/-- A word in front of a text, whatever its case. -/
def word (w s : Bytes) : Option Bytes :=
  if (s.take w.length).map lower = w then some (s.drop w.length) else none

/-- The digits in front of a text, with a point in or around them, and the text behind. -/
def mantissa (digit : UInt8 → Bool) (s : Bytes) : Bytes × Bytes :=
  match s.dropWhile digit with
  | [] => (s.takeWhile digit, [])
  | b :: t =>
    if b = 46 then (s.takeWhile digit ++ t.takeWhile digit, t.dropWhile digit)
    else (s.takeWhile digit, b :: t)

/-- What is behind an exponent, if there is one. -/
def pastExponent (e : UInt8) (s : Bytes) : Bytes :=
  match s with
  | [] => []
  | b :: t => if lower b = e then (sign t).2.dropWhile isDigit else b :: t

/-- "%f": the text behind the number. -/
def scanF (s : Bytes) : Option Bytes :=
  let s := (sign (skipSpace s)).2
  match word [110, 97, 110] s with
  | some rest => some rest
  | none =>
    match word [105, 110, 102] s with
    | some rest =>
      if rest.head?.map lower = some 105 then word [105, 110, 105, 116, 121] rest else some rest
    | none =>
      match word [48, 120] s with
      | some hex =>
        let m := mantissa isXdigit hex
        if m.1 ≠ [] then some (pastExponent 112 m.2)
        -- a point alone is taken, and nothing is not
        else if m.2.length < hex.length then some m.2
        else none
      | none =>
        let m := mantissa isDigit s
        if m.1 ≠ [] then some (pastExponent 101 m.2) else none

/-! ## Printed numbers -/

/-- "%u". -/
def decimal (n : Nat) : Bytes := (Nat.toDigits 10 n).map (fun c => UInt8.ofNat c.toNat)

theorem isDigit_iff (b : UInt8) : isDigit b = true ↔ 48 ≤ b.toNat ∧ b.toNat ≤ 57 := by
  simp [isDigit, UInt8.le_iff_toNat_le]

theorem isSpace_of_digit {d : UInt8} (h : isDigit d = true) : isSpace d = false := by
  have hrange := (isDigit_iff d).mp h
  rw [Bool.eq_false_iff]
  intro hs
  simp only [isSpace, Bool.or_eq_true, Bool.and_eq_true, decide_eq_true_eq, UInt8.le_iff_toNat_le,
    ← UInt8.toNat_inj, UInt8.reduceToNat] at hs
  omega

theorem digit_range {n : Nat} {c : Char} (h : c ∈ Nat.toDigits 10 n) :
    48 ≤ c.toNat ∧ c.toNat ≤ 57 := by
  have hdigit := Nat.isDigit_of_mem_toDigits (by decide) (Nat.le_refl 10) h
  rw [Char.isDigit, Bool.and_eq_true, decide_eq_true_iff, decide_eq_true_iff] at hdigit
  exact ⟨UInt32.le_iff_toNat_le.mp hdigit.1, UInt32.le_iff_toNat_le.mp hdigit.2⟩

theorem decimal_ne_nil (n : Nat) : decimal n ≠ [] := by
  unfold decimal
  rw [Ne, List.map_eq_nil_iff]
  exact Nat.toDigits_ne_nil

theorem isDigit_decimal (n : Nat) : ∀ b ∈ decimal n, isDigit b = true := by
  intro b hb
  obtain ⟨c, hc, rfl⟩ := List.mem_map.mp hb
  obtain ⟨h1, h2⟩ := digit_range hc
  rw [isDigit_iff, UInt8.toNat_ofNat']
  omega

theorem number_decimal (n : Nat) : number (decimal n) = n := by
  have hfold : ∀ (cs : List Char) (m : Nat), (∀ c ∈ cs, 48 ≤ c.toNat ∧ c.toNat ≤ 57) →
      (cs.map (fun c => UInt8.ofNat c.toNat)).foldl (fun n d => 10 * n + (d.toNat - 48)) m =
        Nat.ofDigitChars 10 cs m := by
    intro cs
    induction cs with
    | nil =>
      intro m _
      rw [Nat.ofDigitChars_nil]
      rfl
    | cons c cs ih =>
      intro m h
      have hc := (h c List.mem_cons_self).2
      have hbyte : (UInt8.ofNat c.toNat).toNat = c.toNat := by
        rw [UInt8.toNat_ofNat']
        omega
      rw [List.map_cons, List.foldl_cons, Nat.ofDigitChars_cons, hbyte]
      exact ih _ (fun c hc => h c (List.mem_cons_of_mem _ hc))
  have hdigits := hfold (Nat.toDigits 10 n) 0 (fun c hc => digit_range hc)
  rw [Nat.ofDigitChars_ten_toDigits] at hdigits
  exact hdigits

/-! ## Digits in front of a text -/

theorem takeWhile_append_stop {p : UInt8 → Bool} {ds rest : Bytes} (h : ∀ b ∈ ds, p b = true)
    (hrest : ∀ b ∈ rest.head?, p b = false) :
    (ds ++ rest).takeWhile p = ds ∧ (ds ++ rest).dropWhile p = rest := by
  have hstop : rest.takeWhile p = [] ∧ rest.dropWhile p = rest := by
    cases rest with
    | nil => exact ⟨rfl, rfl⟩
    | cons b t =>
      have hb := hrest b rfl
      simp [hb]
  rw [List.takeWhile_append_of_pos h, List.dropWhile_append_of_pos h, hstop.1, hstop.2,
    List.append_nil]
  exact ⟨rfl, rfl⟩

/-- Digits behind space, in front of something else. -/
theorem signed_digits {ds rest : Bytes} (hne : ds ≠ []) (h : ∀ b ∈ ds, isDigit b = true)
    (hrest : ∀ b ∈ rest.head?, isDigit b = false) (spaces : Bytes)
    (hspaces : ∀ b ∈ spaces, isSpace b = true) :
    signed (spaces ++ ds ++ rest) = some (false, number ds, rest) := by
  obtain ⟨d, ds', rfl⟩ := List.exists_cons_of_ne_nil hne
  have hd := (isDigit_iff d).mp (h d List.mem_cons_self)
  have hspace := isSpace_of_digit (h d List.mem_cons_self)
  have hskip : skipSpace (spaces ++ d :: ds' ++ rest) = d :: ds' ++ rest := by
    unfold skipSpace
    rw [List.append_assoc, List.dropWhile_append_of_pos hspaces, List.cons_append,
      List.dropWhile_cons_of_neg]
    simp [hspace]
  have hsign : sign (d :: ds' ++ rest) = (false, d :: ds' ++ rest) := by
    have h45 : d ≠ 45 := by
      rintro rfl
      exact absurd hd (by decide)
    have h43 : d ≠ 43 := by
      rintro rfl
      exact absurd hd (by decide)
    rw [List.cons_append, sign, if_neg h45, if_neg h43]
  obtain ⟨htake, hdrop⟩ := takeWhile_append_stop h hrest
  unfold signed
  dsimp only
  rw [hskip, hsign]
  dsimp only
  rw [htake, hdrop, if_neg (List.cons_ne_nil _ _)]

/-- "%f" of a number with one digit before its point and one behind. -/
theorem scanF_version {d e : UInt8} (hd : isDigit d = true) (he : isDigit e = true) (rest : Bytes) :
    scanF (d :: 46 :: e :: 32 :: rest) = some (32 :: rest) := by
  have hrange := (isDigit_iff d).mp hd
  have hne (c : UInt8) (hc : c.toNat < 48) : d ≠ c := by
    rintro rfl
    omega
  have hskip : skipSpace (d :: 46 :: e :: 32 :: rest) = d :: 46 :: e :: 32 :: rest := by
    simp [skipSpace, isSpace_of_digit hd]
  have hsign : sign (d :: 46 :: e :: 32 :: rest) = (false, d :: 46 :: e :: 32 :: rest) := by
    rw [sign, if_neg (hne 45 (by decide)), if_neg (hne 43 (by decide))]
  -- the point is no letter of a word
  have hword (a b c : UInt8) (hb : b ≠ lower 46) :
      word [a, b, c] (d :: 46 :: e :: 32 :: rest) = none ∧
          word [a, b] (d :: 46 :: e :: 32 :: rest) = none := by
    simp [word, Ne.symm hb]
  have hmantissa : mantissa isDigit (d :: 46 :: e :: 32 :: rest) = ([d, e], 32 :: rest) := by
    have hpoint : isDigit 46 = false := by decide
    have hblank : isDigit 32 = false := by decide
    simp [mantissa, hd, he, hpoint, hblank]
  unfold scanF
  rw [hskip, hsign]
  dsimp only
  rw [(hword 110 97 110 (by decide)).1]
  dsimp only
  rw [(hword 105 110 102 (by decide)).1]
  dsimp only
  rw [(hword 48 120 0 (by decide)).2]
  dsimp only
  rw [hmantissa]
  rfl

end scanf
