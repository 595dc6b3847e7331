-- What the parser makes of a text of the JSON grammar: the document that the grammar says, with
-- each string in UTF-8 and each number the double of its digits.
import Aods.CJsonParse
import Aods.JsonStrings
import Mathlib.Data.List.DropRight

open machine scanf json_strings
open util.json (text)

namespace util.cjson

/-! ## Code points -/

theorem and_191 (uc : Nat) : (uc ||| 0x80) &&& 0xBF = (uc % 256 ||| 0x80) &&& 0xBF := by
  have hlt : (uc ||| 0x80) &&& 0xBF < 2 ^ 8 := Nat.lt_of_le_of_lt Nat.and_le_right (by decide)
  have hmod := Nat.mod_eq_of_lt hlt
  rw [Nat.and_mod_two_pow, Nat.or_mod_two_pow] at hmod
  exact hmod.symm

theorem tailByte_low :
    ∀ n < 256, UInt8.ofNat ((n ||| 0x80) &&& 0xBF) = UInt8.ofNat (n % 0x40 + 0x80) := by
  decide +kernel

theorem tailByte (uc : Nat) :
    UInt8.ofNat ((uc ||| 0x80) &&& 0xBF) = UInt8.ofNat (uc % 0x40 + 0x80) := by
  have hmod : uc % 256 % 0x40 = uc % 0x40 := Nat.mod_mod_of_dvd uc (by decide)
  rw [and_191, tailByte_low (uc % 256) (Nat.mod_lt _ (by decide)), hmod]

theorem firstByte_two : ∀ n < 0x20, UInt8.ofNat (n ||| 0xC0) = UInt8.ofNat (n % 0x20 + 0xC0) := by
  decide

theorem firstByte_three : ∀ n < 0x10, UInt8.ofNat (n ||| 0xE0) = UInt8.ofNat (n % 0x10 + 0xE0) := by
  decide

theorem firstByte_four : ∀ n < 0x08, UInt8.ofNat (n ||| 0xF0) = UInt8.ofNat (n % 0x08 + 0xF0) := by
  decide

theorem shiftRight_6 (uc : Nat) : uc >>> 6 = uc / 64 := Nat.shiftRight_eq_div_pow uc 6

theorem utf8_one {uc : Nat} (h : uc < 0x80) : utf8 uc = [UInt8.ofNat uc] := by
  unfold utf8
  rw [if_pos h]
  simp [tailBytes, firstByteMark]

theorem utf8_two {uc : Nat} (h1 : ¬ uc < 0x80) (h2 : uc < 0x800) :
    utf8 uc = [UInt8.ofNat (uc / 64 % 0x20 + 0xC0), UInt8.ofNat (uc % 0x40 + 0x80)] := by
  have hfirst := firstByte_two (uc / 64) (by omega)
  unfold utf8
  rw [if_neg h1, if_pos h2]
  show [UInt8.ofNat (uc >>> 6 ||| 0xC0), UInt8.ofNat ((uc ||| 0x80) &&& 0xBF)] = _
  rw [tailByte, shiftRight_6, hfirst]

theorem utf8_three {uc : Nat} (h1 : ¬ uc < 0x80) (h2 : ¬ uc < 0x800) (h3 : uc < 0x10000) :
    utf8 uc = [UInt8.ofNat (uc / 4096 % 0x10 + 0xE0), UInt8.ofNat (uc / 64 % 0x40 + 0x80),
      UInt8.ofNat (uc % 0x40 + 0x80)] := by
  have hfirst := firstByte_three (uc / 4096) (by omega)
  have hdiv : uc / 64 / 64 = uc / 4096 := Nat.div_div_eq_div_mul uc 64 64
  unfold utf8
  rw [if_neg h1, if_neg h2, if_pos h3]
  show [UInt8.ofNat (uc >>> 6 >>> 6 ||| 0xE0), UInt8.ofNat ((uc >>> 6 ||| 0x80) &&& 0xBF),
    UInt8.ofNat ((uc ||| 0x80) &&& 0xBF)] = _
  rw [tailByte, tailByte, shiftRight_6, shiftRight_6, hdiv, hfirst]

theorem utf8_four {uc : Nat} (h1 : ¬ uc < 0x80) (h2 : ¬ uc < 0x800) (h3 : ¬ uc < 0x10000)
    (h4 : uc < 0x200000) :
    utf8 uc = [UInt8.ofNat (uc / 262144 % 0x08 + 0xF0), UInt8.ofNat (uc / 4096 % 0x40 + 0x80),
      UInt8.ofNat (uc / 64 % 0x40 + 0x80), UInt8.ofNat (uc % 0x40 + 0x80)] := by
  have hfirst := firstByte_four (uc / 262144) (by omega)
  have hdiv : uc / 64 / 64 = uc / 4096 := Nat.div_div_eq_div_mul uc 64 64
  have hdiv' : uc / 4096 / 64 = uc / 262144 := Nat.div_div_eq_div_mul uc 4096 64
  unfold utf8
  rw [if_neg h1, if_neg h2, if_neg h3]
  show [UInt8.ofNat (uc >>> 6 >>> 6 >>> 6 ||| 0xF0),
    UInt8.ofNat ((uc >>> 6 >>> 6 ||| 0x80) &&& 0xBF),
    UInt8.ofNat ((uc >>> 6 ||| 0x80) &&& 0xBF), UInt8.ofNat ((uc ||| 0x80) &&& 0xBF)] = _
  rw [tailByte, tailByte, tailByte, shiftRight_6, shiftRight_6, shiftRight_6, hdiv, hdiv', hfirst]

/-- The bytes that the code writes for a code point are its UTF-8. -/
theorem utf8_char (c : Char) : utf8 c.toNat = String.utf8EncodeChar c := by
  have hmax : c.toNat < 0x200000 := by
    rcases char_range c with h | h <;> omega
  have hval : c.val.toNat = c.toNat := rfl
  unfold String.utf8EncodeChar
  simp only [hval]
  by_cases h1 : c.toNat < 0x80
  · rw [utf8_one h1, if_pos (Nat.le_of_lt_succ h1)]
  · rw [if_neg (by omega)]
    by_cases h2 : c.toNat < 0x800
    · rw [utf8_two h1 h2, if_pos (Nat.le_of_lt_succ h2)]
    · rw [if_neg (by omega)]
      by_cases h3 : c.toNat < 0x10000
      · rw [utf8_three h1 h2 h3, if_pos (Nat.le_of_lt_succ h3)]
      · rw [utf8_four h1 h2 h3 hmax, if_neg (by omega)]

/-! ## Escapes -/

theorem hexDigit_eq {d : Nat} {b : UInt8} (h : HexDigit d b) : hexDigit b = some d := by
  unfold hexDigit
  simp only [Bool.and_eq_true, decide_eq_true_eq, UInt8.le_iff_toNat_le, UInt8.reduceToNat]
  rcases h with ⟨hd, hb⟩ | ⟨hd1, hd2, hb | hb⟩
  · rw [if_pos (by omega), Option.some.injEq]
    omega
  · rw [if_neg (by omega), if_pos (by omega), Option.some.injEq]
    omega
  · rw [if_neg (by omega), if_neg (by omega), if_pos (by omega), Option.some.injEq]
    omega

theorem hexFrom_digit {k h d : Nat} {b : UInt8} (hd : HexDigit d b) (t : Bytes) :
    hexFrom (k + 1) h (b :: t) = hexFrom k (h * 16 + d) t := by
  simp only [hexFrom, hexDigit_eq hd]
  rw [Nat.shiftLeft_eq]

theorem parseHex4_digits {n : Nat} {ds : Bytes} (h : Hex4 n ds) (t : Bytes) :
    parseHex4 (ds ++ t) = some n := by
  obtain ⟨d₁, d₂, d₃, d₄, b₁, b₂, b₃, b₄, rfl, rfl, h₁, h₂, h₃, h₄⟩ := h
  show hexFrom 4 0 (b₁ :: b₂ :: b₃ :: b₄ :: t) = _
  rw [hexFrom_digit h₁, hexFrom_digit h₂, hexFrom_digit h₃, hexFrom_digit h₄, Nat.zero_mul,
    Nat.zero_add]
  rfl

theorem drop_digits {n : Nat} {ds : Bytes} (h : Hex4 n ds) (t : Bytes) : (ds ++ t).drop 4 = t := by
  rw [← h.length, List.drop_left]

theorem transcode_unit {c : Char} {ds : Bytes} (hzero : c.toNat ≠ 0)
    (h : Hex4 c.toNat ds) (t : Bytes) :
    transcode (ds ++ t) = some (String.utf8EncodeChar c, 5) := by
  have hrange := char_range c
  simp only [transcode, parseHex4_digits h, Option.bind_eq_bind, Option.bind_some]
  rw [if_neg (by omega), if_neg (by omega), utf8_char]
  rfl

/-- The two units put together again. -/
theorem surrogates_units {c : Char} (h : 0x10000 ≤ c.toNat) :
    surrogates (highUnit c) (lowUnit c) = c.toNat := by
  have hrange := char_range c
  have hhigh : highUnit c &&& 0x3FF = (c.toNat - 0x10000) / 1024 := by
    rw [Nat.and_two_pow_sub_one_eq_mod _ 10]
    unfold highUnit
    omega
  have hlow : lowUnit c &&& 0x3FF = (c.toNat - 0x10000) % 1024 := by
    rw [Nat.and_two_pow_sub_one_eq_mod _ 10]
    unfold lowUnit
    omega
  rw [surrogates, hhigh, hlow, ← Nat.shiftLeft_add_eq_or_of_lt (Nat.mod_lt _ (by decide)),
    Nat.shiftLeft_eq]
  omega

theorem transcode_surrogates {str t : Bytes} {uc uc2 : Nat} (huc : parseHex4 str = some uc)
    (hdrop : str.drop 4 = 92 :: 117 :: t) (huc2 : parseHex4 t = some uc2)
    (hhigh : 0xD800 ≤ uc ∧ uc ≤ 0xDBFF) (hlow : 0xDC00 ≤ uc2 ∧ uc2 ≤ 0xDFFF) :
    transcode str = some (utf8 (surrogates uc uc2), 11) := by
  simp only [transcode, huc, hdrop, huc2, Option.bind_eq_bind, Option.bind_some, ne_eq,
    not_true_eq_false, if_false]
  rw [if_neg (by omega), if_pos hhigh, if_neg (by omega)]
  rfl

theorem transcode_pair {c : Char} {hi lo : Bytes} (h : 0x10000 ≤ c.toNat)
    (hhi : Hex4 (highUnit c) hi) (hlo : Hex4 (lowUnit c) lo) (t : Bytes) :
    transcode (hi ++ 92 :: 117 :: (lo ++ t)) = some (String.utf8EncodeChar c, 11) := by
  have hrange := char_range c
  have hhigh : 0xD800 ≤ highUnit c ∧ highUnit c ≤ 0xDBFF := by unfold highUnit; omega
  have hlow : 0xDC00 ≤ lowUnit c ∧ lowUnit c ≤ 0xDFFF := by unfold lowUnit; omega
  rw [← utf8_char, ← surrogates_units h]
  exact transcode_surrogates (parseHex4_digits hhi _) (drop_digits hhi _)
    (parseHex4_digits hlo t) hhigh hlow

theorem escaped_short {c b : UInt8} (h : (c, b) ∈ shortEscapes) : escaped c = b ∧ c ≠ 117 := by
  simp only [shortEscapes, List.mem_cons, Prod.mk.injEq, List.not_mem_nil, or_false] at h
  rcases h with ⟨rfl, rfl⟩ | ⟨rfl, rfl⟩ | ⟨rfl, rfl⟩ | ⟨rfl, rfl⟩ | ⟨rfl, rfl⟩ | ⟨rfl, rfl⟩ |
    ⟨rfl, rfl⟩ | ⟨rfl, rfl⟩ <;>
    decide

/-! ## The two loops over a string -/

theorem unescape_skip (u t : Bytes) : unescape u.length (u ++ t) = unescape 0 t := by
  induction u with
  | nil => rfl
  | cons b u ih => exact ih

theorem unescape_plain {b : UInt8} (hquote : b ≠ 34) (hzero : b ≠ 0) (hslash : b ≠ 92) (t : Bytes) :
    unescape 0 (b :: t) = (unescape 0 t).map (fun r => (b :: r.1, r.2)) := by
  rw [unescape]
  simp [hquote, hzero, hslash]

theorem unescape_escape {u t w : Bytes} (h : escape (u ++ t) = some (w, u.length)) :
    unescape 0 (92 :: (u ++ t)) = (unescape 0 t).map (fun r => (w ++ r.1, r.2)) := by
  rw [unescape]
  simp [h, unescape_skip]

theorem measure_plain {b : UInt8} (hquote : b ≠ 34) (hzero : b ≠ 0) (hslash : b ≠ 92) {t : Bytes}
    {n : Nat} (h : measure t = some n) : measure (b :: t) = some (n + 1) := by
  cases t with
  | nil => cases h
  | cons c t =>
    rw [measure, if_neg (by simp [hquote, hzero]), if_neg hslash, h]
    rfl

theorem measure_escape (c : UInt8) (t : Bytes) :
    measure (92 :: c :: t) = (measure t).map (· + 1) := by
  rw [measure, if_neg (by decide), if_pos rfl]

theorem measure_run {u : Bytes} (h : ∀ b ∈ u, b ≠ 34 ∧ b ≠ 0 ∧ b ≠ 92) {t : Bytes} {n : Nat}
    (ht : measure t = some n) : measure (u ++ t) = some (n + u.length) := by
  induction u with
  | nil => exact ht
  | cons b u ih =>
    obtain ⟨hquote, hzero, hslash⟩ := h b List.mem_cons_self
    rw [List.cons_append,
      measure_plain hquote hzero hslash (ih fun b hb => h b (List.mem_cons_of_mem _ hb)),
      List.length_cons, Nat.add_assoc]

theorem unescape_spells {v t : Bytes} (h : Spells v t) (rest : Bytes) :
    unescape 0 (t ++ 34 :: rest) = some (v, 34 :: rest) := by
  induction h with
  | nil => simp [unescape]
  | @plain v t b hb hquote hslash _ ih =>
    have hzero : b ≠ 0 := by
      rintro rfl
      exact absurd hb (by decide)
    rw [List.cons_append, unescape_plain hquote hzero hslash, ih]
    rfl
  | @short v t c b hc _ ih =>
    obtain ⟨hesc, hu⟩ := escaped_short hc
    have hescape : escape ([c] ++ (t ++ 34 :: rest)) = some ([b], 1) := by simp [escape, hu, hesc]
    rw [List.cons_append, List.cons_append]
    refine (unescape_escape hescape).trans ?_
    rw [ih]
    rfl
  | @unit v t ds c hzero hunit _ ih =>
    have hescape : escape ((117 :: ds) ++ (t ++ 34 :: rest)) =
        some (String.utf8EncodeChar c, (117 :: ds).length) := by
      rw [List.length_cons, hunit.length]
      exact transcode_unit hzero hunit _
    have hassoc : 92 :: 117 :: (ds ++ t) ++ 34 :: rest =
        92 :: ((117 :: ds) ++ (t ++ 34 :: rest)) := by simp
    rw [hassoc, unescape_escape hescape, ih]
    rfl
  | @pair v t hi lo c hlarge hhi hlo _ ih =>
    have hescape : escape ((117 :: (hi ++ 92 :: 117 :: lo)) ++ (t ++ 34 :: rest)) =
        some (String.utf8EncodeChar c, (117 :: (hi ++ 92 :: 117 :: lo)).length) := by
      have hlength : (117 :: (hi ++ 92 :: 117 :: lo)).length = 11 := by
        simp [hhi.length, hlo.length]
      have hassoc : (117 :: (hi ++ 92 :: 117 :: lo)) ++ (t ++ 34 :: rest) =
          117 :: (hi ++ 92 :: 117 :: (lo ++ (t ++ 34 :: rest))) := by simp
      rw [hlength, hassoc]
      exact transcode_pair hlarge hhi hlo _
    have hassoc : 92 :: 117 :: (hi ++ 92 :: 117 :: (lo ++ t)) ++ 34 :: rest =
        92 :: ((117 :: (hi ++ 92 :: 117 :: lo)) ++ (t ++ 34 :: rest)) := by simp
    rw [hassoc, unescape_escape hescape, ih]
    rfl

theorem length_utf8 (c : Char) : (String.utf8EncodeChar c).length ≤ 4 := by
  rw [String.length_utf8EncodeChar]
  exact Char.utf8Size_le_four c

/-- What the first loop counts is enough for what the second one writes. -/
theorem measure_spells {v t : Bytes} (h : Spells v t) (rest : Bytes) :
    ∃ n, v.length ≤ n ∧ measure (t ++ 34 :: rest) = some n := by
  induction h with
  | nil =>
    refine ⟨0, le_rfl, ?_⟩
    cases rest with
    | nil => simp [measure]
    | cons b rest => simp [measure]
  | @plain v t b hb hquote hslash _ ih =>
    obtain ⟨n, hn, hm⟩ := ih
    have hzero : b ≠ 0 := by
      rintro rfl
      exact absurd hb (by decide)
    exact ⟨n + 1, Nat.succ_le_succ hn, measure_plain hquote hzero hslash hm⟩
  | @short v t c b hc _ ih =>
    obtain ⟨n, hn, hm⟩ := ih
    refine ⟨n + 1, Nat.succ_le_succ hn, ?_⟩
    rw [List.cons_append, List.cons_append, measure_escape, hm]
    rfl
  | @unit v t ds c hzero hunit _ ih =>
    obtain ⟨n, hn, hm⟩ := ih
    have hlen := length_utf8 c
    refine ⟨n + ds.length + 1, ?_, ?_⟩
    · rw [List.length_append, hunit.length]
      omega
    · rw [List.cons_append, List.cons_append, List.append_assoc, measure_escape,
        measure_run hunit.counted hm]
      rfl
  | @pair v t hi lo c hlarge hhi hlo _ ih =>
    obtain ⟨n, hn, hm⟩ := ih
    have hlen := length_utf8 c
    have hsecond : measure (92 :: 117 :: (lo ++ (t ++ 34 :: rest))) = some (n + lo.length + 1) := by
      rw [measure_escape, measure_run hlo.counted hm]
      rfl
    refine ⟨n + lo.length + 1 + hi.length + 1, ?_, ?_⟩
    · rw [List.length_append, hhi.length, hlo.length]
      omega
    · have hassoc : 92 :: 117 :: (hi ++ 92 :: 117 :: (lo ++ t)) ++ 34 :: rest =
          92 :: 117 :: (hi ++ 92 :: 117 :: (lo ++ (t ++ 34 :: rest))) := by simp
      rw [hassoc, measure_escape, measure_run hhi.counted hsecond]
      rfl

theorem parseString_spells {v t : Bytes} (h : Spells v t) (rest : Bytes) :
    parseString (34 :: (t ++ 34 :: rest)) = .taken v rest := by
  obtain ⟨n, hn, hm⟩ := measure_spells h rest
  simp [parseString, hm, unescape_spells h, hn, behind]

/-! ## Numbers -/

/-- An `int`. -/
def IsInt (n : Int) : Prop := -2147483648 ≤ n ∧ n < 2147483648

/-- The digits in front of a point: a zero alone, or no zero first. -/
def IsWhole (ds : Bytes) : Prop :=
  ds = [48] ∨ ∃ d t, ds = d :: t ∧ 49 ≤ d.toNat ∧ d.toNat ≤ 57 ∧ ∀ b ∈ t, isDigit b = true

/-- The exponent of a number: its letter, its sign when it has one, its digits. It is an `int`. -/
structure Exponent where
  letter : UInt8
  sign : Option Bool
  digits : Bytes
  hletter : letter = 101 ∨ letter = 69
  hdigits : ∀ b ∈ digits, isDigit b = true
  hsome : digits ≠ []
  hint : number digits < 2147483648

def signBytes : Option Bool → Bytes
  | none => []
  | some false => [43]
  | some true => [45]

def Exponent.bytes (e : Exponent) : Bytes := e.letter :: (signBytes e.sign ++ e.digits)

/-- A number of the grammar. -/
structure Number where
  negative : Bool
  whole : Bytes
  frac : Bytes
  exp : Option Exponent
  hwhole : IsWhole whole
  hfrac : ∀ b ∈ frac, isDigit b = true

def Number.bytes (n : Number) : Bytes :=
  (if n.negative then [45] else []) ++ (n.whole ++ ((if n.frac = [] then [] else 46 :: n.frac) ++
    (match n.exp with
      | none => []
      | some e => e.bytes)))

/-- All the digits of a number, as an integer. -/
def Number.digits (n : Number) : Nat := number (n.whole ++ n.frac)

/-- The power of ten that the digits are multiplied by. -/
def Number.power (n : Number) : Int :=
  (match n.exp with
    | none => 0
    | some e => if e.sign = some true then -(number e.digits : Int) else number e.digits) -
        n.frac.length

/-- The digits as a double: the integer itself below 2^53, and a larger one as it is rounded digit
by digit. -/
def Number.mantissa {D : Type} (fp : Doubles D) (n : Number) : D :=
  if n.digits < 9007199254740992 then fp.ofInt n.digits
  else (n.whole ++ n.frac).foldl (fun m d => fp.push m (d.toNat - 48)) (fp.ofInt 0)

/-- The double that a number stands for. -/
def Number.value {D : Type} (fp : Doubles D) (n : Number) : D :=
  fp.scaled n.negative (n.mantissa fp) n.power

/-- What a double does exactly: the digits of an integer below 2^53, and any `int`. -/
structure Doubles.Exact {D : Type} (fp : Doubles D) : Prop where
  push : ∀ n d : Nat, n * 10 + d < 9007199254740992 →
    fp.push (fp.ofInt n) d = fp.ofInt (n * 10 + d : Nat)
  scaled : ∀ n : Nat, n < 9007199254740992 → fp.scaled false (fp.ofInt n) 0 = fp.ofInt n
  negated : ∀ n : Nat, 0 < n → n < 9007199254740992 → fp.scaled true (fp.ofInt n) 0 = fp.ofInt (-n)
  toInt : ∀ n, IsInt n → fp.toInt (fp.ofInt n) = n
  isZero : ∀ n, IsInt n → fp.isZero (fp.ofInt n) = decide (n = 0)
  sameInt : ∀ n, IsInt n → fp.sameInt n (fp.ofInt n) = true

theorem number_snoc (ds : Bytes) (d : UInt8) :
    number (ds ++ [d]) = number ds * 10 + (d.toNat - 48) := by
  unfold number
  rw [List.foldl_append, Nat.mul_comm _ 10]
  rfl

/-- The exponent is summed up as it is, as long as it is an `int`. -/
theorem subscale_eq {ds : Bytes} (h : number ds < 2147483648) : subscale ds = number ds := by
  induction ds using List.reverseRecOn with
  | nil => rfl
  | append_singleton ds d ih =>
    rw [number_snoc] at h
    have hstep : subscale (ds ++ [d]) = i32 (subscale ds * 10 + (d.toNat - 48 : Nat)) := by
      simp [subscale]
    rw [hstep, ih (by omega), number_snoc, i32_of_range (by omega) (by omega)]
    push_cast
    rfl

section

variable {D : Type} {fp : Doubles D}

/-- Digits that make an integer below 2^53 make its double, exactly. -/
theorem digitsValue_exact (hfp : fp.Exact) {ds : Bytes} (h : number ds < 9007199254740992) :
    digitsValue fp ds = fp.ofInt (number ds) := by
  induction ds using List.reverseRecOn with
  | nil => rfl
  | append_singleton ds d ih =>
    rw [number_snoc] at h
    have hstep : digitsValue fp (ds ++ [d]) = fp.push (digitsValue fp ds) (d.toNat - 48) := by
      simp [digitsValue]
    rw [hstep, ih (by omega), hfp.push _ _ h, number_snoc]

/-- A zero in front of the point counts for nothing. -/
theorem mantissa_eq (hfp : fp.Exact) (n : Number) :
    digitsValue fp ((if n.whole = [48] then [] else n.whole) ++ n.frac) = n.mantissa fp := by
  unfold Number.mantissa Number.digits
  by_cases hwhole : n.whole = [48]
  · rw [if_pos hwhole, hwhole, List.nil_append, List.singleton_append]
    split
    · next hlt => exact digitsValue_exact hfp hlt
    · have hpush : fp.push (fp.ofInt 0) 0 = fp.ofInt 0 := hfp.push 0 0 (by decide)
      rw [List.foldl_cons]
      show digitsValue fp n.frac = n.frac.foldl _ (fp.push (fp.ofInt 0) 0)
      rw [hpush]
      rfl
  · rw [if_neg hwhole]
    split
    · next hlt => exact digitsValue_exact hfp hlt
    · rfl

theorem power_eq (n : Number) : -(n.frac.length : Int) + subscale ((n.exp.map (·.digits)).getD []) *
    (if n.exp.any fun e => e.sign = some true then -1 else 1) = n.power := by
  unfold Number.power
  cases n.exp with
  | none => simp [subscale]
  | some e =>
    simp only [Option.map_some, Option.getD_some, Option.any_some, decide_eq_true_eq,
      subscale_eq e.hint]
    split
    · omega
    · omega

/-- The double that the parser makes of the parts of a number. -/
theorem numberValue_eq (hfp : fp.Exact) (n : Number) :
    numberValue fp n.negative (if n.whole = [48] then [] else n.whole) n.frac
      (n.exp.any fun e => e.sign = some true) ((n.exp.map (·.digits)).getD []) = n.value fp := by
  unfold numberValue Number.value
  rw [mantissa_eq hfp, power_eq]

end

/-- No part of a number goes on with this text, which is not at its end. -/
def EndsNumber (rest : Bytes) : Prop :=
  ∃ b t, rest = b :: t ∧ isDigit b = false ∧ b ≠ 46 ∧ b ≠ 101 ∧ b ≠ 69

theorem EndsNumber.head {rest : Bytes} (h : EndsNumber rest) :
    ∀ b ∈ rest.head?, isDigit b = false := by
  obtain ⟨b, t, rfl, hb, -⟩ := h
  rintro c hc
  cases hc
  exact hb

theorem exponent_none {rest : Bytes} (h : EndsNumber rest) :
    exponent rest = some (false, [], rest) := by
  obtain ⟨b, t, rfl, -, -, he, hE⟩ := h
  simp [exponent, he, hE]

theorem exponentSign_digits {ds rest : Bytes} (h : ∀ b ∈ ds, isDigit b = true) (hne : ds ≠ []) :
    exponentSign (ds ++ rest) = (false, ds ++ rest) := by
  cases ds with
  | nil => exact absurd rfl hne
  | cons d ds =>
    have hd := (isDigit_iff d).mp (h d List.mem_cons_self)
    have hplus : d ≠ 43 := by
      rintro rfl
      exact absurd hd.1 (by decide)
    have hminus : d ≠ 45 := by
      rintro rfl
      exact absurd hd.1 (by decide)
    simp [exponentSign, hplus, hminus]

theorem exponent_bytes (e : Exponent) {rest : Bytes} (h : EndsNumber rest) :
    exponent (e.bytes ++ rest) = some (decide (e.sign = some true), e.digits, rest) := by
  obtain ⟨hds, hrest⟩ := takeWhile_append_stop e.hdigits h.head
  have hletter : (decide (e.letter = 101) || decide (e.letter = 69)) = true := by
    rcases e.hletter with hl | hl <;> rw [hl] <;> decide
  have hsign : exponentSign (signBytes e.sign ++ e.digits ++ rest) =
      (decide (e.sign = some true), e.digits ++ rest) := by
    cases e.sign with
    | none => simp [signBytes, exponentSign_digits e.hdigits e.hsome]
    | some minus =>
      cases minus
      · simp [signBytes, exponentSign]
      · simp [signBytes, exponentSign]
  unfold exponent Exponent.bytes
  simp only [List.cons_append, hletter, if_true, hsign, hds, hrest]

theorem fraction_bytes {frac rest : Bytes} (hfrac : ∀ b ∈ frac, isDigit b = true)
    (hhead : ∀ b ∈ rest.head?, isDigit b = false ∧ b ≠ 46) (hne : rest ≠ []) :
    fraction ((if frac = [] then [] else 46 :: frac) ++ rest) = some (frac, rest) := by
  cases frac with
  | nil =>
    cases rest with
    | nil => exact absurd rfl hne
    | cons b t => simp [fraction, (hhead b rfl).2]
  | cons d frac =>
    obtain ⟨hds, hrest⟩ := takeWhile_append_stop hfrac fun b hb => (hhead b hb).1
    have hd := hfrac d List.mem_cons_self
    rw [List.cons_append] at hds hrest
    simp [fraction, hd, hds, hrest]

theorem whole_digits {whole rest : Bytes} (hwhole : IsWhole whole)
    (hhead : ∀ b ∈ rest.head?, isDigit b = false) :
    wholeDigits (behind 48 (whole ++ rest)).2 = (if whole = [48] then [] else whole) ∧
      (behind 48 (whole ++ rest)).2.drop (wholeDigits (behind 48 (whole ++ rest)).2).length =
        rest := by
  rcases hwhole with rfl | ⟨d, t, rfl, hlow, hhigh, ht⟩
  · have hnone : wholeDigits rest = [] := by
      cases rest with
      | nil => rfl
      | cons b t =>
        have hb := hhead b rfl
        have hnine : ¬ (49 ≤ b ∧ b ≤ 57) := by
          rintro ⟨h1, h2⟩
          have h3 : isDigit b = true := by
            rw [isDigit_iff]
            exact ⟨Nat.le_trans (by decide) (UInt8.le_iff_toNat_le.mp h1),
              UInt8.le_iff_toNat_le.mp h2⟩
          rw [hb] at h3
          cases h3
        simp [wholeDigits, hnine]
    simp [behind, hnone]
  · have hzero : d ≠ 48 := by
      rintro rfl
      exact absurd hlow (by decide)
    have hlow' : 49 ≤ d := UInt8.le_iff_toNat_le.mpr hlow
    have hhigh' : d ≤ 57 := UInt8.le_iff_toNat_le.mpr hhigh
    obtain ⟨hds, -⟩ := takeWhile_append_stop ht hhead
    simp [behind, hzero, wholeDigits, hlow', hhigh', hds]

/-- A number of the grammar is taken whole, and its double is the one that it stands for. -/
theorem parseNumber_bytes {D : Type} {fp : Doubles D} (hfp : fp.Exact) (n : Number) {rest : Bytes}
    (h : EndsNumber rest) :
    parseNumber fp (n.bytes ++ rest) =
      .taken (.number (fp.toInt (n.value fp)) (n.value fp)) rest := by
  rw [← numberValue_eq hfp n]
  obtain ⟨negative, whole, frac, exp, hwhole, hfrac⟩ := n
  -- what is behind each part begins with none of that part's bytes
  generalize hexp : (match exp with
    | none => []
    | some e => e.bytes) ++ rest = tail
  have htail : (∀ b ∈ tail.head?, isDigit b = false ∧ b ≠ 46) ∧ tail ≠ [] ∧
      exponent tail =
          some (exp.any fun e => e.sign = some true, (exp.map (·.digits)).getD [], rest) := by
    subst hexp
    cases exp with
    | none =>
      obtain ⟨b, t, rfl, hb, hpoint, -⟩ := id h
      refine ⟨?_, List.cons_ne_nil b t, exponent_none h⟩
      rintro c hc
      cases hc
      exact ⟨hb, hpoint⟩
    | some e =>
      refine ⟨?_, List.cons_ne_nil _ _, exponent_bytes e h⟩
      rintro c hc
      cases hc
      rcases e.hletter with hl | hl <;> rw [hl] <;> decide
  obtain ⟨hhead, hne, hexponent⟩ := htail
  have hfraction := fraction_bytes hfrac hhead hne
  generalize hmid : (if frac = [] then [] else 46 :: frac) ++ tail = mid at hfraction
  have hmidhead : ∀ b ∈ mid.head?, isDigit b = false := by
    subst hmid
    split
    · exact fun b hb => (hhead b hb).1
    · rintro c hc
      cases hc
      decide
  obtain ⟨hdigits, hdrop⟩ := whole_digits hwhole hmidhead
  have hbytes : Number.bytes ⟨negative, whole, frac, exp, hwhole, hfrac⟩ ++ rest =
      (if negative then [45] else []) ++ (whole ++ mid) := by
    simp only [Number.bytes, List.append_assoc, hexp, hmid]
  have hsign : behind 45 ((if negative then [45] else []) ++ (whole ++ mid)) =
      (negative, whole ++ mid) := by
    cases negative
    · have hminus : ∀ b ∈ (whole ++ mid).head?, b ≠ 45 := by
        rcases hwhole with rfl | ⟨d, t, rfl, hlow, -⟩
        · rintro b hb
          cases hb
          decide
        · rintro b hb
          cases hb
          rintro rfl
          exact absurd hlow (by decide)
      cases hw : whole ++ mid with
      | nil => rfl
      | cons b t =>
        rw [hw] at hminus
        simp [behind, hminus b rfl]
    · simp [behind]
  obtain ⟨b, t, hrest, -⟩ := id h
  simp only [parseNumber, hbytes, hsign, hdigits] at hdrop ⊢
  rw [hdrop, hfraction]
  simp only [hexponent, hrest]

/-! ## Documents -/

/-- The white space of the grammar. -/
def IsSpaces (w : Bytes) : Prop := ∀ b ∈ w, b = 9 ∨ b = 10 ∨ b = 13 ∨ b = 32

section

variable {D : Type} (fp : Doubles D)

mutual

/-- The text of a document, without white space around it. -/
inductive IsText : Item D → Bytes → Prop where
  | null : IsText .null (text "null")
  | bool (b : Bool) : IsText (.bool b) (text (if b then "true" else "false"))
  | number (n : Number) : IsText (.number (fp.toInt (n.value fp)) (n.value fp)) n.bytes
  | string {v t : Bytes} (h : Spells v t) : IsText (.string v) (34 :: (t ++ [34]))
  | nilArray {w : Bytes} (hw : IsSpaces w) : IsText (.array []) (91 :: (w ++ [93]))
  | array {items : List (Item D)} {t : Bytes} (h : AreItems items t) : IsText (.array items)
      (91 :: (t ++ [93]))
  | nilObject {w : Bytes} (hw : IsSpaces w) : IsText (.object []) (123 :: (w ++ [125]))
  | object {members : List (Bytes × Item D)} {t : Bytes} (h : AreMembers members t) :
      IsText (.object members) (123 :: (t ++ [125]))

/-- The items of an array that has some, with white space around each. -/
inductive AreItems : List (Item D) → Bytes → Prop where
  | last {item : Item D} {w t w' : Bytes} (hw : IsSpaces w) (h : IsText item t)
      (hw' : IsSpaces w') :
      AreItems [item] (w ++ (t ++ w'))
  | more {item : Item D} {items : List (Item D)} {w t w' ts : Bytes} (hw : IsSpaces w)
      (h : IsText item t)
      (hw' : IsSpaces w') (hs : AreItems items ts) : AreItems (item :: items)
        (w ++ (t ++ (w' ++ 44 :: ts)))

/-- The members of an object that has some. -/
inductive AreMembers : List (Bytes × Item D) → Bytes → Prop where
  | last {name n w₁ w₂ w₃ t w₄ : Bytes} {item : Item D} (hw₁ : IsSpaces w₁) (hn : Spells name n)
      (hw₂ : IsSpaces w₂)
      (hw₃ : IsSpaces w₃) (h : IsText item t) (hw₄ : IsSpaces w₄) :
      AreMembers [(name, item)] (w₁ ++ 34 :: (n ++ 34 :: (w₂ ++ 58 :: (w₃ ++ (t ++ w₄)))))
  | more {name n w₁ w₂ w₃ t w₄ ts : Bytes} {item : Item D} {members : List (Bytes × Item D)}
      (hw₁ : IsSpaces w₁)
      (hn : Spells name n) (hw₂ : IsSpaces w₂) (hw₃ : IsSpaces w₃) (h : IsText item t)
        (hw₄ : IsSpaces w₄)
      (hs : AreMembers members ts) :
      AreMembers ((name, item) :: members)
        (w₁ ++ 34 :: (n ++ 34 :: (w₂ ++ 58 :: (w₃ ++ (t ++ (w₄ ++ 44 :: ts))))))

end

end

/-! ## White space and words -/

/-- A text that begins with none of the white space that is skipped. -/
def Solid (t : Bytes) : Prop := ∃ b u, t = b :: u ∧ 32 < b.toNat

theorem Solid.append {t : Bytes} (h : Solid t) (u : Bytes) : Solid (t ++ u) := by
  obtain ⟨b, t, rfl, hb⟩ := h
  exact ⟨b, t ++ u, rfl, hb⟩

theorem solid_cons {b : UInt8} (hb : 32 < b.toNat) (t : Bytes) : Solid (b :: t) := ⟨b, t, rfl, hb⟩

theorem skip_solid {t : Bytes} (h : Solid t) : skip t = t := by
  obtain ⟨b, u, rfl, hb⟩ := h
  have hle : ¬ b ≤ 32 := by
    rw [UInt8.le_iff_toNat_le]
    exact Nat.not_le.mpr hb
  simp [skip, hle]

theorem skip_append {w : Bytes} (hw : IsSpaces w) (t : Bytes) : skip (w ++ t) = skip t := by
  induction w with
  | nil => rfl
  | cons b w ih =>
    have hb : (decide (b ≠ 0) && decide (b ≤ 32)) = true := by
      rcases hw b List.mem_cons_self with rfl | rfl | rfl | rfl <;> decide
    have hstep : skip (b :: (w ++ t)) = skip (w ++ t) := List.dropWhile_cons_of_pos hb
    rw [List.cons_append, hstep]
    exact ih fun c hc => hw c (List.mem_cons_of_mem _ hc)

theorem skip_spaces {w t : Bytes} (hw : IsSpaces w) (h : Solid t) : skip (w ++ t) = t := by
  rw [skip_append hw, skip_solid h]

theorem endsNumber_spaces {w t : Bytes} (hw : IsSpaces w) (h : EndsNumber t) :
    EndsNumber (w ++ t) := by
  cases w with
  | nil => exact h
  | cons b w =>
    refine ⟨b, w ++ t, rfl, ?_⟩
    rcases hw b List.mem_cons_self with rfl | rfl | rfl | rfl <;> decide

theorem endsNumber_cons {b : UInt8} (hb : b = 0 ∨ b = 44 ∨ b = 93 ∨ b = 125) (t : Bytes) :
    EndsNumber (b :: t) := by
  refine ⟨b, t, rfl, ?_⟩
  rcases hb with rfl | rfl | rfl | rfl <;> decide

theorem startsWith_other {w b : UInt8} (h : b ≠ w) (ws t : Bytes) :
    startsWith (w :: ws) (b :: t) = some false := by
  simp [startsWith, h]

theorem text_null : text "null" = [110, 117, 108, 108] := by decide

theorem text_true : text "true" = [116, 114, 117, 101] := by decide

theorem text_false : text "false" = [102, 97, 108, 115, 101] := by decide

theorem keyword_none {D : Type} {b : UInt8} (h : b ≠ 110 ∧ b ≠ 102 ∧ b ≠ 116) (t : Bytes) :
    keyword (D := D) (b :: t) = some none := by
  simp only [keyword, text_null, text_true, text_false, startsWith_other h.1,
    startsWith_other h.2.1, startsWith_other h.2.2]
  rfl

/-! ## The parser on texts of the grammar -/

section

variable {D : Type} {fp : Doubles D}

theorem number_head (n : Number) : ∃ b t, n.bytes = b :: t ∧ (b = 45 ∨ isDigit b = true) := by
  obtain ⟨negative, whole, frac, exp, hwhole, hfrac⟩ := n
  cases negative
  · rcases hwhole with rfl | ⟨d, t, rfl, hlow, hhigh, -⟩
    · exact ⟨48, _, rfl, Or.inr (by decide)⟩
    · exact ⟨d, _, rfl, Or.inr ((isDigit_iff d).mpr ⟨by omega, hhigh⟩)⟩
  · exact ⟨45, _, rfl, Or.inl rfl⟩

theorem parseValue_number (hfp : fp.Exact) (n : Number) {rest : Bytes} (hrest : EndsNumber rest)
    (fuel stack : Nat) :
    parseValue fp (fuel + 1) stack (n.bytes ++ rest) =
      .taken (.number (fp.toInt (n.value fp)) (n.value fp)) rest := by
  rw [← parseNumber_bytes hfp n hrest]
  obtain ⟨b, t, hbytes, hb⟩ := number_head n
  have hne : ∀ c : UInt8, c ≠ 45 → isDigit c = false → b ≠ c := by
    rintro c hminus hdigit rfl
    rcases hb with hb | hb
    · exact hminus hb
    · rw [hdigit] at hb
      cases hb
  have hword :=
    keyword_none (D := D) (b := b)
      ⟨hne 110 (by decide) (by decide), hne 102 (by decide) (by decide),
    hne 116 (by decide) (by decide)⟩ (t ++ rest)
  rw [hbytes, List.cons_append, parseValue, hword]
  simp only [if_neg (hne 34 (by decide) (by decide)), if_pos hb]

theorem parseValue_string {v t : Bytes} (h : Spells v t) (rest : Bytes) (fuel stack : Nat) :
    parseValue fp (fuel + 1) stack (34 :: (t ++ [34]) ++ rest) = .taken (.string v) rest := by
  have hassoc : 34 :: (t ++ [34]) ++ rest = 34 :: (t ++ 34 :: rest) := by simp
  rw [hassoc, parseValue, keyword_none (by decide)]
  simp only [if_true, parseString_spells h, Parsed.map]

theorem keyword_word {rest : Bytes} :
    keyword (D := D) (text "null" ++ rest) = some (some (.null, rest)) ∧
      keyword (D := D) (text "false" ++ rest) = some (some (.bool false, rest)) ∧
      keyword (D := D) (text "true" ++ rest) = some (some (.bool true, rest)) := by
  simp [keyword, text_null, text_true, text_false, startsWith]

theorem parseValue_word {item : Item D} {value rest : Bytes}
    (h : keyword value = some (some (item, rest))) (fuel stack : Nat) :
    parseValue fp (fuel + 1) stack value = .taken item rest := by
  unfold parseValue
  simp only [h]

theorem parseValue_nil {w : Bytes} (hw : IsSpaces w) (rest : Bytes) (fuel stack : Nat) :
    parseValue fp (fuel + 2) (stack + 1) (91 :: (w ++ [93]) ++ rest) = .taken (.array []) rest ∧
      parseValue fp (fuel + 2) (stack + 1) (123 :: (w ++ [125]) ++ rest) =
        .taken (.object []) rest := by
  have hskip : ∀ b : UInt8, 32 < b.toNat → skip (w ++ b :: rest) = b :: rest := fun b hb =>
    skip_spaces hw (solid_cons hb rest)
  constructor
  · rw [List.cons_append, parseValue, keyword_none (by decide)]
    simp [parseArray, hskip 93 (by decide), isDigit]
  · rw [List.cons_append, parseValue, keyword_none (by decide)]
    simp [parseObject, hskip 125 (by decide), isDigit]

theorem skip_skip (t : Bytes) : skip (skip t) = skip t := List.dropWhile_idempotent _ t

theorem parseItems_skip (fuel stack : Nat) (t : Bytes) :
    parseItems fp fuel stack (skip t) = parseItems fp fuel stack t := by
  cases fuel with
  | zero => rw [parseItems, parseItems]
  | succ fuel => rw [parseItems, parseItems, skip_skip]

theorem parseMembers_skip (fuel stack : Nat) (t : Bytes) :
    parseMembers fp fuel stack (skip t) = parseMembers fp fuel stack t := by
  cases fuel with
  | zero => rw [parseMembers, parseMembers]
  | succ fuel => rw [parseMembers, parseMembers, skip_skip]

theorem parseValue_array {u v : Bytes} {b : UInt8} (hskip : skip u = b :: v) (hb : b ≠ 93)
    (fuel stack : Nat) :
    parseValue fp (fuel + 2) (stack + 1) (91 :: u) = (parseItems fp fuel stack u).map .array := by
  rw [← parseItems_skip, hskip, parseValue, keyword_none (by decide)]
  simp [parseArray, hskip, hb, isDigit]

theorem parseValue_object {u v : Bytes} {b : UInt8} (hskip : skip u = b :: v) (hb : b ≠ 125)
    (fuel stack : Nat) :
    parseValue fp (fuel + 2) (stack + 1) (123 :: u) =
      (parseMembers fp fuel stack u).map .object := by
  rw [← parseMembers_skip, hskip, parseValue, keyword_none (by decide)]
  simp [parseObject, hskip, hb, isDigit]

theorem IsText.head {item : Item D} {t : Bytes} (h : IsText fp item t) :
    ∃ b u, t = b :: u ∧ 32 < b.toNat ∧ b ≠ 93 := by
  cases h with
  | null => exact ⟨110, [117, 108, 108], text_null, by decide, by decide⟩
  | bool b =>
    cases b
    · exact ⟨102, [97, 108, 115, 101], text_false, by decide, by decide⟩
    · exact ⟨116, [114, 117, 101], text_true, by decide, by decide⟩
  | number n =>
    obtain ⟨b, t, hbytes, hb⟩ := number_head n
    refine ⟨b, t, hbytes, ?_⟩
    rcases hb with rfl | hb
    · exact ⟨by decide, by decide⟩
    · have hrange := (isDigit_iff b).mp hb
      refine ⟨by omega, ?_⟩
      rintro rfl
      exact absurd hrange.2 (by decide)
  | string h => exact ⟨34, _, rfl, by decide, by decide⟩
  | nilArray hw => exact ⟨91, _, rfl, by decide, by decide⟩
  | array h => exact ⟨91, _, rfl, by decide, by decide⟩
  | nilObject hw => exact ⟨123, _, rfl, by decide, by decide⟩
  | object h => exact ⟨123, _, rfl, by decide, by decide⟩

theorem IsText.solid {item : Item D} {t : Bytes} (h : IsText fp item t) : Solid t := by
  obtain ⟨b, u, rfl, hb, -⟩ := h.head
  exact solid_cons hb u

theorem AreItems.skips {items : List (Item D)} {t : Bytes} (h : AreItems fp items t)
    (rest : Bytes) :
    ∃ b v, skip (t ++ rest) = b :: v ∧ b ≠ 93 := by
  cases h with
  | last hw h hw' =>
    obtain ⟨b, u, rfl, hb, hend⟩ := h.head
    rw [List.append_assoc, skip_spaces hw ((solid_cons hb u).append _ |>.append rest)]
    exact ⟨b, _, rfl, hend⟩
  | more hw h hw' hs =>
    obtain ⟨b, u, rfl, hb, hend⟩ := h.head
    rw [List.append_assoc, skip_spaces hw ((solid_cons hb u).append _ |>.append rest)]
    exact ⟨b, _, rfl, hend⟩

theorem AreMembers.skips {members : List (Bytes × Item D)} {t : Bytes} (h : AreMembers fp members t)
    (rest : Bytes) :
    ∃ v, skip (t ++ rest) = 34 :: v := by
  cases h with
  | last hw₁ =>
    rw [List.append_assoc]
    exact ⟨_, skip_spaces hw₁ (solid_cons (by decide) _)⟩
  | more hw₁ =>
    rw [List.append_assoc]
    exact ⟨_, skip_spaces hw₁ (solid_cons (by decide) _)⟩

mutual

/-- The parser takes a text of the grammar for what it says, whatever is behind it, when fuel and
stack are enough. The recursion follows the derivation. -/
theorem parseValue_text (hfp : fp.Exact) {item : Item D} {t : Bytes} (h : IsText fp item t)
    (rest : Bytes) (hrest : EndsNumber rest) (fuel stack : Nat) (hfuel : 3 * t.length + 1 ≤ fuel)
    (hstack : item.nesting ≤ stack) :
    parseValue fp fuel stack (t ++ rest) = .taken item rest := by
  obtain ⟨b₀, u₀, ht₀, -⟩ := h.head
  have hlen : 1 ≤ t.length := by rw [ht₀]; exact Nat.succ_le_succ (Nat.zero_le _)
  obtain ⟨fuel, rfl⟩ : ∃ f, fuel = f + 3 := ⟨fuel - 3, by omega⟩
  match h with
  | .null => exact parseValue_word keyword_word.1 _ _
  | .bool false => exact parseValue_word keyword_word.2.1 _ _
  | .bool true => exact parseValue_word keyword_word.2.2 _ _
  | .number n => exact parseValue_number hfp n hrest _ _
  | .string hs => exact parseValue_string hs rest _ _
  | .nilArray hw =>
    obtain ⟨stack, rfl⟩ : ∃ k, stack = k + 1 :=
      Nat.exists_eq_add_of_le' (Nat.le_of_add_left_le hstack)
    exact (parseValue_nil hw rest _ stack).1
  | .nilObject hw =>
    obtain ⟨stack, rfl⟩ : ∃ k, stack = k + 1 :=
      Nat.exists_eq_add_of_le' (Nat.le_of_add_left_le hstack)
    exact (parseValue_nil hw rest _ stack).2
  | @IsText.array _ _ items u hs =>
    obtain ⟨stack, rfl⟩ : ∃ k, stack = k + 1 :=
      Nat.exists_eq_add_of_le' (Nat.le_of_add_left_le hstack)
    obtain ⟨b, v, hskip, hb⟩ := hs.skips ([93] ++ rest)
    have hassoc : 91 :: (u ++ [93]) ++ rest = 91 :: (u ++ ([93] ++ rest)) := by simp
    have hroom : Item.nestingItems items ≤ stack := Nat.le_of_succ_le_succ hstack
    have hitems := parseItems_text hfp hs rest (fuel + 1) stack (by simp at hfuel; omega) hroom
    rw [hassoc, parseValue_array hskip hb]
    exact congrArg (Parsed.map Item.array) hitems
  | @IsText.object _ _ members u hs =>
    obtain ⟨stack, rfl⟩ : ∃ k, stack = k + 1 :=
      Nat.exists_eq_add_of_le' (Nat.le_of_add_left_le hstack)
    obtain ⟨v, hskip⟩ := hs.skips ([125] ++ rest)
    have hassoc : 123 :: (u ++ [125]) ++ rest = 123 :: (u ++ ([125] ++ rest)) := by simp
    have hroom : Item.nestingMembers members ≤ stack := Nat.le_of_succ_le_succ hstack
    have hmembers := parseMembers_text hfp hs rest (fuel + 1) stack (by simp at hfuel; omega) hroom
    rw [hassoc, parseValue_object hskip (by decide)]
    exact congrArg (Parsed.map Item.object) hmembers

theorem parseItems_text (hfp : fp.Exact) {items : List (Item D)} {t : Bytes}
    (h : AreItems fp items t) (rest : Bytes) (fuel stack : Nat) (hfuel : 3 * t.length + 2 ≤ fuel)
    (hstack : Item.nestingItems items ≤ stack) :
    parseItems fp fuel stack (t ++ 93 :: rest) = .taken items rest := by
  obtain ⟨fuel, rfl⟩ : ∃ f, fuel = f + 1 := ⟨fuel - 1, by omega⟩
  match h with
  | @AreItems.last _ _ _ w u w' hw hi hw' =>
    simp only [List.length_append] at hfuel
    have hassoc : w ++ (u ++ w') ++ 93 :: rest = w ++ (u ++ (w' ++ 93 :: rest)) := by simp
    have hvalue := parseValue_text hfp hi (w' ++ 93 :: rest)
      (endsNumber_spaces hw' (endsNumber_cons (by simp) rest)) fuel stack (by omega)
        (Nat.max_le.mp hstack).1
    rw [hassoc, parseItems, skip_spaces hw (hi.solid.append _), hvalue]
    simp [Parsed.bind, skip_spaces hw' (solid_cons (b := 93) (by decide) rest)]
  | @AreItems.more _ _ _ _ w u w' ts hw hi hw' hs =>
    simp only [List.length_append, List.length_cons] at hfuel
    have hassoc : w ++ (u ++ (w' ++ 44 :: ts)) ++ 93 :: rest =
        w ++ (u ++ (w' ++ 44 :: (ts ++ 93 :: rest))) := by simp
    have hvalue := parseValue_text hfp hi (w' ++ 44 :: (ts ++ 93 :: rest))
      (endsNumber_spaces hw' (endsNumber_cons (by simp) _)) fuel stack (by omega)
        (Nat.max_le.mp hstack).1
    have hitems := parseItems_text hfp hs rest fuel stack (by omega) (Nat.max_le.mp hstack).2
    rw [hassoc, parseItems, skip_spaces hw (hi.solid.append _), hvalue]
    simp [Parsed.bind, skip_spaces hw' (solid_cons (b := 44) (by decide) _), hitems, Parsed.map]

theorem parseMembers_text (hfp : fp.Exact) {members : List (Bytes × Item D)} {t : Bytes}
    (h : AreMembers fp members t) (rest : Bytes) (fuel stack : Nat)
    (hfuel : 3 * t.length + 2 ≤ fuel) (hstack : Item.nestingMembers members ≤ stack) :
    parseMembers fp fuel stack (t ++ 125 :: rest) = .taken members rest := by
  obtain ⟨fuel, rfl⟩ : ∃ f, fuel = f + 1 := ⟨fuel - 1, by omega⟩
  match h with
  | @AreMembers.last _ _ name n w₁ w₂ w₃ u w₄ _ hw₁ hn hw₂ hw₃ hi hw₄ =>
    simp only [List.length_append, List.length_cons] at hfuel
    have hassoc : w₁ ++ 34 :: (n ++ 34 :: (w₂ ++ 58 :: (w₃ ++ (u ++ w₄)))) ++ 125 :: rest =
        w₁ ++ 34 :: (n ++ 34 :: (w₂ ++ 58 :: (w₃ ++ (u ++ (w₄ ++ 125 :: rest))))) := by simp
    have hvalue := parseValue_text hfp hi (w₄ ++ 125 :: rest)
      (endsNumber_spaces hw₄ (endsNumber_cons (by simp) rest)) fuel stack (by omega)
        (Nat.max_le.mp hstack).1
    have hcolon :=
      skip_spaces hw₂ (solid_cons (b := 58) (by decide) (w₃ ++ (u ++ (w₄ ++ 125 :: rest))))
    rw [hassoc, parseMembers, skip_spaces hw₁ (solid_cons (by decide) _), parseString_spells hn]
    simp [Parsed.bind, hcolon, skip_spaces hw₃ (hi.solid.append _), hvalue,
      skip_spaces hw₄ (solid_cons (b := 125) (by decide) rest)]
  | @AreMembers.more _ _ name n w₁ w₂ w₃ u w₄ ts _ _ hw₁ hn hw₂ hw₃ hi hw₄ hs =>
    simp only [List.length_append, List.length_cons] at hfuel
    have hassoc : w₁ ++ 34 :: (n ++ 34 :: (w₂ ++ 58 :: (w₃ ++ (u ++ (w₄ ++ 44 :: ts))))) ++
        125 :: rest =
        w₁ ++ 34 ::
          (n ++ 34 :: (w₂ ++ 58 :: (w₃ ++ (u ++ (w₄ ++ 44 :: (ts ++ 125 :: rest)))))) := by simp
    have hvalue := parseValue_text hfp hi (w₄ ++ 44 :: (ts ++ 125 :: rest))
      (endsNumber_spaces hw₄ (endsNumber_cons (by simp) _)) fuel stack (by omega)
        (Nat.max_le.mp hstack).1
    have hcolon := skip_spaces hw₂
      (solid_cons (b := 58) (by decide) (w₃ ++ (u ++ (w₄ ++ 44 :: (ts ++ 125 :: rest)))))
    have hmembers := parseMembers_text hfp hs rest fuel stack (by omega) (Nat.max_le.mp hstack).2
    rw [hassoc, parseMembers, skip_spaces hw₁ (solid_cons (by decide) _), parseString_spells hn]
    simp [Parsed.bind, hcolon, skip_spaces hw₃ (hi.solid.append _), hvalue,
      skip_spaces hw₄ (solid_cons (b := 44) (by decide) _), hmembers, Parsed.map]

end

/-- `cJSON_Parse` of a text of the grammar, with white space in front of it and anything behind it
that ends a number. -/
theorem cJSON_Parse_text (hfp : fp.Exact) {item : Item D} {w t : Bytes} (hw : IsSpaces w)
    (h : IsText fp item t) {rest : Bytes} (hrest : EndsNumber rest) {stack : Nat}
    (hstack : item.nesting ≤ stack) :
    cJSON_Parse fp stack (w ++ (t ++ rest)) = .taken item rest := by
  have hvalue := parseValue_text hfp h rest hrest (fuelFor (w ++ (t ++ rest))) stack
    (by simp [fuelFor]; omega) hstack
  simp only [cJSON_Parse, cJSON_ParseWithOpts]
  rw [skip_spaces hw (h.solid.append rest), hvalue]
  rfl

end

theorem exact_wholeDoubles : wholeDoubles.Exact where
  push n d _ := by
    show (n : Int) * 10 + d = _
    push_cast
    rfl
  scaled n _ := by
    show ((n : Int) * 10 ^ (0 : Int).toNat / 10 ^ (-0 : Int).toNat) = n
    simp
  negated n _ _ := by
    show (-(n : Int) * 10 ^ (0 : Int).toNat / 10 ^ (-0 : Int).toNat) = -n
    simp
  toInt _ _ := rfl
  isZero _ _ := rfl
  sameInt n h := by
    have hhigh : n ≤ 2147483647 := Int.le_of_lt_add_one h.2
    exact decide_eq_true ⟨rfl, hhigh, h.1⟩

end util.cjson
