-- What stands between the quotes of a JSON string, as a grammar over bytes: characters as they
-- are, short escapes, and UTF-16 units in hexadecimal, one or a pair of them for a character.
import Aods.Machine

open machine

namespace json_strings

/-- `b` is a hexadecimal digit of the value `d`, in either case. -/
def HexDigit (d : Nat) (b : UInt8) : Prop :=
  (d < 10 ∧ b.toNat = 48 + d) ∨ (10 ≤ d ∧ d < 16 ∧ (b.toNat = 55 + d ∨ b.toNat = 87 + d))

/-- Four hexadecimal digits of the value `n`. -/
def Hex4 (n : Nat) (ds : Bytes) : Prop :=
  ∃ d₁ d₂ d₃ d₄ b₁ b₂ b₃ b₄, ds = [b₁, b₂, b₃, b₄] ∧ n = ((d₁ * 16 + d₂) * 16 + d₃) * 16 + d₄ ∧
    HexDigit d₁ b₁ ∧ HexDigit d₂ b₂ ∧ HexDigit d₃ b₃ ∧ HexDigit d₄ b₄

/-- The bytes behind a backslash that stand for one byte, with that byte. -/
def shortEscapes : List (UInt8 × UInt8) :=
  [(34, 34), (92, 92), (47, 47), (98, 8), (102, 12), (110, 10), (114, 13), (116, 9)]

/-- The units of a character outside of the first plane. -/
def highUnit (c : Char) : Nat := 0xD800 + (c.toNat - 0x10000) / 1024

def lowUnit (c : Char) : Nat := 0xDC00 + (c.toNat - 0x10000) % 1024

/-- The text spells the value: bytes that are written as they are stand for themselves, and a
character in units for its UTF-8. -/
inductive Spells : Bytes → Bytes → Prop where
  | nil : Spells [] []
  | plain {v t : Bytes} {b : UInt8} (hb : 32 ≤ b) (hquote : b ≠ 34) (hslash : b ≠ 92)
      (h : Spells v t) :
      Spells (b :: v) (b :: t)
  | short {v t : Bytes} {c b : UInt8} (hc : (c, b) ∈ shortEscapes) (h : Spells v t) :
      Spells (b :: v) (92 :: c :: t)
  | unit {v t ds : Bytes} {c : Char} (hzero : c.toNat ≠ 0) (hunit : Hex4 c.toNat ds)
      (h : Spells v t) :
      Spells (String.utf8EncodeChar c ++ v) (92 :: 117 :: (ds ++ t))
  | pair {v t hi lo : Bytes} {c : Char} (hlarge : 0x10000 ≤ c.toNat) (hhi : Hex4 (highUnit c) hi)
      (hlo : Hex4 (lowUnit c) lo) (h : Spells v t) :
      Spells (String.utf8EncodeChar c ++ v) (92 :: 117 :: (hi ++ 92 :: 117 :: (lo ++ t)))

theorem Hex4.length {n : Nat} {ds : Bytes} (h : Hex4 n ds) : ds.length = 4 := by
  obtain ⟨d₁, d₂, d₃, d₄, b₁, b₂, b₃, b₄, rfl, -⟩ := h
  rfl

theorem HexDigit.range {d : Nat} {b : UInt8} (h : HexDigit d b) :
    48 ≤ b.toNat ∧ b.toNat ≤ 102 ∧ b.toNat ≠ 92 := by
  rcases h with ⟨hd, hb⟩ | ⟨hd1, hd2, hb | hb⟩ <;> omega

theorem Hex4.range {n : Nat} {ds : Bytes} (h : Hex4 n ds) :
    ∀ b ∈ ds, 48 ≤ b.toNat ∧ b.toNat ≤ 102 ∧ b.toNat ≠ 92 := by
  obtain ⟨d₁, d₂, d₃, d₄, b₁, b₂, b₃, b₄, rfl, -, h₁, h₂, h₃, h₄⟩ := h
  intro b hb
  simp only [List.mem_cons, List.not_mem_nil, or_false] at hb
  rcases hb with rfl | rfl | rfl | rfl
  · exact h₁.range
  · exact h₂.range
  · exact h₃.range
  · exact h₄.range

theorem Hex4.counted {n : Nat} {ds : Bytes} (h : Hex4 n ds) :
    ∀ b ∈ ds, b ≠ 34 ∧ b ≠ 0 ∧ b ≠ 92 := by
  intro b hb
  have hrange := h.range b hb
  refine ⟨?_, ?_, ?_⟩
  · rintro rfl
    exact absurd hrange.1 (by decide)
  · rintro rfl
    exact absurd hrange.1 (by decide)
  · rintro rfl
    exact hrange.2.2 rfl

theorem char_range (c : Char) : c.toNat < 0xD800 ∨ (0xDFFF < c.toNat ∧ c.toNat < 0x110000) :=
  c.valid

theorem Spells.append {v w t u : Bytes} (h : Spells v t) (h' : Spells w u) :
    Spells (v ++ w) (t ++ u) := by
  induction h with
  | nil => exact h'
  | plain hb hquote hslash _ ih => exact .plain hb hquote hslash ih
  | short hc _ ih => exact .short hc ih
  | unit hzero hunit _ ih =>
    rw [List.append_assoc, List.cons_append, List.cons_append, List.append_assoc]
    exact .unit hzero hunit ih
  | pair hlarge hhi hlo _ ih =>
    rw [List.append_assoc, List.cons_append, List.cons_append, List.append_assoc, List.cons_append,
      List.cons_append, List.append_assoc]
    exact .pair hlarge hhi hlo ih

end json_strings
