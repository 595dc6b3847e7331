-- The standard CRC-32, one bit at a time, and the way to take a byte at a time from a
-- table. A shift of the register is linear in exclusive or, so eight shifts are those
-- of the low byte, and the other bytes moved down.
import Aods.Machine
import Mathlib.Data.Nat.Bitwise

open machine

namespace crc

/-- The polynomial with its bits reversed. -/
def polynomial : Nat := 0xEDB88320

/-- The register when one bit has left it. -/
def shift (c : Nat) : Nat := if c % 2 = 1 then c / 2 ^^^ polynomial else c / 2

def shifts : Nat → Nat → Nat
  | 0, c => c
  | n + 1, c => shifts n (shift c)

/-- The register after a byte. -/
def byte (c : Nat) (b : UInt8) : Nat := shifts 8 (c ^^^ b.toNat)

/-- The checksum of some data that follow data with the checksum `crc`. -/
def update (crc : Nat) (data : Bytes) : Nat := data.foldl byte (crc ^^^ 0xFFFFFFFF) ^^^ 0xFFFFFFFF

/-- The checksum of some data. -/
def crc32 (data : Bytes) : Nat := update 0 data

/-- The bits of some data in the order in which they are sent, the low bit of each byte first. -/
def bits (data : Bytes) : List Bool := data.flatMap (fun b => (List.range 8).map b.toNat.testBit)

/-- The register after a bit. -/
def feed (c : Nat) (bit : Bool) : Nat := shift (c ^^^ bit.toNat)

/-- The checksum one bit at a time, with the register complemented before and behind. -/
def bitwise (crc : Nat) (data : Bytes) : Nat :=
  (bits data).foldl feed (crc ^^^ 0xFFFFFFFF) ^^^ 0xFFFFFFFF

/-! ## Shifts -/

theorem shift_xor (a b : Nat) : shift (a ^^^ b) = shift a ^^^ shift b := by
  unfold shift
  have hodd : (a ^^^ b) % 2 = 1 ↔ ¬ (a % 2 = 1 ↔ b % 2 = 1) := Nat.xor_mod_two_eq_one
  rw [Nat.xor_div_two]
  by_cases ha : a % 2 = 1
  · by_cases hb : b % 2 = 1
    · rw [if_neg (by rw [hodd]; simp [ha, hb]), if_pos ha, if_pos hb, Nat.xor_assoc,
        Nat.xor_comm polynomial, Nat.xor_assoc (b / 2), Nat.xor_self, Nat.xor_zero]
    · rw [if_pos (by rw [hodd]; simp [ha, hb]), if_pos ha, if_neg hb, Nat.xor_assoc, Nat.xor_assoc,
        Nat.xor_comm polynomial]
  · by_cases hb : b % 2 = 1
    · rw [if_pos (by rw [hodd]; simp [ha, hb]), if_neg ha, if_pos hb, Nat.xor_assoc]
    · rw [if_neg (by rw [hodd]; simp [ha, hb]), if_neg ha, if_neg hb]

theorem shifts_xor (n a b : Nat) : shifts n (a ^^^ b) = shifts n a ^^^ shifts n b := by
  induction n generalizing a b with
  | zero => rfl
  | succ n ih =>
    unfold shifts
    rw [shift_xor, ih]

/-- Bits that are clear leave the register without a trace. -/
theorem shifts_mul (n m : Nat) : shifts n (2 ^ n * m) = m := by
  induction n with
  | zero => simp [shifts]
  | succ n ih =>
    have hshift : shift (2 ^ (n + 1) * m) = 2 ^ n * m := by
      unfold shift
      rw [Nat.pow_succ, Nat.mul_comm (2 ^ n) 2, Nat.mul_assoc, if_neg (by omega)]
      omega
    unfold shifts
    rw [hshift, ih]

theorem xor_low (x : Nat) : x = 2 ^ 8 * (x / 2 ^ 8) ^^^ x % 2 ^ 8 := by
  apply Nat.eq_of_testBit_eq
  intro i
  rw [Nat.testBit_xor, Nat.testBit_two_pow_mul, Nat.testBit_mod_two_pow, Nat.testBit_div_two_pow]
  by_cases hi : i < 8
  · simp [hi, Nat.not_le.mpr hi]
  · simp [hi, Nat.not_lt.mp hi, Nat.sub_add_cancel (Nat.not_lt.mp hi)]

/-- A byte at a time: the entry of a table for the low byte, and the rest moved down. -/
theorem byte_table (c : Nat) (b : UInt8) :
    byte c b = shifts 8 ((c ^^^ b.toNat) &&& 0xFF) ^^^ (c >>> 8) := by
  have hb : b.toNat / 2 ^ 8 = 0 := Nat.div_eq_of_lt b.toNat_lt
  have hmask : (c ^^^ b.toNat) &&& 0xFF = (c ^^^ b.toNat) % 2 ^ 8 :=
    Nat.and_two_pow_sub_one_eq_mod _ 8
  unfold byte
  rw [hmask, Nat.shiftRight_eq_div_pow]
  conv_lhs => rw [xor_low (c ^^^ b.toNat)]
  rw [shifts_xor, shifts_mul, Nat.xor_div_two_pow, hb, Nat.xor_zero, Nat.xor_comm]

/-- Bits that enter the register together, or one after the other. -/
theorem shifts_feed (n c x : Nat) (h : x < 2 ^ n) :
    shifts n (c ^^^ x) = ((List.range n).map x.testBit).foldl feed c := by
  induction n generalizing c x with
  | zero =>
    have hx : x = 0 := by omega
    rw [hx]
    exact Nat.xor_zero c
  | succ n ih =>
    have hlow : shift (c ^^^ x) = feed c (x.testBit 0) ^^^ x / 2 := by
      have hsplit : x = x % 2 ^^^ 2 * (x / 2) := by
        apply Nat.eq_of_testBit_eq
        intro i
        cases i with
        | zero => simp [Nat.testBit_zero]
        | succ i =>
          have hbelow : x % 2 / 2 = 0 := by omega
          have habove : 2 * (x / 2) / 2 = x / 2 := by omega
          rw [Nat.testBit_xor, Nat.testBit_succ, Nat.testBit_succ, Nat.testBit_succ, hbelow, habove,
            Nat.zero_testBit, Bool.false_xor]
      have hbit : (x.testBit 0).toNat = x % 2 := by
        rw [Nat.testBit_zero]
        rcases Nat.mod_two_eq_zero_or_one x with h0 | h1
        · simp [h0]
        · simp [h1]
      have hup : shift (2 * (x / 2)) = x / 2 := shifts_mul 1 (x / 2)
      unfold feed
      rw [hbit, ← hup, ← shift_xor, Nat.xor_assoc, ← hsplit]
    have hhigh : x / 2 < 2 ^ n := by omega
    have hbits : (List.range (n + 1)).map x.testBit =
        x.testBit 0 :: (List.range n).map (x / 2).testBit := by
      rw [List.range_succ_eq_map, List.map_cons, List.map_map]
      simp only [Function.comp_def, Nat.testBit_succ]
    unfold shifts
    rw [hlow, ih _ _ hhigh, hbits, List.foldl_cons]

theorem foldl_byte (data : Bytes) (c : Nat) : data.foldl byte c = (bits data).foldl feed c := by
  induction data generalizing c with
  | nil => rfl
  | cons b data ih =>
    have hb : byte c b = ((List.range 8).map b.toNat.testBit).foldl feed c :=
      shifts_feed 8 c _ b.toNat_lt
    have hbits : bits (b :: data) = (List.range 8).map b.toNat.testBit ++ bits data := rfl
    rw [List.foldl_cons, ih, hb, hbits, List.foldl_append]

theorem update_eq_bitwise (crc : Nat) (data : Bytes) : update crc data = bitwise crc data := by
  unfold update bitwise
  rw [foldl_byte]

/-! ## The width of a checksum -/

theorem shift_lt {c : Nat} (h : c < 2 ^ 32) : shift c < 2 ^ 32 := by
  unfold shift
  split
  · apply Nat.xor_lt_two_pow
    · omega
    · decide
  · omega

theorem shifts_lt {c : Nat} (n : Nat) (h : c < 2 ^ 32) : shifts n c < 2 ^ 32 := by
  induction n generalizing c with
  | zero => exact h
  | succ n ih => exact ih (shift_lt h)

theorem byte_lt {c : Nat} (b : UInt8) (h : c < 2 ^ 32) : byte c b < 2 ^ 32 := by
  apply shifts_lt
  apply Nat.xor_lt_two_pow h
  exact Nat.lt_trans b.toNat_lt (by decide)

theorem update_lt {crc : Nat} (data : Bytes) (h : crc < 2 ^ 32) : update crc data < 2 ^ 32 := by
  have hfold : ∀ c, c < 2 ^ 32 → data.foldl byte c < 2 ^ 32 := by
    induction data with
    | nil => exact fun c hc => hc
    | cons b data ih => exact fun c hc => ih (byte c b) (byte_lt b hc)
  unfold update
  apply Nat.xor_lt_two_pow
  · apply hfold
    exact Nat.xor_lt_two_pow h (by decide)
  · decide

/-! ## Data in parts -/

theorem update_nil (crc : Nat) : update crc [] = crc := by
  unfold update
  rw [List.foldl_nil, Nat.xor_assoc, Nat.xor_self, Nat.xor_zero]

theorem update_append (crc : Nat) (a b : Bytes) :
    update crc (a ++ b) = update (update crc a) b := by
  unfold update
  rw [List.foldl_append, Nat.xor_assoc (a.foldl byte _), Nat.xor_self, Nat.xor_zero]

@[simp] theorem crc32_nil : crc32 [] = 0 := update_nil 0

theorem crc32_append (a b : Bytes) : crc32 (a ++ b) = update (crc32 a) b := update_append 0 a b

/-- The check value of the standard. -/
example : crc32 [49, 50, 51, 52, 53, 54, 55, 56, 57] = 0xCBF43926 := by decide +kernel

end crc
