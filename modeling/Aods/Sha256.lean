-- The secure hash of 256 bits of FIPS 180-4, for messages of whole bytes: constants from the
-- primes, the schedule of a block, the rounds, and the padding. Before it, what a state that is
-- taken through the full blocks of a text is when the text grows.
import Mathlib.Data.List.Basic
import Mathlib.Data.Nat.NthRoot.Defs
import Mathlib.Tactic.Common

namespace blocks

variable {α σ : Type} {n : Nat} {f : σ → List α → σ} {s : σ} {t u : List α}

/-- A state taken through the full blocks of a text. -/
def through (n : Nat) (f : σ → List α → σ) (s : σ) (t : List α) : σ :=
  (List.range (t.length / n)).foldl (fun s i => f s ((t.drop (n * i)).take n)) s

/-- What comes behind the last full block. -/
def rest (n : Nat) (t : List α) : List α := t.drop (n * (t.length / n))

@[simp] theorem length_rest : (rest n t).length = t.length % n := by
  unfold rest
  rw [List.length_drop, Nat.mod_def]

theorem through_short (h : t.length < n) : through n f s t = s := by
  unfold through
  rw [Nat.div_eq_of_lt h]
  rfl

theorem rest_short (h : t.length < n) : rest n t = t := by
  unfold rest
  rw [Nat.div_eq_of_lt h, Nat.mul_zero, List.drop_zero]

theorem through_block (hn : 0 < n) (h : t.length = n) : through n f s t = f s t := by
  unfold through
  rw [h, Nat.div_self hn]
  have hall : t.take n = t := by
    rw [← h, List.take_length]
  simp [List.range_succ, hall]

theorem rest_block (h : t.length = n) : rest n t = [] := by
  apply List.eq_nil_of_length_eq_zero
  rw [length_rest, h, Nat.mod_self]

/-- The blocks of a longer text are the blocks of what was left with the new text. -/
theorem length_append (hn : 0 < n) (t u : List α) :
    (t ++ u).length / n = t.length / n + (rest n t ++ u).length / n := by
  have hall := Nat.div_add_mod t.length n
  rw [List.length_append, List.length_append, length_rest, ← Nat.mul_add_div hn, ← Nat.add_assoc,
    hall]

theorem drop_append (t u : List α) (i : Nat) :
    (t ++ u).drop (n * (t.length / n + i)) = (rest n t ++ u).drop (n * i) := by
  have hle : n * (t.length / n) ≤ t.length := Nat.mul_div_le _ _
  rw [Nat.mul_add, ← List.drop_drop, List.drop_append_of_le_length hle]
  rfl

theorem rest_append (hn : 0 < n) (t u : List α) : rest n (t ++ u) = rest n (rest n t ++ u) := by
  unfold rest
  rw [length_append hn, drop_append]
  rfl

theorem through_append (hn : 0 < n) (s : σ) (t u : List α) :
    through n f s (t ++ u) = through n f (through n f s t) (rest n t ++ u) := by
  unfold through
  rw [length_append hn, List.range_add, List.foldl_append, List.foldl_map]
  -- the blocks of the old text stand where they stood
  have hold : (List.range (t.length / n)).foldl (fun s i => f s (((t ++ u).drop (n * i)).take n))
      s =
      (List.range (t.length / n)).foldl (fun s i => f s ((t.drop (n * i)).take n)) s := by
    apply List.foldl_ext
    intro s i hi
    have hlt : i < t.length / n := List.mem_range.mp hi
    have hend : n * (i + 1) ≤ n * (t.length / n) := Nat.mul_le_mul_left n hlt
    have hle : n * (t.length / n) ≤ t.length := Nat.mul_div_le _ _
    rw [Nat.mul_succ] at hend
    rw [List.drop_append_of_le_length (by omega),
      List.take_append_of_le_length (by rw [List.length_drop]; omega)]
  rw [hold]
  simp only [drop_append]

end blocks

namespace fips

/-! ## Words -/

def rotr (n : Nat) (x : UInt32) : UInt32 := ⟨x.toBitVec.rotateRight n⟩
def shr (n : Nat) (x : UInt32) : UInt32 := ⟨x.toBitVec >>> n⟩

def ch (x y z : UInt32) : UInt32 := (x &&& y) ^^^ (~~~x &&& z)
def maj (x y z : UInt32) : UInt32 := (x &&& y) ^^^ (x &&& z) ^^^ (y &&& z)
def sum0 (x : UInt32) : UInt32 := rotr 2 x ^^^ rotr 13 x ^^^ rotr 22 x
def sum1 (x : UInt32) : UInt32 := rotr 6 x ^^^ rotr 11 x ^^^ rotr 25 x
def sigma0 (x : UInt32) : UInt32 := rotr 7 x ^^^ rotr 18 x ^^^ shr 3 x
def sigma1 (x : UInt32) : UInt32 := rotr 17 x ^^^ rotr 19 x ^^^ shr 10 x

/-- The number that bytes write, the high byte first. -/
def number (bytes : List UInt8) : Nat := bytes.foldl (fun n b => 256 * n + b.toNat) 0

/-- The low bytes of a number, the high one first. -/
def bigEndian : Nat → Nat → List UInt8
  | 0, _ => []
  | count + 1, n => bigEndian count (n / 256) ++ [UInt8.ofNat n]

@[simp] theorem length_bigEndian (count n : Nat) : (bigEndian count n).length = count := by
  induction count generalizing n with
  | zero => rfl
  | succ count ih => rw [bigEndian, List.length_append, ih, List.length_singleton]

/-! ## Constants -/

/-- The primes below a number, which nothing from 2 up to their square root divides. -/
def primes (n : Nat) : List Nat :=
  (List.range n).filter fun p => 2 ≤ p && (List.range' 2 (Nat.nthRoot 2 p - 1)).all fun d =>
    p % d != 0

/-- The first 32 bits of the fractional part of a root. -/
def fraction (r p : Nat) : UInt32 := UInt32.ofNat (Nat.nthRoot r (p <<< (32 * r)))

/-- The constants of the rounds: from the cube roots of the first 64 primes. -/
def constants : List UInt32 := (primes 312).map (fraction 3)

/-! ## Blocks -/

structure Hash where
  a : UInt32
  b : UInt32
  c : UInt32
  d : UInt32
  e : UInt32
  f : UInt32
  g : UInt32
  h : UInt32
  deriving DecidableEq, Repr

/-- The value before the first block: from the square roots of the first eight primes. -/
def initial : Hash :=
  ⟨fraction 2 2, fraction 2 3, fraction 2 5, fraction 2 7, fraction 2 11, fraction 2 13,
    fraction 2 17, fraction 2 19⟩

/-- The words of the schedule of a block. -/
def schedule (block : List UInt8) (t : Nat) : UInt32 :=
  if t < 16 then UInt32.ofNat (number ((block.drop (4 * t)).take 4))
  else sigma1 (schedule block (t - 2)) + schedule block (t - 7) + sigma0 (schedule block (t - 15)) +
    schedule block (t - 16)
termination_by t

def round (v : Hash) (k w : UInt32) : Hash :=
  let t1 := v.h + sum1 v.e + ch v.e v.f v.g + k + w
  let t2 := sum0 v.a + maj v.a v.b v.c
  ⟨t1 + t2, v.a, v.b, v.c, v.d + t1, v.e, v.f, v.g⟩

def Hash.add (v w : Hash) : Hash :=
  ⟨v.a + w.a, v.b + w.b, v.c + w.c, v.d + w.d, v.e + w.e, v.f + w.f, v.g + w.g, v.h + w.h⟩

def compress (v : Hash) (block : List UInt8) : Hash :=
  ((List.range 64).foldl (fun w t => round w (constants.getD t 0) (schedule block t)) v).add v

/-! ## Messages -/

/-- How many zeros come behind the end mark of a message. -/
def zeros (len : Nat) : Nat := (119 - len % 64) % 64

/-- The end mark, the zeros and the length in bits. -/
def padding (len : Nat) : List UInt8 :=
  0x80 :: (List.replicate (zeros len) 0 ++ bigEndian 8 (8 * len))

def Hash.bytes (v : Hash) : List UInt8 :=
  [v.a, v.b, v.c, v.d, v.e, v.f, v.g, v.h].flatMap fun w => bigEndian 4 w.toNat

def digest (message : List UInt8) : List UInt8 :=
  (blocks.through 64 compress initial (message ++ padding message.length)).bytes

end fips
