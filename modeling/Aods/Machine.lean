-- The machine below the program: 32-bit integers that wrap, bytes, words in
-- memory order, C strings, and the ways in which a handler can go wrong.
import Mathlib.Tactic.Common
import Mathlib.Data.List.TakeWhile

namespace machine

abbrev Bytes := List UInt8

-- Decided along the bytes, and not along all values of a byte.
instance (priority := 1100) decidableForallMem {p : UInt8 → Prop} [DecidablePred p] (bs : Bytes) :
    Decidable (∀ b ∈ bs, p b) :=
  List.decidableBAll p bs

/-- What the C++ code must never do. A handler that does it gives no result. -/
inductive Fault where
  | null_pointer
  | divide_by_zero
  | bad_iterator
  | overrun
  /-- a `memcpy` that writes what it reads -/
  | overlap
  | stack_overflow
  deriving DecidableEq, Repr

theorem bind_ok {ε α β : Type} {x : Except ε α} {f : α → Except ε β} {b : β}
    (h : x >>= f = .ok b) : ∃ a, x = .ok a ∧ f a = .ok b := by
  cases x with
  | error e => cases h
  | ok a => exact ⟨a, rfl, h⟩

theorem map_ok {ε α β : Type} {x : Except ε α} {f : α → β} {b : β} (h : x.map f = .ok b) :
    ∃ a, x = .ok a ∧ f a = b := by
  cases x with
  | error e => cases h
  | ok a =>
    cases h
    exact ⟨a, rfl, rfl⟩

theorem bind_error {α β : Type} {x : Except Fault α} {f : α → Except Fault β} {e : Fault}
    (h : x >>= f = .error e) : x = .error e ∨ ∃ a, x = .ok a ∧ f a = .error e := by
  cases x with
  | error e' =>
    cases h
    exact Or.inl rfl
  | ok a => exact Or.inr ⟨a, rfl, h⟩

/-- An array of bytes of a fixed length. -/
abbrev Arr (n : Nat) := { b : Bytes // b.length = n }

/-! ## Integers -/

/-- The value of an `unsigned int`. -/
def u32 (n : Int) : Nat := (n % 4294967296).toNat

/-- The value of an `int`. A sum that does not fit wraps. -/
def i32 (n : Int) : Int := if u32 n < 2147483648 then u32 n else u32 n - 4294967296

/-- The value of an `unsigned char`. -/
def uchar (n : Int) : UInt8 := UInt8.ofNat (n % 256).toNat

theorem i32_range (n : Int) : -2147483648 ≤ i32 n ∧ i32 n < 2147483648 := by unfold i32 u32; omega

@[simp] theorem u32_of_lt {n : Nat} (h : n < 4294967296) : u32 (n : Int) = n := by unfold u32; omega

theorem i32_of_range {n : Int} (h1 : -2147483648 ≤ n) (h2 : n < 2147483648) : i32 n = n := by
  unfold i32 u32; omega

theorem i32_le_natCast (n : Nat) : i32 (n : Int) ≤ n := by unfold i32 u32; omega

theorem i32_of_counted {n : Nat} (h : 0 ≤ i32 (n : Int)) (hlt : n < 4294967296) :
    i32 (n : Int) = n := by
  unfold i32 u32 at h ⊢
  omega

theorem toNat_uchar (n : Int) : (uchar n).toNat = (n % 256).toNat := by
  unfold uchar
  rw [UInt8.toNat_ofNat']
  omega

/-! ## Words -/

/-- The four bytes of an `int`, the low byte first. -/
def le32 (n : Int) : Bytes := [uchar n, uchar (n / 256), uchar (n / 65536), uchar (n / 16777216)]

/-- The number that bytes hold, the low byte first. -/
def word : Bytes → Nat
  | [] => 0
  | b :: bs => b.toNat + 256 * word bs

@[simp] theorem length_le32 (n : Int) : (le32 n).length = 4 := rfl

theorem word_le32 (n : Int) : word (le32 n) = u32 n := by
  have h2 : n / 65536 = n / 256 / 256 := by omega
  have h3 : n / 16777216 = n / 256 / 256 / 256 := by omega
  simp only [le32, word, toNat_uchar, u32, h2, h3]
  generalize hx : n / 256 = x
  generalize hy : x / 256 = y
  -- one byte more at a time, from the high end
  have hhigh : (y % 256).toNat + 256 * (y / 256 % 256).toNat = (y % 65536).toNat := by omega
  have hlow : (x % 256).toNat + 256 * (y % 65536).toNat = (x % 16777216).toNat := by omega
  omega

theorem i32_word_le32 {n : Int} (h1 : -2147483648 ≤ n) (h2 : n < 2147483648) :
    i32 (word (le32 n)) = n := by
  rw [word_le32]
  unfold i32 u32
  omega

/-! ## C strings -/

/-- The C string at the front of some bytes: up to the first NUL. -/
def cstr (bs : Bytes) : Bytes := bs.takeWhile (· != 0)

/-- The bytes behind the C string at the front and its NUL. -/
def pastCstr (bs : Bytes) : Bytes := bs.drop ((cstr bs).length + 1)

theorem cstr_append {s : Bytes} (h : 0 ∉ s) (t : Bytes) : cstr (s ++ 0 :: t) = s := by
  unfold cstr
  rw [List.takeWhile_append_of_pos]
  · simp
  · intro b hb
    have : b ≠ 0 := fun he => h (he ▸ hb)
    simpa using this

theorem cstr_of_notMem {s : Bytes} (h : 0 ∉ s) : cstr s = s := by
  unfold cstr
  rw [List.takeWhile_eq_self_iff]
  intro b hb
  have : b ≠ 0 := fun he => h (he ▸ hb)
  simpa using this

theorem pastCstr_append {s : Bytes} (h : 0 ∉ s) (t : Bytes) : pastCstr (s ++ 0 :: t) = t := by
  unfold pastCstr
  rw [cstr_append h, List.drop_append]
  simp

theorem zero_notMem_cstr (bs : Bytes) : 0 ∉ cstr bs := by
  intro h
  simpa using List.mem_takeWhile_imp h

theorem cstr_pastCstr {bs : Bytes} (h : 0 ∈ bs) : bs = cstr bs ++ 0 :: pastCstr bs := by
  induction bs with
  | nil => simp at h
  | cons b bs ih =>
    by_cases hb : b = 0
    · subst hb
      rfl
    · have hmem : 0 ∈ bs := by
        rcases List.mem_cons.mp h with h0 | h0
        · exact absurd h0.symm hb
        · exact h0
      have hcstr : cstr (b :: bs) = b :: cstr bs := by simp [cstr, hb]
      have hpast : pastCstr (b :: bs) = pastCstr bs := by simp [pastCstr, hcstr]
      rw [hcstr, hpast, List.cons_append, ← ih hmem]

end machine
