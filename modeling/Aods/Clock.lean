-- `datetime.now()` to the second, and the text that `strftime` makes of it. All numbers of the text
-- have their full width, so texts compare as the times do.
import Aods.Machine
import Mathlib.Algebra.GroupWithZero.Nat
import Mathlib.Order.Lattice
import Mathlib.Data.List.Lex
import Mathlib.Tactic.Common

open machine

namespace py.clock

/-- Texts compare byte by byte. -/
scoped instance byteOrder : LinearOrder UInt8 where
  le_refl := UInt8.le_refl
  le_trans _ _ _ := UInt8.le_trans
  le_antisymm _ _ := UInt8.le_antisymm
  le_total := UInt8.le_total
  lt_iff_le_not_ge a b := by
    rw [UInt8.lt_iff_toNat_lt, UInt8.le_iff_toNat_le, UInt8.le_iff_toNat_le]
    omega
  toDecidableLE := inferInstance
  toDecidableEq := inferInstance
  toDecidableLT := inferInstance

structure Now where
  year : Nat
  month : Nat
  day : Nat
  hour : Nat
  minute : Nat
  second : Nat
  year_range : 1000 ≤ year ∧ year < 10000
  month_range : 1 ≤ month ∧ month ≤ 12
  day_range : 1 ≤ day ∧ day ≤ 31
  hour_lt : hour < 24
  minute_lt : minute < 60
  second_lt : second < 60

/-- Times compare by the year first. -/
def Now.fields (n : Now) : List Nat := [n.year, n.month, n.day, n.hour, n.minute, n.second]

/-- A number in decimal, with zeros in front. -/
def digits : Nat → Nat → Bytes
  | 0, _ => []
  | w + 1, n => digits w (n / 10) ++ [UInt8.ofNat (48 + n % 10)]

/-- "%Y-%m-%d %H:%M:%S". -/
def strftime (n : Now) : Bytes :=
  digits 4 n.year ++ 45 :: (digits 2 n.month ++ 45 :: (digits 2 n.day ++ 32 ::
    (digits 2 n.hour ++ 58 :: (digits 2 n.minute ++ 58 :: digits 2 n.second))))

/-! ## The order of texts -/

theorem length_digits (w n : Nat) : (digits w n).length = w := by
  induction w generalizing n with
  | zero => rfl
  | succ w ih => rw [digits, List.length_append, ih, List.length_singleton]

theorem append_lt_append_iff {a b : Bytes} (h : a.length = b.length) (s t : Bytes) :
    a ++ s < b ++ t ↔ a < b ∨ a = b ∧ s < t := by
  induction a generalizing b with
  | nil =>
    have hnil : b = [] := List.eq_nil_of_length_eq_zero h.symm
    subst hnil
    simp
  | cons x a ih =>
    cases b with
    | nil => cases h
    | cons y b =>
      simp only [List.length_cons, Nat.add_right_cancel_iff] at h
      rw [List.cons_append, List.cons_append, List.cons_lt_cons_iff, List.cons_lt_cons_iff, ih h,
        List.cons.injEq]
      tauto

theorem digit_lt_digit {n m : Nat} (hn : n < 10) (hm : m < 10) :
    ([UInt8.ofNat (48 + n)] : Bytes) < [UInt8.ofNat (48 + m)] ↔ n < m := by
  have hlt : UInt8.ofNat (48 + n) < UInt8.ofNat (48 + m) ↔ n < m := by
    rw [UInt8.lt_iff_toNat_lt, UInt8.toNat_ofNat', UInt8.toNat_ofNat']
    omega
  have hnil : ¬ ([] : Bytes) < [] := lt_irrefl _
  rw [List.cons_lt_cons_iff, hlt]
  tauto

theorem digits_lt_digits {w n m : Nat} (hn : n < 10 ^ w) (hm : m < 10 ^ w) :
    digits w n < digits w m ↔ n < m := by
  induction w generalizing n m with
  | zero =>
    rw [Nat.pow_zero, Nat.lt_one_iff] at hn hm
    subst hn hm
    simp [digits]
  | succ w ih =>
    have hn' : n / 10 < 10 ^ w := by
      rw [Nat.div_lt_iff_lt_mul (by omega)]
      exact hn
    have hm' : m / 10 < 10 ^ w := by
      rw [Nat.div_lt_iff_lt_mul (by omega)]
      exact hm
    have hlt := ih hn' hm'
    have hgt := ih hm' hn'
    have heq : digits w (n / 10) = digits w (m / 10) ↔ n / 10 = m / 10 := by
      constructor
      · intro he
        rw [he] at hlt hgt
        have h1 := mt hlt.mpr (lt_irrefl _)
        have h2 := mt hgt.mpr (lt_irrefl _)
        omega
      · intro he
        rw [he]
    rw [digits, digits, append_lt_append_iff (by rw [length_digits, length_digits]), hlt, heq,
      digit_lt_digit (Nat.mod_lt _ (by omega)) (Nat.mod_lt _ (by omega))]
    omega

theorem digits_inj {w n m : Nat} (hn : n < 10 ^ w) (hm : m < 10 ^ w) :
    digits w n = digits w m ↔ n = m := by
  constructor
  · intro he
    have h1 := mt (digits_lt_digits hn hm).mpr (by rw [he]; exact lt_irrefl _)
    have h2 := mt (digits_lt_digits hm hn).mpr (by rw [he]; exact lt_irrefl _)
    omega
  · intro he
    rw [he]

/-- A number in front of a separator is compared first. -/
theorem field_lt_iff {w n m : Nat} (hn : n < 10 ^ w) (hm : m < 10 ^ w) (b : UInt8) (s t : Bytes) :
    digits w n ++ b :: s < digits w m ++ b :: t ↔ n < m ∨ n = m ∧ s < t := by
  rw [append_lt_append_iff (by rw [length_digits, length_digits]), digits_lt_digits hn hm,
    digits_inj hn hm, List.cons_lt_cons_iff]
  have hirrefl : ¬ b < b := lt_irrefl b
  tauto

theorem strftime_lt_iff (a b : Now) : strftime a < strftime b ↔ a.fields < b.fields := by
  have hyear : ∀ n : Now, n.year < 10 ^ 4 := fun n => n.year_range.2
  have hmonth : ∀ n : Now, n.month < 10 ^ 2 :=
    fun n => Nat.lt_of_le_of_lt n.month_range.2 (by decide)
  have hday : ∀ n : Now, n.day < 10 ^ 2 := fun n => Nat.lt_of_le_of_lt n.day_range.2 (by decide)
  have hhour : ∀ n : Now, n.hour < 10 ^ 2 := fun n => Nat.lt_trans n.hour_lt (by decide)
  have hminute : ∀ n : Now, n.minute < 10 ^ 2 := fun n => Nat.lt_trans n.minute_lt (by decide)
  have hsecond : ∀ n : Now, n.second < 10 ^ 2 := fun n => Nat.lt_trans n.second_lt (by decide)
  unfold strftime Now.fields
  rw [field_lt_iff (hyear a) (hyear b), field_lt_iff (hmonth a) (hmonth b),
    field_lt_iff (hday a) (hday b), field_lt_iff (hhour a) (hhour b),
    field_lt_iff (hminute a) (hminute b), digits_lt_digits (hsecond a) (hsecond b)]
  simp [List.cons_lt_cons_iff]

theorem strftime_le_iff (a b : Now) : strftime a ≤ strftime b ↔ a.fields ≤ b.fields := by
  rw [← not_lt, ← not_lt, strftime_lt_iff]

end py.clock
