-- The period of the CRC register. What shifts it can be taken for a multiplication, with the
-- register itself for a sum of shifts; so the register after many shifts is found by squaring,
-- and a register other than zero comes back only after a multiple of 2^32 - 1 shifts.
import Aods.Crc32
import Mathlib.Dynamics.PeriodicPts.Defs
import Mathlib.Tactic.NormNum.Prime

open machine

namespace crc

/-! ## Sums of shifts -/

/-- The sum of the shifts of a register that some coefficients take, the one of no shift first. -/
def combine : List Bool → Nat → Nat
  | [], _ => 0
  | a :: as, z => (if a then z else 0) ^^^ combine as (shift z)

/-- The low `k` bits of a register from the high end. -/
def coeffs : Nat → Nat → List Bool
  | 0, _ => []
  | k + 1, y => y.testBit k :: coeffs k y

/-- The product of two registers. -/
def mul (y z : Nat) : Nat := combine (coeffs 32 y) z

/-- The register that a product leaves as it is. -/
def one : Nat := 0x80000000

theorem shift_zero : shift 0 = 0 := by decide

theorem combine_zero (as : List Bool) : combine as 0 = 0 := by
  induction as with
  | nil => rfl
  | cons a as ih =>
    unfold combine
    rw [shift_zero, ih, ite_self, Nat.xor_self]

theorem combine_xor (as : List Bool) (y z : Nat) :
    combine as (y ^^^ z) = combine as y ^^^ combine as z := by
  induction as generalizing y z with
  | nil => exact (Nat.xor_self 0).symm
  | cons a as ih =>
    unfold combine
    rw [shift_xor, ih]
    cases a with
    | true =>
      simp only [if_true]
      ac_rfl
    | false => simp

theorem combine_shift (as : List Bool) (z : Nat) : combine as (shift z) = shift (combine as z) := by
  induction as generalizing z with
  | nil => exact shift_zero.symm
  | cons a as ih =>
    unfold combine
    rw [shift_xor, ← ih]
    cases a with
    | true => rfl
    | false => rw [if_neg Bool.false_ne_true, if_neg Bool.false_ne_true, shift_zero]

theorem combine_comm (as bs : List Bool) (z : Nat) :
    combine as (combine bs z) = combine bs (combine as z) := by
  induction as generalizing z with
  | nil => exact (combine_zero bs).symm
  | cons a as ih =>
    have hleft : combine (a :: as) (combine bs z) =
        (if a then combine bs z else 0) ^^^ combine as (shift (combine bs z)) := rfl
    have hright : combine (a :: as) z = (if a then z else 0) ^^^ combine as (shift z) := rfl
    rw [hleft, hright, combine_xor, ← combine_shift, ih]
    cases a with
    | true => rfl
    | false => rw [if_neg Bool.false_ne_true, if_neg Bool.false_ne_true, combine_zero]

theorem combine_shifts (as : List Bool) (n z : Nat) :
    combine as (shifts n z) = shifts n (combine as z) := by
  induction n generalizing z with
  | zero => rfl
  | succ n ih =>
    unfold shifts
    rw [ih, combine_shift]

/-- A register is the sum of the shifts of `one` that its bits name. -/
theorem combine_coeffs (k y : Nat) : combine (coeffs (k + 1) y) (2 ^ k) = y % 2 ^ (k + 1) := by
  have hsplit : ∀ k, y % 2 ^ (k + 1) = (if y.testBit k then 2 ^ k else 0) ^^^ y % 2 ^ k := by
    intro k
    apply Nat.eq_of_testBit_eq
    intro i
    rw [Nat.testBit_xor, Nat.testBit_mod_two_pow, Nat.testBit_mod_two_pow]
    have htop : (if y.testBit k then 2 ^ k else 0).testBit i = (decide (k = i) && y.testBit k) := by
      cases hk : y.testBit k with
      | true => simp [Nat.testBit_two_pow]
      | false => simp
    rw [htop]
    rcases Nat.lt_trichotomy i k with hlt | heq | hgt
    · have h1 : i < k + 1 := by omega
      have h2 : k ≠ i := by omega
      simp [hlt, h1, h2]
    · simp [heq]
    · have h1 : ¬ i < k + 1 := by omega
      have h2 : k ≠ i := by omega
      have h3 : ¬ i < k := by omega
      simp [h1, h2, h3]
  induction k with
  | zero =>
    rw [hsplit 0]
    simp [coeffs, combine, Nat.mod_one]
  | succ k ih =>
    have hshift : shift (2 ^ (k + 1)) = 2 ^ k := by
      have hone := shifts_mul 1 (2 ^ k)
      rw [← Nat.pow_add, Nat.add_comm 1 k] at hone
      exact hone
    rw [hsplit (k + 1), ← ih, ← hshift]
    rfl

theorem mul_one {y : Nat} (h : y < 2 ^ 32) : mul y one = y := by
  have hall := combine_coeffs 31 y
  rw [Nat.mod_eq_of_lt h] at hall
  exact hall

/-! ## The register after many shifts -/

theorem shifts_add (m n z : Nat) : shifts (m + n) z = shifts n (shifts m z) := by
  induction m generalizing z with
  | zero => rw [Nat.zero_add]; rfl
  | succ m ih =>
    rw [Nat.succ_add]
    exact ih (shift z)

theorem mul_shifts_one {y : Nat} (n : Nat) (h : y < 2 ^ 32) :
    mul y (shifts n one) = shifts n y := by
  unfold mul
  rw [combine_shifts]
  exact congrArg (shifts n) (mul_one h)

theorem one_lt : one < 2 ^ 32 := by decide

/-- The register after as many shifts as some binary digits say, the high digit first. -/
def power (digits : List Bool) : Nat :=
  digits.foldl (fun r d => if d then shift (mul r r) else mul r r) one

def value (digits : List Bool) : Nat := digits.foldl (fun n d => 2 * n + d.toNat) 0

theorem power_eq (digits : List Bool) : power digits = shifts (value digits) one := by
  have hfold : ∀ n r, r = shifts n one →
      digits.foldl (fun r d => if d then shift (mul r r) else mul r r) r =
        shifts (digits.foldl (fun n d => 2 * n + d.toNat) n) one := by
    induction digits with
    | nil => exact fun n r h => h
    | cons d digits ih =>
      intro n r h
      have hsquare : mul r r = shifts (2 * n) one := by
        rw [h, mul_shifts_one n (shifts_lt n one_lt), ← shifts_add, Nat.two_mul]
      rw [List.foldl_cons, List.foldl_cons]
      apply ih
      cases d with
      | true =>
        rw [if_pos rfl, hsquare]
        exact (shifts_add (2 * n) 1 one).symm
      | false => exact hsquare
  exact hfold 0 one rfl

/-- The binary digits of a number of 32 bits. -/
def digits (n : Nat) : List Bool := coeffs 32 n

/-! ## The period -/

/-- All registers are back after 2^32 - 1 shifts. -/
theorem shifts_period {y : Nat} (h : y < 2 ^ 32) : shifts 4294967295 y = y := by
  have hvalue : value (digits 4294967295) = 4294967295 := by decide +kernel
  have hpower : power (digits 4294967295) = one := by decide +kernel
  rw [power_eq, hvalue] at hpower
  rw [← mul_shifts_one 4294967295 h, hpower, mul_one h]

/-- Where the shifts of `one` differ from it by a unit, only zero is back. -/
theorem eq_zero_of_fixed {n u y : Nat} (hunit : mul u (shifts n one ^^^ one) = one)
    (hy : y < 2 ^ 32) (h : shifts n y = y) : y = 0 := by
  have hdiff : mul y (shifts n one ^^^ one) = 0 := by
    unfold mul
    rw [combine_xor]
    have hshifts := mul_shifts_one n hy
    have hone := mul_one hy
    unfold mul at hshifts hone
    rw [hshifts, hone, h, Nat.xor_self]
  have hcomm : mul y (mul u (shifts n one ^^^ one)) = mul u (mul y (shifts n one ^^^ one)) :=
    combine_comm _ _ _
  rw [hunit, hdiff, mul_one hy] at hcomm
  exact hcomm.trans (combine_zero _)

/-- The shifts of `one` by the period over a prime, and the unit. -/
theorem fixed_of_power {n u y : Nat} (hvalue : value (digits n) = n)
    (hunit : mul u (power (digits n) ^^^ one) = one) (hy : y < 2 ^ 32) (h : shifts n y = y) :
    y = 0 := by
  rw [power_eq, hvalue] at hunit
  exact eq_zero_of_fixed hunit hy h

theorem factor_cases {q : Nat} (hq : q.Prime) (h : q ∣ 4294967295) :
    q = 3 ∨ q = 5 ∨ q = 17 ∨ q = 257 ∨ q = 65537 := by
  have hsplit : 4294967295 = 3 * (5 * (17 * (257 * 65537))) := rfl
  rw [hsplit, hq.dvd_mul, hq.dvd_mul, hq.dvd_mul, hq.dvd_mul,
    Nat.prime_dvd_prime_iff_eq hq (by norm_num), Nat.prime_dvd_prime_iff_eq hq (by norm_num),
    Nat.prime_dvd_prime_iff_eq hq (by norm_num), Nat.prime_dvd_prime_iff_eq hq (by norm_num),
    Nat.prime_dvd_prime_iff_eq hq (by norm_num)] at h
  exact h

/-- No register but zero is back after the period over one of its prime factors. -/
theorem eq_zero_of_factor {q y : Nat} (hq : q.Prime) (hdvd : q ∣ 4294967295) (hy : y < 2 ^ 32)
    (h : shifts (4294967295 / q) y = y) : y = 0 := by
  rcases factor_cases hq hdvd with rfl | rfl | rfl | rfl | rfl
  · exact @fixed_of_power 1431655765 0xc736eb52 y (by decide +kernel) (by decide +kernel) hy h
  · exact @fixed_of_power 858993459 0x3d436701 y (by decide +kernel) (by decide +kernel) hy h
  · exact @fixed_of_power 252645135 0xe1a0922e y (by decide +kernel) (by decide +kernel) hy h
  · exact @fixed_of_power 16711935 0x3c1c66b1 y (by decide +kernel) (by decide +kernel) hy h
  · exact @fixed_of_power 65535 0xd4e6c8ca y (by decide +kernel) (by decide +kernel) hy h

theorem shifts_eq_iterate (n y : Nat) : shifts n y = shift^[n] y := by
  induction n generalizing y with
  | zero => rfl
  | succ n ih => exact ih (shift y)

/-- A register other than zero is back just after the multiples of 2^32 - 1 shifts. -/
theorem shifts_eq_self_iff {y : Nat} (hy : y < 2 ^ 32) (hne : y ≠ 0) (n : Nat) :
    shifts n y = y ↔ 4294967295 ∣ n := by
  have hperiod : Function.IsPeriodicPt shift 4294967295 y :=
    (shifts_eq_iterate _ _).symm.trans (shifts_period hy)
  constructor
  · intro h
    have hn : Function.IsPeriodicPt shift n y := (shifts_eq_iterate _ _).symm.trans h
    have hgcd := hn.gcd hperiod
    have hdvd : n.gcd 4294967295 ∣ 4294967295 := Nat.gcd_dvd_right _ _
    obtain ⟨c, hc⟩ := hdvd
    by_cases hone : c = 1
    · rw [hone, Nat.mul_one] at hc
      rw [hc]
      exact Nat.gcd_dvd_left _ _
    · -- the common divisor divides the period over a prime factor
      exfalso
      obtain ⟨q, hq, hqc⟩ := Nat.exists_prime_and_dvd hone
      obtain ⟨k, rfl⟩ := hqc
      have hsplit : 4294967295 = q * (n.gcd 4294967295 * k) := hc.trans (Nat.mul_left_comm _ q k)
      have hover : 4294967295 / q = n.gcd 4294967295 * k := Nat.div_eq_of_eq_mul_right hq.pos hsplit
      have hback : shifts (4294967295 / q) y = y := by
        rw [hover, shifts_eq_iterate]
        exact hgcd.mul_const k
      exact hne (eq_zero_of_factor hq ⟨_, hsplit⟩ hy hback)
  · rintro ⟨k, rfl⟩
    rw [shifts_eq_iterate]
    exact hperiod.mul_const k

end crc
