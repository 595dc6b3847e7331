-- The second of the two hash routines of `CAoFileControl`, `CalcFileCrc32Hash`, which splits a
-- file behind its end where `CalcFileCrc32_3` splits it at its half. The law says for which
-- files both give the same string, however their reads cut the file.
import Aods.CrcPeriods
import Aods.PackageHash

open machine
open crc util.ao_file util.ao_hash
open publish (hex08)
open aods.package_hash (hashOf Over calcFileCrc32_3_over)

namespace util.ao_file_control

/-- `CalcFileCrc32Hash` of a file that opens or does not, with the sizes of its reads and what
stands in `pszHash`. -/
def calcFileCrc32Hash (af : Option Bytes) (sizes : List Nat) (psz_hash : Bytes) : Nat × Bytes :=
  match af with
  | none => (enErrorOpenFileFail, psz_hash)
  | some file =>
    let un_file_len := u32 file.length
    let n_half_file_len := i32 un_file_len
    let c :=
      ((reads 10240 sizes file).foldl (crcTurn n_half_file_len) (⟨0, 0, 0, un_file_len⟩, 0)).1
    (0, hashOf c)

/-! ## Numbers in hexadecimal -/

/-- The number that hexadecimal digits stand for. -/
def hexValue (digits : Bytes) (init : Nat) : Nat :=
  digits.foldl (fun n b => 16 * n + (if b.toNat < 58 then b.toNat - 48 else b.toNat - 87)) init

theorem hexValue_append (a b : Bytes) (init : Nat) :
    hexValue (a ++ b) init = hexValue b (hexValue a init) :=
  List.foldl_append

theorem hexValue_digit {d : Nat} (hd : d < 16) (init : Nat) :
    hexValue [UInt8.ofNat (Nat.digitChar d).toNat] init = 16 * init + d := by
  have hall : ∀ d : Fin 16, (let b := UInt8.ofNat (Nat.digitChar d).toNat
      if b.toNat < 58 then b.toNat - 48 else b.toNat - 87) = d := by decide
  exact congrArg (16 * init + ·) (hall ⟨d, hd⟩)

theorem hexValue_toDigits (n : Nat) :
    hexValue ((Nat.toDigits 16 n).map (fun c => UInt8.ofNat c.toNat)) 0 = n := by
  induction n using Nat.base_induction 16 (by decide) with
  | single m hm =>
    rw [Nat.toDigits_of_lt_base hm]
    exact (hexValue_digit hm 0).trans (by omega)
  | digit m k hk hm ih =>
    rw [← Nat.toDigits_append_toDigits (by decide) hm hk, List.map_append, hexValue_append, ih,
      Nat.toDigits_of_lt_base hk]
    exact hexValue_digit hk m

theorem hexValue_zeros (k : Nat) : hexValue (List.replicate k 48) 0 = 0 := by
  induction k with
  | zero => rfl
  | succ k ih => exact ih

theorem hexValue_hex08 (n : Nat) : hexValue (hex08 n) 0 = n := by
  unfold hex08
  dsimp only
  rw [hexValue_append, hexValue_zeros, hexValue_toDigits]

theorem hex08_inj {m n : Nat} : hex08 m = hex08 n ↔ m = n := by
  constructor
  · intro h
    rw [← hexValue_hex08 m, h, hexValue_hex08]
  · exact congrArg hex08

theorem length_hex08 {n : Nat} (h : n < 4294967296) : (hex08 n).length = 8 := by
  have hle : (Nat.toDigits 16 n).length ≤ 8 := by
    rw [Nat.length_toDigits_le_iff (by decide) (by decide)]
    exact h
  unfold hex08
  dsimp only
  rw [List.length_append, List.length_replicate, List.length_map]
  omega

theorem hashOf_inj {c d : Crcs} (hc1 : c.un_crc1 < 4294967296) (hc2 : c.un_crc2 < 4294967296)
    (hclen : c.un_file_len < 4294967296) (hd1 : d.un_crc1 < 4294967296)
    (hd2 : d.un_crc2 < 4294967296) (hdlen : d.un_file_len < 4294967296) :
    hashOf c = hashOf d ↔ c = d := by
  constructor
  · intro h
    unfold hashOf at h
    simp only [List.append_assoc] at h
    obtain ⟨hlen, h⟩ := List.append_inj h (by rw [length_hex08 hclen, length_hex08 hdlen])
    obtain ⟨h1, h⟩ := List.append_inj h (by rw [length_hex08 hc1, length_hex08 hd1])
    obtain ⟨h2, h3⟩ := List.append_inj h (by rw [length_hex08 hc2, length_hex08 hd2])
    rw [hex08_inj] at hlen h1 h2 h3
    cases c
    cases d
    simp_all
  · exact congrArg hashOf

/-! ## Two halves -/

theorem foldl_byte_xor (data : Bytes) (a b : Nat) :
    data.foldl byte (a ^^^ b) = shifts (8 * data.length) a ^^^ data.foldl byte b := by
  induction data generalizing a b with
  | nil => rfl
  | cons x data ih =>
    have hbyte : byte (a ^^^ b) x = shifts 8 a ^^^ byte b x := by
      unfold byte
      rw [Nat.xor_assoc, shifts_xor]
    have hlen : 8 * (x :: data).length = 8 + 8 * data.length := by
      rw [List.length_cons]
      omega
    rw [List.foldl_cons, List.foldl_cons, hbyte, ih, hlen, shifts_add]

/-- Data go on from a checksum as from none, but for the shifts of the checksum. -/
theorem update_eq_xor (crc : Nat) (data : Bytes) :
    update crc data = shifts (8 * data.length) crc ^^^ crc32 data := by
  unfold crc32 update
  rw [foldl_byte_xor, Nat.zero_xor, Nat.xor_assoc]

theorem crc32_lt (data : Bytes) : crc32 data < 2 ^ 32 := update_lt data (by decide)

/-- Some data behind others have the checksum of nothing and leave that of the others, where the
period of the register is out of reach, just when they are nothing or the others have none
either. -/
theorem update_crc32_iff {data behind : Bytes} (hlen : behind.length < 4294967295) :
    crc32 behind = 0 ∧ crc32 (data ++ behind) = crc32 data ↔
      behind = [] ∨ (crc32 data = 0 ∧ crc32 behind = 0) := by
  rw [crc32_append, update_eq_xor]
  constructor
  · rintro ⟨hbehind, hsame⟩
    rw [hbehind, Nat.xor_zero] at hsame
    by_cases hzero : crc32 data = 0
    · exact Or.inr ⟨hzero, hbehind⟩
    · left
      have hbits : 4294967295 ∣ 8 * behind.length :=
        (shifts_eq_self_iff (crc32_lt data) hzero _).mp hsame
      have hodd : Nat.Coprime 4294967295 8 := by decide +kernel
      have hbytes : 4294967295 ∣ behind.length := hodd.dvd_of_dvd_mul_left hbits
      exact List.eq_nil_of_length_eq_zero (Nat.eq_zero_of_dvd_of_lt hbytes hlen)
  · rintro (rfl | ⟨hdata, hbehind⟩)
    · rw [crc32_nil]
      exact ⟨rfl, Nat.xor_zero _⟩
    · have hshifts : ∀ n, shifts n 0 = 0 := by
        intro n
        induction n with
        | zero => rfl
        | succ n ih => exact ih
      rw [hdata, hbehind, hshifts]
      exact ⟨rfl, rfl⟩

/-! ## The law -/

/-- The halves of a file have the checksum of no bytes. -/
def HalvesVanish (file : Bytes) : Prop :=
  crc32 (file.take (file.length / 2)) = 0 ∧ crc32 (file.drop (file.length / 2)) = 0

instance (file : Bytes) : Decidable (HalvesVanish file) := inferInstanceAs (Decidable (_ ∧ _))

theorem over_eq {half len : Nat} {c : Crcs} {part : Bytes} (h : Over half len c part) :
    c = ⟨crc32 (part.take half), crc32 (part.drop half), crc32 part, len⟩ := by
  rw [← h.crc1, ← h.crc2, ← h.crc3, ← h.file_len]

theorem calcFileCrc32Hash_eq {sizes : List Nat} {file : Bytes} (hsizes : Whole 10240 sizes file)
    (hlen : file.length < 2147483648) (psz_hash : Bytes) :
    (calcFileCrc32Hash (some file) sizes psz_hash).2 =
      hashOf ⟨crc32 file, 0, crc32 file, file.length⟩ := by
  have hu32 : u32 (file.length : Int) = file.length := u32_of_lt (by omega)
  have hend : i32 (file.length : Int) = file.length := i32_of_range (by omega) (by omega)
  have hstart : Over file.length file.length ⟨0, 0, 0, file.length⟩ [] :=
    ⟨by simp, by simp, by simp, rfl⟩
  have hover := hstart.turns (reads 10240 sizes file) (by rw [hsizes.flatten]; exact hlen)
  rw [hsizes.flatten] at hover
  have hcrcs := over_eq hover
  rw [List.nil_append, List.take_length, List.drop_length, crc32_nil] at hcrcs
  unfold calcFileCrc32Hash
  dsimp only
  rw [hu32, hend]
  exact congrArg hashOf hcrcs

/-- Of a file of fewer than 2^31 bytes both routines give the same string, whatever sizes up to
10240 the reads of each have, just when the file is empty or both its halves have the checksum of no
bytes. -/
theorem the_two_file_hashes_agree_just_when_both_halves_vanish (file : Bytes)
    (sizes sizes' : List Nat) (psz_hash : Bytes) (c : Crcs)
    (hsizes : ∀ n ∈ sizes, 0 < n ∧ n ≤ 10240) (hsum : sizes.sum = file.length)
    (hsizes' : ∀ n ∈ sizes', 0 < n ∧ n ≤ 10240) (hsum' : sizes'.sum = file.length)
    (hlen : file.length < 2147483648) :
    (calcFileCrc32Hash (some file) sizes psz_hash).2 =
      hashOf (calcFileCrc32_3 (some file) sizes' c).2 ↔
      file = [] ∨ HalvesVanish file := by
  have hfile : file.length < 4294967296 := by omega
  have hhalves := over_eq (calcFileCrc32_3_over ⟨hsizes', hsum'⟩ hlen c)
  have hbehind : (file.drop (file.length / 2)).length < 4294967295 := by
    rw [List.length_drop]
    omega
  have hiff := @update_crc32_iff (file.take (file.length / 2)) _ hbehind
  have hnil : file.drop (file.length / 2) = [] ↔ file = [] := by
    rw [List.drop_eq_nil_iff, ← List.length_eq_zero_iff]
    omega
  rw [List.take_append_drop, hnil] at hiff
  rw [calcFileCrc32Hash_eq ⟨hsizes, hsum⟩ hlen, hhalves,
    hashOf_inj (crc32_lt _) (Nat.zero_lt_succ _) hfile (crc32_lt _) (crc32_lt _) hfile,
    HalvesVanish, ← hiff, Crcs.mk.injEq]
  constructor
  · rintro ⟨h1, h2, _, _⟩
    exact ⟨h2.symm, h1⟩
  · rintro ⟨h2, h1⟩
    exact ⟨h1, h2.symm, rfl, rfl⟩

/-- A file whose two halves are the four bytes with the checksum zero. -/
theorem the_hashes_of_a_vanishing_file :
    (calcFileCrc32Hash (some [157, 10, 217, 109, 157, 10, 217, 109]) [3, 5] []).2 =
      hashOf (calcFileCrc32_3 (some [157, 10, 217, 109, 157, 10, 217, 109]) [8] ⟨7, 7, 7, 7⟩).2 :=
  (the_two_file_hashes_agree_just_when_both_halves_vanish [157, 10, 217, 109, 157, 10, 217, 109]
    [3, 5] [8] []
    ⟨7, 7, 7, 7⟩ (by decide) (by decide) (by decide) (by decide) (by decide)).mpr
      (Or.inr (by decide +kernel))

/-- The two strings of a file of one byte are not the same. -/
theorem the_hashes_of_one_byte_differ :
    (calcFileCrc32Hash (some [0]) [1] []).2 ≠
      hashOf (calcFileCrc32_3 (some [0]) [1] ⟨0, 0, 0, 0⟩).2 := by
  decide +kernel

end util.ao_file_control
