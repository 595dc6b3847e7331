-- The small helpers of `CAoHelper` and `CAoHash` that the messages go through:
-- hex text both ways, the check byte, and the search for a name in a name. The
-- laws say that the hex text of bytes gives them back.
import Aods.Machine
import Mathlib.Data.List.Basic

open machine

namespace util.helper

def hexChar (uc_hex_data : UInt8) : UInt8 :=
  if uc_hex_data ≤ 9 then uc_hex_data + 48
  else if uc_hex_data < 16 then uc_hex_data - 10 + 97
  else 48

def hexData (c_hex_char : UInt8) : UInt8 :=
  if c_hex_char ≥ 48 ∧ c_hex_char ≤ 57 then c_hex_char - 48
  else if c_hex_char ≥ 97 ∧ c_hex_char ≤ 102 then c_hex_char - 97 + 10
  else if c_hex_char ≥ 65 ∧ c_hex_char ≤ 70 then c_hex_char - 65 + 10
  else 0

/-- The hex text of bytes, without the NUL behind it. -/
def getHexString : Bytes → Bytes
  | [] => []
  | b :: bs => hexChar ((b >>> 4) &&& 0xF) :: hexChar (b &&& 0xF) :: getHexString bs

/-- The bytes of a hex text of even length. -/
def hexBytes : Bytes → Bytes
  | a :: b :: t => ((hexData a <<< 4) + hexData b) :: hexBytes t
  | _ => []

/-- `GetHexData` into an array: its first cells are written, the others stay. Text of
odd length is left aside. An array too short for the bytes is overrun. -/
def getHexData (data hex : Bytes) : Except Fault Bytes :=
  let n_len := hex.length % 65536
  if n_len % 2 ≠ 0 then .ok data
  else if data.length < n_len / 2 then .error .overrun
  else .ok (hexBytes (hex.take n_len) ++ data.drop (n_len / 2))

def calcCrc8 (data : Bytes) : UInt8 := data.foldl (· ^^^ ·) 0

/-- A hex digit as `%02X` prints it. -/
def upperHexChar (n : UInt8) : UInt8 := if n ≤ 9 then n + 48 else n + 55

/-- The text that `GetUuid` makes of what `rand` gives it. -/
def getUuid (rands : Bytes) : Bytes :=
  (rands.take 16).flatMap (fun (b : UInt8) => [upperHexChar (b >>> 4), upperHexChar (b &&& 0xF)])

/-- `strstr` finds the second text in the first. -/
def strstr (s t : Bytes) : Bool := s.tails.any (fun r => t.isPrefixOf r)

/-! ## Hex text -/

theorem hexData_hexChar (b : UInt8) :
    (hexData (hexChar ((b >>> 4) &&& 0xF)) <<< 4) + hexData (hexChar (b &&& 0xF)) = b := by
  have h : ∀ n < 256, (hexData (hexChar ((UInt8.ofNat n >>> 4) &&& 0xF)) <<< 4) +
      hexData (hexChar (UInt8.ofNat n &&& 0xF)) = UInt8.ofNat n := by decide +kernel
  have := h b.toNat b.toNat_lt
  rwa [UInt8.ofNat_toNat] at this

@[simp] theorem length_getHexString (bs : Bytes) : (getHexString bs).length = 2 * bs.length := by
  induction bs with
  | nil => rfl
  | cons b bs ih =>
    rw [getHexString, List.length_cons, List.length_cons, ih, List.length_cons]
    omega

theorem hexBytes_getHexString (bs : Bytes) : hexBytes (getHexString bs) = bs := by
  induction bs with
  | nil => rfl
  | cons b bs ih => rw [getHexString, hexBytes, hexData_hexChar, ih]

theorem getHexString_inj {a b : Bytes} (h : getHexString a = getHexString b) : a = b := by
  rw [← hexBytes_getHexString a, h, hexBytes_getHexString]

theorem hexBytes_getUuid (rands : Bytes) : hexBytes (getUuid rands) = rands.take 16 := by
  have hchar : ∀ b : UInt8,
      (hexData (upperHexChar (b >>> 4)) <<< 4) + hexData (upperHexChar (b &&& 0xF)) = b := by
    intro b
    have h : ∀ n < 256, (hexData (upperHexChar (UInt8.ofNat n >>> 4)) <<< 4) +
        hexData (upperHexChar (UInt8.ofNat n &&& 0xF)) = UInt8.ofNat n := by decide +kernel
    have := h b.toNat b.toNat_lt
    rwa [UInt8.ofNat_toNat] at this
  unfold getUuid
  induction rands.take 16 with
  | nil => rfl
  | cons b bs ih =>
    rw [List.flatMap_cons, List.cons_append, List.cons_append, List.nil_append, hexBytes, hchar, ih]

/-- Hex text into an array that begins where its bytes go. -/
theorem getHexData_getHexString {data bs : Bytes} (h : bs.length ≤ data.length)
    (hs : bs.length < 32768) :
    getHexData data (getHexString bs) = .ok (bs ++ data.drop bs.length) := by
  have hn : (getHexString bs).length % 65536 = 2 * bs.length := by
    rw [length_getHexString]
    omega
  have h1 : ¬ (2 * bs.length) % 2 ≠ 0 := by omega
  have h2 : ¬ data.length < bs.length := by omega
  have h3 : 2 * bs.length / 2 = bs.length := by omega
  have hall : (getHexString bs).take (2 * bs.length) = getHexString bs := by
    rw [← length_getHexString]
    exact List.take_length
  simp only [getHexData, hn, h1, if_false, h3, h2, hall, hexBytes_getHexString]

theorem getHexData_error {data hex : Bytes} {f : Fault} (h : getHexData data hex = .error f) :
    f = .overrun := by
  simp only [getHexData] at h
  split at h
  · cases h
  split at h
  · cases h
    rfl
  · cases h

theorem le_of_mem_getHexString {bs : Bytes} {c : UInt8} (h : c ∈ getHexString bs) : 48 ≤ c := by
  have hchar : ∀ b : UInt8, 48 ≤ hexChar b := by
    intro b
    have h : ∀ n < 256, 48 ≤ hexChar (UInt8.ofNat n) := by decide +kernel
    have := h b.toNat b.toNat_lt
    rwa [UInt8.ofNat_toNat] at this
  induction bs with
  | nil => simp [getHexString] at h
  | cons b bs ih =>
    simp only [getHexString, List.mem_cons] at h
    rcases h with rfl | rfl | h
    · exact hchar _
    · exact hchar _
    · exact ih h

theorem zero_notMem_getHexString (bs : Bytes) : 0 ∉ getHexString bs := by
  intro h
  exact absurd (le_of_mem_getHexString h) (by decide)

theorem hash_notMem_getHexString (bs : Bytes) : 35 ∉ getHexString bs := by
  intro h
  exact absurd (le_of_mem_getHexString h) (by decide)

theorem zero_notMem_getUuid (rands : Bytes) : 0 ∉ getUuid rands := by
  have hhigh : ∀ b : UInt8, upperHexChar (b >>> 4) ≠ 0 := by
    intro b
    have h : ∀ n < 256, upperHexChar (UInt8.ofNat n >>> 4) ≠ 0 := by decide +kernel
    have := h b.toNat b.toNat_lt
    rwa [UInt8.ofNat_toNat] at this
  have hlow : ∀ b : UInt8, upperHexChar (b &&& 0xF) ≠ 0 := by
    intro b
    have h : ∀ n < 256, upperHexChar (UInt8.ofNat n &&& 0xF) ≠ 0 := by decide +kernel
    have := h b.toNat b.toNat_lt
    rwa [UInt8.ofNat_toNat] at this
  intro h
  obtain ⟨b, _, hb⟩ := List.mem_flatMap.mp h
  rcases List.mem_cons.mp hb with h0 | hb
  · exact hhigh b h0.symm
  · exact hlow b (List.mem_singleton.mp hb).symm

end util.helper
