-- `CAoHash::Sha256Init`, `Sha256Update` and `Sha256Final`: a block of 64 bytes that fills byte by
-- byte, the count of the bits in two words, and the eight words of the state. Whatever chunks the
-- bytes come in, the hash is the standard one of all of them.
import Mathlib.Data.List.GetD
import Mathlib.Tactic.IntervalCases
import Aods.Machine
import Aods.Sha256

open machine

namespace util.ao_hash

/-! ## Macros and data -/

/-- `DBL_INT_ADD`: the low word and the high word. -/
def dblIntAdd (a b c : UInt32) : UInt32 × UInt32 := (a + c, if a > 0xffffffff - c then b + 1 else b)

def rotright (a b : UInt32) : UInt32 := (a >>> b) ||| (a <<< (32 - b))
def ch (x y z : UInt32) : UInt32 := (x &&& y) ^^^ (~~~x &&& z)
def maj (x y z : UInt32) : UInt32 := (x &&& y) ^^^ (x &&& z) ^^^ (y &&& z)
def ep0 (x : UInt32) : UInt32 := rotright x 2 ^^^ rotright x 13 ^^^ rotright x 22
def ep1 (x : UInt32) : UInt32 := rotright x 6 ^^^ rotright x 11 ^^^ rotright x 25
def sig0 (x : UInt32) : UInt32 := rotright x 7 ^^^ rotright x 18 ^^^ (x >>> 3)
def sig1 (x : UInt32) : UInt32 := rotright x 17 ^^^ rotright x 19 ^^^ (x >>> 10)

def k : List UInt32 :=
  [0x428a2f98, 0x71374491, 0xb5c0fbcf, 0xe9b5dba5, 0x3956c25b, 0x59f111f1, 0x923f82a4, 0xab1c5ed5,
   0xd807aa98, 0x12835b01, 0x243185be, 0x550c7dc3, 0x72be5d74, 0x80deb1fe, 0x9bdc06a7, 0xc19bf174,
   0xe49b69c1, 0xefbe4786, 0x0fc19dc6, 0x240ca1cc, 0x2de92c6f, 0x4a7484aa, 0x5cb0a9dc, 0x76f988da,
   0x983e5152, 0xa831c66d, 0xb00327c8, 0xbf597fc7, 0xc6e00bf3, 0xd5a79147, 0x06ca6351, 0x14292967,
   0x27b70a85, 0x2e1b2138, 0x4d2c6dfc, 0x53380d13, 0x650a7354, 0x766a0abb, 0x81c2c92e, 0x92722c85,
   0xa2bfe8a1, 0xa81a664b, 0xc24b8b70, 0xc76c51a3, 0xd192e819, 0xd6990624, 0xf40e3585, 0x106aa070,
   0x19a4c116, 0x1e376c08, 0x2748774c, 0x34b0bcb5, 0x391c0cb3, 0x4ed8aa4a, 0x5b9cca4f, 0x682e6ff3,
   0x748f82ee, 0x78a5636f, 0x84c87814, 0x8cc70208, 0x90befffa, 0xa4506ceb, 0xbef9a3f7, 0xc67178f2]

/-- Between two bytes the block is never full. -/
structure Sha256Ctx where
  uc_data : Arr 64
  un_data_len : Fin 64
  un_bit_len : UInt32 × UInt32
  un_state : Vector UInt32 8

/-- `pCtx->ucData[n] = b`. -/
def put (uc_data : Arr 64) (n : Nat) (b : UInt8) : Arr 64 :=
  ⟨uc_data.1.set n b, by rw [List.length_set, uc_data.2]⟩

/-! ## The functions -/

/-- The context on memory whose bytes are any. -/
def sha256Init (uc_data : Arr 64) : Sha256Ctx where
  uc_data := uc_data
  un_data_len := 0
  un_bit_len := (0, 0)
  un_state :=
    #v[0x6a09e667, 0xbb67ae85, 0x3c6ef372, 0xa54ff53a, 0x510e527f, 0x9b05688c,
      0x1f83d9ab, 0x5be0cd19]

/-- The word of four bytes. -/
def loadWord (data : Bytes) (j : Nat) : UInt32 :=
  ((data.getD j 0).toUInt32 <<< 24) ||| ((data.getD (j + 1) 0).toUInt32 <<< 16) |||
    ((data.getD (j + 2) 0).toUInt32 <<< 8) ||| (data.getD (j + 3) 0).toUInt32

/-- One turn of the second loop over `m`, which holds what was written so far. -/
def nextWord (m : List UInt32) (i : Nat) : List UInt32 :=
  m ++ [sig1 (m.getD (i - 2) 0) + m.getD (i - 7) 0 + sig0 (m.getD (i - 15) 0) + m.getD (i - 16) 0]

/-- The array `m`. -/
def words (data : Bytes) : List UInt32 :=
  (List.range' 16 48).foldl nextWord ((List.range 16).map fun i => loadWord data (4 * i))

structure Values where
  un_value_a : UInt32
  un_value_b : UInt32
  un_value_c : UInt32
  un_value_d : UInt32
  un_value_e : UInt32
  un_value_f : UInt32
  un_value_g : UInt32
  un_value_h : UInt32

/-- One turn of the third loop. -/
def turn (m : List UInt32) (v : Values) (i : Nat) : Values :=
  let t1 := v.un_value_h + ep1 v.un_value_e + ch v.un_value_e v.un_value_f v.un_value_g +
    k.getD i 0 + m.getD i 0
  let t2 := ep0 v.un_value_a + maj v.un_value_a v.un_value_b v.un_value_c
  { un_value_h := v.un_value_g
    un_value_g := v.un_value_f
    un_value_f := v.un_value_e
    un_value_e := v.un_value_d + t1
    un_value_d := v.un_value_c
    un_value_c := v.un_value_b
    un_value_b := v.un_value_a
    un_value_a := t1 + t2 }

def sha256Transform (ctx : Sha256Ctx) (data : Bytes) : Sha256Ctx :=
  let s := ctx.un_state
  let v :=
    (List.range 64).foldl (turn (words data)) ⟨s[0], s[1], s[2], s[3], s[4], s[5], s[6], s[7]⟩
  { ctx with un_state := #v[s[0] + v.un_value_a, s[1] + v.un_value_b, s[2] + v.un_value_c,
      s[3] + v.un_value_d,
      s[4] + v.un_value_e, s[5] + v.un_value_f, s[6] + v.un_value_g, s[7] + v.un_value_h] }

/-- One turn of `Sha256Update`. -/
def updateByte (ctx : Sha256Ctx) (b : UInt8) : Sha256Ctx :=
  let uc_data := put ctx.uc_data ctx.un_data_len b
  if h : ctx.un_data_len.1 + 1 = 64 then
    { sha256Transform { ctx with uc_data := uc_data } uc_data.1 with
      un_bit_len := dblIntAdd ctx.un_bit_len.1 ctx.un_bit_len.2 512
      un_data_len := 0 }
  else { ctx with uc_data := uc_data, un_data_len := ⟨ctx.un_data_len + 1, by omega⟩ }

/-- `Sha256Update` over the bytes that its length says. -/
def sha256Update (ctx : Sha256Ctx) (data : Bytes) : Sha256Ctx := data.foldl updateByte ctx

/-- The loops that write zeros from a place on, with the number of turns that are left. -/
def fillZeros (uc_data : Arr 64) (i : Nat) : Nat → Arr 64
  | 0 => uc_data
  | left + 1 => fillZeros (put uc_data i 0) (i + 1) left

/-- `memset(pCtx->ucData, 0, 56)`. -/
def clearFront (uc_data : Arr 64) : Arr 64 :=
  ⟨List.replicate 56 0 ++ uc_data.1.drop 56, by simp [uc_data.2]⟩

/-- The end mark and the zeros of `Sha256Final`. -/
def endMark (ctx : Sha256Ctx) : Sha256Ctx :=
  let i := ctx.un_data_len.1
  if i < 56 then { ctx with uc_data := fillZeros (put ctx.uc_data i 0x80) (i + 1) (56 - (i + 1)) }
  else
    let full := fillZeros (put ctx.uc_data i 0x80) (i + 1) (64 - (i + 1))
    let ctx := sha256Transform { ctx with uc_data := full } full.1
    { ctx with uc_data := clearFront ctx.uc_data }

/-- The eight bytes of the bit count. -/
def putBitLen (uc_data : Arr 64) (bit_len : UInt32 × UInt32) : Arr 64 :=
  let uc_data := put uc_data 63 bit_len.1.toUInt8
  let uc_data := put uc_data 62 (bit_len.1 >>> 8).toUInt8
  let uc_data := put uc_data 61 (bit_len.1 >>> 16).toUInt8
  let uc_data := put uc_data 60 (bit_len.1 >>> 24).toUInt8
  let uc_data := put uc_data 59 bit_len.2.toUInt8
  let uc_data := put uc_data 58 (bit_len.2 >>> 8).toUInt8
  let uc_data := put uc_data 57 (bit_len.2 >>> 16).toUInt8
  put uc_data 56 (bit_len.2 >>> 24).toUInt8

/-- `Sha256Final`, with the bytes of each word where its loop puts them. -/
def sha256Final (ctx : Sha256Ctx) : Bytes :=
  let ctx := endMark ctx
  let bit_len := dblIntAdd ctx.un_bit_len.1 ctx.un_bit_len.2 (UInt32.ofNat (ctx.un_data_len.1 * 8))
  let uc_data := putBitLen ctx.uc_data bit_len
  let ctx := sha256Transform { ctx with uc_data := uc_data, un_bit_len := bit_len } uc_data.1
  ctx.un_state.toList.flatMap fun s =>
    (List.range 4).map fun i => ((s >>> UInt32.ofNat (24 - i * 8)) &&& 0xff).toUInt8

/-! ## The compression -/

theorem k_eq : k = fips.constants := by decide +kernel

theorem initial_eq :
    fips.initial = ⟨0x6a09e667, 0xbb67ae85, 0x3c6ef372, 0xa54ff53a, 0x510e527f, 0x9b05688c,
    0x1f83d9ab, 0x5be0cd19⟩ := by
  decide +kernel

theorem load_word (a b c d : UInt8) :
    (a.toUInt32 <<< 24) ||| (b.toUInt32 <<< 16) ||| (c.toUInt32 <<< 8) ||| d.toUInt32 =
      UInt32.ofNat (fips.number [a, b, c, d]) := by
  have hmore (n : Nat) (e : UInt8) : 256 * n + e.toNat = n <<< 8 ||| e.toNat := by
    rw [← Nat.shiftLeft_add_eq_or_of_lt e.toNat_lt, Nat.shiftLeft_eq]
    omega
  have hshort {n i : Nat} (h : n < 2 ^ 8) (hi : i ≤ 24) : n <<< i % 2 ^ 32 = n <<< i := by
    apply Nat.mod_eq_of_lt
    rw [Nat.shiftLeft_eq]
    calc n * 2 ^ i < 2 ^ 8 * 2 ^ i := Nat.mul_lt_mul_of_pos_right h (Nat.two_pow_pos i)
      _ ≤ 2 ^ 8 * 2 ^ 24 := Nat.mul_le_mul_left _ (Nat.pow_le_pow_right (by decide) hi)
  have hnumber : fips.number [a, b, c, d] =
      ((a.toNat <<< 24 ||| b.toNat <<< 16) ||| c.toNat <<< 8) ||| d.toNat := by
    simp only [fips.number, List.foldl_cons, List.foldl_nil, hmore, Nat.shiftLeft_or_distrib,
      ← Nat.shiftLeft_add]
    simp
  apply UInt32.toNat_inj.mp
  rw [UInt32.toNat_ofNat', Nat.mod_eq_of_lt, hnumber]
  · simp only [UInt32.toNat_or, UInt32.toNat_shiftLeft, UInt8.toNat_toUInt32]
    rw [hshort a.toNat_lt (by decide), hshort b.toNat_lt (by decide), hshort c.toNat_lt (by decide)]
    rfl
  · have ha := a.toNat_lt
    have hb := b.toNat_lt
    have hc := c.toNat_lt
    have hd := d.toNat_lt
    simp only [fips.number, List.foldl_cons, List.foldl_nil]
    omega

theorem loadWord_eq {data : Bytes} {t : Nat} (h : 4 * t + 4 ≤ data.length) :
    loadWord data (4 * t) = UInt32.ofNat (fips.number ((data.drop (4 * t)).take 4)) := by
  have hfour : (data.drop (4 * t)).take 4 =
      [data.getD (4 * t) 0, data.getD (4 * t + 1) 0, data.getD (4 * t + 2) 0,
          data.getD (4 * t + 3) 0] := by
    rw [List.drop_eq_getElem_cons (by omega), List.drop_eq_getElem_cons (by omega),
      List.drop_eq_getElem_cons (by omega), List.drop_eq_getElem_cons (by omega),
      List.getD_eq_getElem _ _ (by omega), List.getD_eq_getElem _ _ (by omega),
      List.getD_eq_getElem _ _ (by omega), List.getD_eq_getElem _ _ (by omega)]
    rfl
  rw [hfour, ← load_word]
  rfl

/-- The array holds the schedule, one word more with each turn. -/
theorem words_upto {data : Bytes} (h : data.length = 64) (count : Nat) :
    (List.range' 16 count).foldl nextWord ((List.range 16).map fun i => loadWord data (4 * i)) =
      (List.range (16 + count)).map (fips.schedule data) := by
  induction count with
  | zero =>
    apply List.map_congr_left
    intro i hi
    have hlt : i < 16 := List.mem_range.mp hi
    rw [fips.schedule, if_pos hlt, loadWord_eq (by omega)]
  | succ count ih =>
    have hback (j : Nat) (hj : 0 < j) :
        ((List.range (16 + count)).map (fips.schedule data)).getD (16 + count - j) 0 =
          fips.schedule data (16 + count - j) := by
      rw [List.getD_eq_getElem _ _ (by rw [List.length_map, List.length_range]; omega),
        List.getElem_map, List.getElem_range]
    have hnew : fips.schedule data (16 + count) =
        fips.sigma1 (fips.schedule data (16 + count - 2)) + fips.schedule data (16 + count - 7) +
          fips.sigma0 (fips.schedule data (16 + count - 15)) +
              fips.schedule data (16 + count - 16) := by
      rw [fips.schedule, if_neg (by omega)]
    rw [List.range'_concat, List.foldl_append, ih, List.foldl_cons, List.foldl_nil, nextWord,
      Nat.one_mul, hback 2 (by decide), hback 7 (by decide), hback 15 (by decide),
      hback 16 (by decide), ← Nat.add_assoc, List.range_succ, List.map_append, List.map_singleton,
      hnew]
    rfl

theorem words_getD {data : Bytes} (h : data.length = 64) {t : Nat} (ht : t < 64) :
    (words data).getD t 0 = fips.schedule data t := by
  unfold words
  rw [words_upto h, List.getD_eq_getElem _ _ (by rw [List.length_map, List.length_range]; exact ht),
    List.getElem_map, List.getElem_range]

def Values.hash (v : Values) : fips.Hash :=
  ⟨v.un_value_a, v.un_value_b, v.un_value_c, v.un_value_d, v.un_value_e, v.un_value_f,
    v.un_value_g, v.un_value_h⟩

/-- The words of the state. -/
def hash (s : Vector UInt32 8) : fips.Hash := ⟨s[0], s[1], s[2], s[3], s[4], s[5], s[6], s[7]⟩

theorem turn_hash (m : List UInt32) (v : Values) (i : Nat) :
    (turn m v i).hash = fips.round v.hash (fips.constants.getD i 0) (m.getD i 0) := by
  rw [← k_eq]
  rfl

theorem transform_hash (ctx : Sha256Ctx) {data : Bytes} (h : data.length = 64) :
    hash (sha256Transform ctx data).un_state = fips.compress (hash ctx.un_state) data := by
  have hturns (v : Values) : ((List.range 64).foldl (turn (words data)) v).hash =
      (List.range 64).foldl
          (fun w t => fips.round w (fips.constants.getD t 0) (fips.schedule data t)) v.hash := by
    have hsame : (List.range 64).foldl
        (fun w t => fips.round w (fips.constants.getD t 0) (fips.schedule data t)) v.hash =
        (List.range 64).foldl
            (fun w t => fips.round w (fips.constants.getD t 0) ((words data).getD t 0)) v.hash := by
      apply List.foldl_ext
      intro w t ht
      rw [words_getD h (List.mem_range.mp ht)]
    rw [hsame]
    exact (List.foldl_hom Values.hash fun v i => (turn_hash _ v i).symm).symm
  unfold fips.compress hash
  have hsum :=
    hturns ⟨ctx.un_state[0], ctx.un_state[1], ctx.un_state[2], ctx.un_state[3], ctx.un_state[4],
    ctx.un_state[5], ctx.un_state[6], ctx.un_state[7]⟩
  unfold Values.hash at hsum
  rw [← hsum]
  simp only [sha256Transform, fips.Hash.add, UInt32.add_comm]
  rfl

/-! ## The block and the counter -/

theorem take_put (uc_data : Arr 64) {n : Nat} (hn : n < 64) (b : UInt8) :
    (put uc_data n b).1.take (n + 1) = uc_data.1.take n ++ [b] := by
  have hlt : n < uc_data.1.length := by
    rw [uc_data.2]
    exact hn
  unfold put
  rw [List.take_succ_eq_append_getElem (by rw [List.length_set]; exact hlt), List.getElem_set_self,
    List.take_set_of_le (Nat.le_refl n)]

theorem fillZeros_eq (uc_data : Arr 64) (i left : Nat) (h : i + left ≤ 64) :
    (fillZeros uc_data i left).1.take (i + left) = uc_data.1.take i ++ List.replicate left 0 := by
  induction left generalizing uc_data i with
  | zero => simp [fillZeros]
  | succ left ih =>
    have hgo := ih (put uc_data i 0) (i + 1) (by omega)
    rw [take_put _ (by omega), List.append_assoc, List.singleton_append,
      ← List.replicate_succ] at hgo
    rw [show i + (left + 1) = i + 1 + left by omega]
    exact hgo

/-- The number in the two words of the counter. -/
def bits (bit_len : UInt32 × UInt32) : Nat := bit_len.1.toNat + 2 ^ 32 * bit_len.2.toNat

theorem bits_dblIntAdd (a b c : UInt32) :
    bits (dblIntAdd a b c) % 2 ^ 64 = (bits (a, b) + c.toNat) % 2 ^ 64 := by
  have hroom : (0xffffffff - c : UInt32).toNat = 2 ^ 32 - 1 - c.toNat := by
    rw [UInt32.toNat_sub_of_le _ _ (UInt32.le_iff_toNat_le.mpr (Nat.le_of_lt_succ c.toNat_lt))]
    rfl
  have ha := a.toNat_lt
  have hb := b.toNat_lt
  have hc := c.toNat_lt
  unfold bits dblIntAdd
  dsimp only
  rw [UInt32.toNat_add]
  by_cases hcarry : a > 0xffffffff - c
  · rw [if_pos hcarry, UInt32.toNat_add]
    have hover := UInt32.lt_iff_toNat_lt.mp hcarry
    rw [hroom] at hover
    simp only [UInt32.toNat_one]
    omega
  · rw [if_neg hcarry]
    have hunder := UInt32.not_lt.mp hcarry
    rw [UInt32.le_iff_toNat_le, hroom] at hunder
    omega

/-! ## Updates -/

/-- What the context knows of the bytes so far. -/
structure Holds (ctx : Sha256Ctx) (message : Bytes) : Prop where
  data_len : ctx.un_data_len.1 = message.length % 64
  data : ctx.uc_data.1.take ctx.un_data_len.1 = blocks.rest 64 message
  bit_len : bits ctx.un_bit_len % 2 ^ 64 = 512 * (message.length / 64) % 2 ^ 64
  state : hash ctx.un_state = blocks.through 64 fips.compress fips.initial message

theorem holds_init (uc_data : Arr 64) : Holds (sha256Init uc_data) [] where
  data_len := rfl
  data := rfl
  bit_len := rfl
  state := initial_eq.symm

theorem holds_updateByte {ctx : Sha256Ctx} {message : Bytes} (h : Holds ctx message) (b : UInt8) :
    Holds (updateByte ctx b) (message ++ [b]) := by
  have hlen := h.data_len
  have hput := take_put ctx.uc_data ctx.un_data_len.2 b
  rw [h.data] at hput
  have hsnoc : (blocks.rest 64 message ++ [b]).length = ctx.un_data_len.1 + 1 := by
    rw [List.length_append, blocks.length_rest, List.length_singleton, hlen]
  have hcount : (message ++ [b]).length = message.length + 1 := List.length_append
  unfold updateByte
  by_cases hfull : ctx.un_data_len.1 + 1 = 64
  · rw [dif_pos hfull]
    rw [hfull] at hput hsnoc
    have hall : (put ctx.uc_data ctx.un_data_len b).1 = blocks.rest 64 message ++ [b] :=
      (List.take_of_length_le (Nat.le_of_eq (put ctx.uc_data ctx.un_data_len b).2)).symm.trans hput
    constructor
    · rw [hcount]
      show 0 = _
      omega
    · rw [blocks.rest_append (by decide), blocks.rest_block hsnoc]
      rfl
    · show bits (dblIntAdd _ _ _) % 2 ^ 64 = _
      rw [bits_dblIntAdd, hcount, Nat.add_mod, h.bit_len]
      have hnext : (message.length + 1) / 64 = message.length / 64 + 1 := by omega
      rw [hnext, Nat.mul_add, ← Nat.add_mod]
      rfl
    · rw [blocks.through_append (by decide), blocks.through_block (by decide) hsnoc, ← h.state,
        ← hall]
      exact transform_hash _ (put ctx.uc_data ctx.un_data_len b).2
  · rw [dif_neg hfull]
    have hshort : (blocks.rest 64 message ++ [b]).length < 64 := by
      have hlt := ctx.un_data_len.2
      omega
    constructor
    · rw [hcount]
      show ctx.un_data_len.1 + 1 = _
      omega
    · rw [blocks.rest_append (by decide), blocks.rest_short hshort]
      exact hput
    · have hnext : (message ++ [b]).length / 64 = message.length / 64 := by
        have hlt := ctx.un_data_len.2
        omega
      rw [hnext]
      exact h.bit_len
    · rw [blocks.through_append (by decide), blocks.through_short hshort]
      exact h.state

theorem holds_update {ctx : Sha256Ctx} {message : Bytes} (h : Holds ctx message) (data : Bytes) :
    Holds (sha256Update ctx data) (message ++ data) := by
  induction data generalizing ctx message with
  | nil => rwa [List.append_nil]
  | cons b data ih =>
    have hgo := ih (holds_updateByte h b)
    rwa [List.append_assoc, List.singleton_append] at hgo

theorem holds_updates {ctx : Sha256Ctx} {message : Bytes} (h : Holds ctx message)
    (chunks : List Bytes) :
    Holds (chunks.foldl sha256Update ctx) (message ++ chunks.flatten) := by
  induction chunks generalizing ctx message with
  | nil => rwa [List.flatten_nil, List.append_nil]
  | cons data chunks ih =>
    have hgo := ih (holds_update h data)
    rwa [List.append_assoc, ← List.flatten_cons] at hgo

/-! ## The end -/

theorem bigEndian_mod (count n : Nat) :
    fips.bigEndian count (n % 256 ^ count) = fips.bigEndian count n := by
  induction count generalizing n with
  | zero => rfl
  | succ count ih =>
    have hhigh : n % 256 ^ (count + 1) / 256 = n / 256 % 256 ^ count := by
      rw [Nat.pow_succ, Nat.mod_mul_left_div_self]
    have hlow : UInt8.ofNat (n % 256 ^ (count + 1)) = UInt8.ofNat n := by
      apply UInt8.toNat_inj.mp
      rw [UInt8.toNat_ofNat', UInt8.toNat_ofNat', Nat.pow_succ]
      exact Nat.mod_mod_of_dvd _ (Nat.dvd_mul_left _ _)
    rw [fips.bigEndian, hhigh, ih, hlow]
    rfl

/-- The bytes of the two words are those of their number. -/
theorem bytes_of_bits (low high : UInt32) :
    [(high >>> 24).toUInt8, (high >>> 16).toUInt8, (high >>> 8).toUInt8, high.toUInt8,
      (low >>> 24).toUInt8,
      (low >>> 16).toUInt8, (low >>> 8).toUInt8, low.toUInt8] =
        fips.bigEndian 8 (bits (low, high)) := by
  have hlow := low.toNat_lt
  have hhigh := high.toNat_lt
  have hbyte (w : UInt32) (n : Nat) (h : w.toNat % 256 = n % 256) : w.toUInt8 = UInt8.ofNat n := by
    apply UInt8.toNat_inj.mp
    rw [UInt32.toNat_toUInt8, UInt8.toNat_ofNat']
    exact h
  have hshift (w : UInt32) : (w >>> 8).toNat = w.toNat / 256 ∧ (w >>> 16).toNat = w.toNat / 65536 ∧
      (w >>> 24).toNat = w.toNat / 16777216 :=
    ⟨(UInt32.toNat_shiftRight w 8).trans (Nat.shiftRight_eq_div_pow _ _),
      (UInt32.toNat_shiftRight w 16).trans (Nat.shiftRight_eq_div_pow _ _),
      (UInt32.toNat_shiftRight w 24).trans (Nat.shiftRight_eq_div_pow _ _)⟩
  obtain ⟨hlow8, hlow16, hlow24⟩ := hshift low
  obtain ⟨hhigh8, hhigh16, hhigh24⟩ := hshift high
  unfold bits
  simp only [fips.bigEndian, List.nil_append, List.cons_append, List.cons.injEq, and_true]
  refine ⟨hbyte _ _ ?_, hbyte _ _ ?_, hbyte _ _ ?_, hbyte _ _ ?_, hbyte _ _ ?_,
    hbyte _ _ ?_, hbyte _ _ ?_,
    hbyte _ _ ?_⟩
  all_goals omega

theorem putBitLen_eq (uc_data : Arr 64) (bit_len : UInt32 × UInt32) :
    (putBitLen uc_data bit_len).1 = uc_data.1.take 56 ++ fips.bigEndian 8 (bits bit_len) := by
  obtain ⟨low, high⟩ := bit_len
  have hfront : (uc_data.1.take 56).length = 56 := by
    rw [List.length_take, uc_data.2]
    rfl
  have hback : (uc_data.1.drop 56).length = 8 := by
    rw [List.length_drop, uc_data.2]
  have hall : uc_data.1 = uc_data.1.take 56 ++ uc_data.1.drop 56 :=
    (List.take_append_drop 56 _).symm
  rw [← bytes_of_bits]
  simp only [putBitLen, put]
  rw [hall]
  generalize uc_data.1.take 56 = front at hfront
  generalize uc_data.1.drop 56 = back at hback
  match back, hback with
  | [x0, x1, x2, x3, x4, x5, x6, x7], _ =>
    simp [hfront]

/-- The padded end of a message whose end mark leaves room for the count. -/
theorem padding_short {len : Nat} (h : len % 64 < 56) :
    fips.padding len =
      0x80 :: (List.replicate (56 - (len % 64 + 1)) 0 ++ fips.bigEndian 8 (8 * len)) := by
  have hzeros : fips.zeros len = 56 - (len % 64 + 1) := by
    unfold fips.zeros
    omega
  unfold fips.padding
  rw [hzeros]

/-- Another one goes on over one more block. -/
theorem padding_long {len : Nat} (h : 56 ≤ len % 64) :
    fips.padding len = (0x80 :: List.replicate (64 - (len % 64 + 1)) 0) ++
      (List.replicate 56 0 ++ fips.bigEndian 8 (8 * len)) := by
  have hzeros : fips.zeros len = 64 - (len % 64 + 1) + 56 := by
    have hlt := Nat.mod_lt len (by decide : 0 < 64)
    unfold fips.zeros
    omega
  unfold fips.padding
  rw [hzeros, List.replicate_add, List.cons_append, List.append_assoc]

theorem fillZeros_all (uc_data : Arr 64) {i : Nat} (h : i ≤ 64) :
    (fillZeros uc_data i (64 - i)).1 = uc_data.1.take i ++ List.replicate (64 - i) 0 := by
  have hgo := fillZeros_eq uc_data i (64 - i) (by omega)
  rw [Nat.add_sub_of_le h] at hgo
  exact (List.take_of_length_le (Nat.le_of_eq (fillZeros uc_data i (64 - i)).2)).symm.trans hgo

@[simp] theorem endMark_counters (ctx : Sha256Ctx) :
    (endMark ctx).un_data_len = ctx.un_data_len ∧ (endMark ctx).un_bit_len = ctx.un_bit_len := by
  unfold endMark
  dsimp only
  split <;> exact ⟨rfl, rfl⟩

/-- The last block, with the count behind its first 56 bytes, ends the padded message. -/
theorem endMark_compress {ctx : Sha256Ctx} {message : Bytes} (h : Holds ctx message) :
    fips.compress (hash (endMark ctx).un_state)
        ((endMark ctx).uc_data.1.take 56 ++ fips.bigEndian 8 (8 * message.length)) =
      blocks.through 64 fips.compress fips.initial (message ++ fips.padding message.length) := by
  have hlen := h.data_len
  have hput := take_put ctx.uc_data ctx.un_data_len.2 0x80
  rw [h.data, hlen] at hput
  have hlt := Nat.mod_lt message.length (by decide : 0 < 64)
  have hrest : (blocks.rest 64 message).length = message.length % 64 := blocks.length_rest
  rw [blocks.through_append (by decide), ← h.state]
  unfold endMark
  dsimp only
  rw [hlen]
  by_cases hroom : message.length % 64 < 56
  · have hfill :=
      fillZeros_eq (put ctx.uc_data (message.length % 64) 0x80) (message.length % 64 + 1)
      (56 - (message.length % 64 + 1)) (by omega)
    rw [Nat.add_sub_of_le (by omega), hput] at hfill
    rw [if_pos hroom]
    dsimp only
    rw [hfill, padding_short hroom, List.append_assoc, List.append_assoc, List.singleton_append,
      blocks.through_block (by decide)]
    rw [List.length_append, hrest, List.length_cons, List.length_append, List.length_replicate,
      fips.length_bigEndian]
    omega
  · have hfill :=
      fillZeros_all (put ctx.uc_data (message.length % 64) 0x80)
        (i := message.length % 64 + 1) (by omega)
    rw [hput, List.append_assoc, List.singleton_append] at hfill
    have hblock := (fillZeros (put ctx.uc_data (message.length % 64) 0x80) (message.length % 64 + 1)
      (64 - (message.length % 64 + 1))).2
    rw [if_neg hroom]
    dsimp only
    have hclear (uc_data : Arr 64) : (clearFront uc_data).1.take 56 = List.replicate 56 0 :=
      List.take_left' (List.length_replicate)
    rw [hclear, transform_hash _ hblock, hfill, padding_long (Nat.le_of_not_lt hroom),
      ← List.append_assoc]
    rw [hfill] at hblock
    rw [blocks.through_append (by decide), blocks.through_block (by decide) hblock,
      blocks.rest_block hblock, List.nil_append, blocks.through_block (by decide)]
    rw [List.length_append, List.length_replicate, fips.length_bigEndian]

theorem word_bytes (w : UInt32) :
    (List.range 4).map (fun i => ((w >>> UInt32.ofNat (24 - i * 8)) &&& 0xff).toUInt8) =
      fips.bigEndian 4 w.toNat := by
  have hbyte (x : UInt32) (n : Nat) (h : x.toNat % 256 = n % 256) : (x &&& 0xff).toUInt8 =
      UInt8.ofNat n := by
    apply UInt8.toNat_inj.mp
    have hmask : x.toNat &&& 0xff = x.toNat % 256 := Nat.and_two_pow_sub_one_eq_mod x.toNat 8
    rw [UInt32.toNat_toUInt8, UInt8.toNat_ofNat', UInt32.toNat_and]
    show (x.toNat &&& 0xff) % 256 = n % 256
    rw [hmask, Nat.mod_mod]
    exact h
  have hshift (i : Nat) (hi : i < 32) : (w >>> UInt32.ofNat i).toNat = w.toNat / 2 ^ i := by
    rw [UInt32.toNat_shiftRight, UInt32.toNat_ofNat', Nat.shiftRight_eq_div_pow]
    congr 2
    omega
  have h24 : (w >>> UInt32.ofNat (24 - 0 * 8)).toNat = w.toNat / 16777216 := hshift 24 (by decide)
  have h16 : (w >>> UInt32.ofNat (24 - 1 * 8)).toNat = w.toNat / 65536 := hshift 16 (by decide)
  have h8 : (w >>> UInt32.ofNat (24 - 2 * 8)).toNat = w.toNat / 256 := hshift 8 (by decide)
  have h0 : (w >>> UInt32.ofNat (24 - 3 * 8)).toNat = w.toNat / 1 := hshift 0 (by decide)
  have hrange : List.range 4 = [0, 1, 2, 3] := rfl
  simp only [hrange, List.map_cons, List.map_nil, fips.bigEndian, List.nil_append, List.cons_append,
    List.cons.injEq, and_true]
  refine ⟨hbyte _ _ ?_, hbyte _ _ ?_, hbyte _ _ ?_, hbyte _ _ ?_⟩
  all_goals omega

theorem state_bytes (s : Vector UInt32 8) :
    (s.toList.flatMap fun w => (List.range 4).map fun i =>
      ((w >>> UInt32.ofNat (24 - i * 8)) &&& 0xff).toUInt8) =
      (hash s).bytes := by
  have hlist : s.toList = [s[0], s[1], s[2], s[3], s[4], s[5], s[6], s[7]] := by
    apply List.ext_getElem
    · rw [Vector.length_toList]
      rfl
    · intro i hi hi'
      rw [Vector.length_toList] at hi
      interval_cases i <;> rfl
  simp only [word_bytes, hlist]
  rfl

theorem final_of_holds {ctx : Sha256Ctx} {message : Bytes} (h : Holds ctx message) :
    sha256Final ctx = fips.digest message := by
  obtain ⟨hdata_len, hbit_len⟩ := endMark_counters ctx
  have hcount : bits (dblIntAdd ctx.un_bit_len.1 ctx.un_bit_len.2
      (UInt32.ofNat (ctx.un_data_len.1 * 8))) % 2 ^ 64 =
      8 * message.length % 2 ^ 64 := by
    have hadd : (UInt32.ofNat (ctx.un_data_len.1 * 8)).toNat = ctx.un_data_len.1 * 8 := by
      have hlt := ctx.un_data_len.2
      rw [UInt32.toNat_ofNat']
      omega
    rw [bits_dblIntAdd, hadd, h.data_len, Nat.add_mod, h.bit_len, ← Nat.add_mod]
    omega
  have hbytes :=
    bigEndian_mod 8
      (bits (dblIntAdd ctx.un_bit_len.1 ctx.un_bit_len.2 (UInt32.ofNat (ctx.un_data_len.1 * 8))))
  rw [show 256 ^ 8 = 2 ^ 64 by decide, hcount] at hbytes
  replace hbytes := hbytes.symm.trans (bigEndian_mod 8 (8 * message.length))
  unfold sha256Final
  dsimp only
  rw [state_bytes, transform_hash _ (putBitLen _ _).2, putBitLen_eq, hdata_len, hbit_len, hbytes,
    endMark_compress h]
  rfl

/-- Whatever chunks the bytes come in, the hash is the standard one of all of them. -/
theorem hash_of_chunks_is_the_standard_one (uc_data : Arr 64) (chunks : List Bytes) :
    sha256Final (chunks.foldl sha256Update (sha256Init uc_data)) = fips.digest chunks.flatten :=
  final_of_holds (holds_updates (holds_init uc_data) chunks)

/-- The hash of "abc", in two chunks. -/
example : sha256Final
    (sha256Update (sha256Update (sha256Init ⟨List.replicate 64 7, by decide⟩) [97]) [98, 99]) =
    [0xba, 0x78, 0x16, 0xbf, 0x8f, 0x01, 0xcf, 0xea, 0x41, 0x41, 0x40, 0xde, 0x5d, 0xae, 0x22, 0x23,
      0xb0, 0x03, 0x61, 0xa3, 0x96, 0x17, 0x7a, 0x9c, 0xb4, 0x10, 0xff, 0x61, 0xf2, 0x00,
        0x15, 0xad] := by
  decide +kernel

end util.ao_hash
