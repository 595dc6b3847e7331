-- How `CAoHttp` writes the bytes of a request. `Encode` means to write a byte above 0x7f and
-- the next one as escapes of a UTF-8 text, but the conversion does nothing here and its answer
-- is not looked at, so ten zeros are written for every such pair.
import Mathlib.Data.List.GetD
import Aods.FuelLoop
import Aods.Helper
import Aods.Scanf

open machine fuel_loop
open util.helper (getHexString hexData)

namespace percent

/-- Escapes are the bytes that they name, and all else is itself. -/
def decode : Bytes → Bytes
  | [] => []
  | [b] => [b]
  | [b, c] => [b, c]
  | b :: c :: d :: t =>
    if b = 37 ∧ scanf.isXdigit c = true ∧ scanf.isXdigit d = true then
      ((hexData c <<< 4) + hexData d) :: decode t
    else b :: decode (c :: d :: t)

theorem decode_cons {b : UInt8} (h : b ≠ 37) (t : Bytes) : decode (b :: t) = b :: decode t := by
  cases t with
  | nil => rfl
  | cons c t =>
    cases t with
    | nil => rfl
    | cons d t => rw [decode, if_neg (fun he => h he.1)]

theorem decode_plain {s : Bytes} (h : 37 ∉ s) : decode s = s := by
  induction s with
  | nil => rfl
  | cons b s ih =>
    rw [List.mem_cons, not_or] at h
    rw [decode_cons (Ne.symm h.1), ih h.2]

theorem decode_zeros (k : Nat) (t : Bytes) :
    decode ((List.replicate k [37, 48, 48]).flatten ++ t) = List.replicate k 0 ++ decode t := by
  induction k with
  | zero => rfl
  | succ k ih =>
    have hone (rest : Bytes) : decode (37 :: 48 :: 48 :: rest) = 0 :: decode rest := rfl
    rw [List.replicate_succ, List.flatten_cons, List.append_assoc, List.replicate_succ]
    exact (hone _).trans (congrArg (List.cons 0) ih)

end percent

namespace util.ao_http

def enEncodeGb2312 : Nat := 0
def enEncodeUtf8 : Nat := 2

def u16 (n : Nat) : Nat := n % 65536

/-- `Gb2312CvtUtf8` outside Windows: the text and its length stay as they are. -/
def gb2312CvtUtf8 (_src dest : Bytes) (un_len : Nat) : Bool × Bytes × Nat := (false, dest, un_len)

/-- "%%%02x". -/
def escaped (b : UInt8) : Bytes := 37 :: getHexString [b]

/-- "%c", as the text that is read back from it. -/
def plainChar (b : UInt8) : Bytes := cstr [b]

/-- One turn of the loop of the GB2312 mode at a place. -/
def gb2312Turn (src : Bytes) (us_len n : Nat) : Turn Nat Unit Bytes :=
  if us_len ≤ n then .stop ()
  else
    let c := src.getD n 0
    .next (u16 (n + 1)) (if c > 0x7f then escaped c else plainChar c)

/-- One turn of the loop of the UTF-8 mode at a place. -/
def utf8Turn (src : Bytes) (us_len n : Nat) : Turn Nat Unit Bytes :=
  if us_len ≤ n then .stop ()
  else
    let c := src.getD n 0
    if c > 0x7f then
      let cvt := gb2312CvtUtf8 ((src.drop n).take 2) (List.replicate 10 0) 10
      .next (u16 (u16 (n + 1) + 1)) ((cvt.2.1.take cvt.2.2).flatMap escaped)
    else .next (u16 (n + 1)) (plainChar c)

/-- `Encode`, with fuel for its loop. -/
def encode (uc_encode : Nat) (src : Bytes) (us_len : Nat) (str_result : Bytes) (fuel : Nat) :
    Option Bytes :=
  if uc_encode = enEncodeGb2312 then
    (loop (gb2312Turn src us_len) fuel 0).map (fun r => str_result ++ r.2.flatten)
  else if uc_encode = enEncodeUtf8 then
    (loop (utf8Turn src us_len) fuel 0).map (fun r => str_result ++ r.2.flatten)
  else some str_result

/-! ## Runs of the loop -/

variable {src : Bytes} {us_len : Nat}

/-- What a turn writes: ten zeros for a byte above 0x7f, and else the byte, which a NUL is not. -/
theorem utf8Turn_next {n m : Nat} {o : Bytes} (h : utf8Turn src us_len n = .next m o) :
    n < us_len ∧ (0x7f < src.getD n 0 ∧ o = (List.replicate 10 [37, 48, 48]).flatten ∨
      ¬ 0x7f < src.getD n 0 ∧ m = u16 (n + 1) ∧ o = plainChar (src.getD n 0)) := by
  unfold utf8Turn at h
  split at h
  · cases h
  · rename_i hn
    refine ⟨Nat.lt_of_not_le hn, ?_⟩
    dsimp only at h
    split at h
    · rename_i hhigh
      cases h
      exact Or.inl ⟨hhigh, rfl⟩
    · rename_i hlow
      cases h
      exact Or.inr ⟨hlow, rfl, rfl⟩

theorem plainChar_eq (b : UInt8) : plainChar b = if b = 0 then [] else [b] := by
  unfold plainChar cstr
  by_cases hb : b = 0
  · simp [hb]
  · simp [hb]

theorem utf8Turn_stop {n : Nat} {w : Unit} (h : utf8Turn src us_len n = .stop w) : us_len ≤ n := by
  unfold utf8Turn at h
  split at h
  · assumption
  · dsimp only at h
    split at h <;> cases h

/-- A run gives text that names bytes up to 0x7f only. -/
theorem low_of_loop (hsrc : 37 ∉ src) (hlen : us_len ≤ src.length) {fuel n : Nat}
    {outs : List Bytes} (h : loop (utf8Turn src us_len) fuel n = some ((), outs)) :
    ∀ b ∈ percent.decode outs.flatten, b ≤ 0x7f := by
  refine loop_rule (P := fun _ _ outs => ∀ b ∈ percent.decode outs.flatten, b ≤ 0x7f)
    (fun n w hturn => ?_)
    (fun n m w o rest hturn hlow => ?_) h
  · intro b hb
    cases hb
  · obtain ⟨hn, ⟨_, rfl⟩ | ⟨hc, _, rfl⟩⟩ := utf8Turn_next hturn
    · rw [List.flatten_cons, percent.decode_zeros]
      intro b hb
      rcases List.mem_append.mp hb with hb | hb
      · rw [(List.mem_replicate.mp hb).2]
        decide
      · exact hlow b hb
    · rw [List.flatten_cons, plainChar_eq]
      split
      · exact hlow
      · have hne : src.getD n 0 ≠ 37 := by
          intro he
          apply hsrc
          rw [← he, List.getD_eq_getElem _ _ (Nat.lt_of_lt_of_le hn hlen)]
          exact List.getElem_mem _
        rw [List.singleton_append, percent.decode_cons hne]
        intro b hb
        rcases List.mem_cons.mp hb with rfl | hb
        · exact UInt8.not_lt.mp hc
        · exact hlow b hb

/-- Bytes up to 0x7f are written one by one, but for the NULs. -/
theorem text_of_loop (hlow : ∀ b ∈ src, b ≤ 0x7f) (hlen : us_len ≤ src.length)
    (hshort : us_len < 65536) {fuel n : Nat} {outs : List Bytes}
    (h : loop (utf8Turn src us_len) fuel n = some ((), outs)) :
    outs.flatten = ((src.take us_len).drop n).filter (· ≠ 0) := by
  refine loop_rule (P := fun n _ outs => outs.flatten = ((src.take us_len).drop n).filter (· ≠ 0))
    (fun n w hturn => ?_)
    (fun n m w o rest hturn hrest => ?_) h
  · have hend := utf8Turn_stop hturn
    rw [List.drop_of_length_le (by rw [List.length_take]; omega)]
    rfl
  · obtain ⟨hlt, hcases⟩ := utf8Turn_next hturn
    have hget : src.getD n 0 = src[n] := List.getD_eq_getElem _ _ (Nat.lt_of_lt_of_le hlt hlen)
    obtain ⟨hc, _⟩ | ⟨_, rfl, rfl⟩ := hcases
    · rw [hget] at hc
      exact absurd (hlow _ (List.getElem_mem _)) (UInt8.not_le.mpr hc)
    · have hm : u16 (n + 1) = n + 1 := Nat.mod_eq_of_lt (by omega)
      rw [hm] at hrest
      have hin : n < (src.take us_len).length := by
        rw [List.length_take]
        omega
      rw [List.flatten_cons, hrest, List.drop_eq_getElem_cons hin, List.getElem_take,
        List.filter_cons, plainChar_eq, hget]
      by_cases hz : src[n] = 0
      · simp [hz]
      · simp [hz]

theorem loop_ends (hlow : ∀ b ∈ src, b ≤ 0x7f) (hlen : us_len ≤ src.length)
    (hshort : us_len < 65536) (k n : Nat) (h : n + k = us_len) :
    ∃ outs, loop (utf8Turn src us_len) (k + 1) n = some ((), outs) := by
  induction k generalizing n with
  | zero =>
    have hturn : utf8Turn src us_len n = .stop () := by
      rw [utf8Turn, if_pos (by omega)]
    exact ⟨[], loop_stop hturn 0⟩
  | succ k ih =>
    have hget : src.getD n 0 = src[n] := List.getD_eq_getElem _ _ (by omega)
    have hc : ¬ src.getD n 0 > 0x7f := by
      rw [hget]
      exact UInt8.not_lt.mpr (hlow _ (List.getElem_mem _))
    have hturn : utf8Turn src us_len n = .next (n + 1) (plainChar (src.getD n 0)) := by
      have hm : u16 (n + 1) = n + 1 := Nat.mod_eq_of_lt (by omega)
      unfold utf8Turn
      rw [if_neg (by omega)]
      dsimp only
      rw [if_neg hc, hm]
    obtain ⟨outs, houts⟩ := ih (n + 1) (by omega)
    exact ⟨_, by rw [loop_next hturn, houts]; rfl⟩

theorem plain_of_back (hsrc : 37 ∉ src) {fuel : Nat} {outs : List Bytes}
    (hloop : loop (utf8Turn src (u16 src.length)) fuel 0 = some ((), outs))
    (hback : percent.decode outs.flatten = src) :
    src.length < 65536 ∧ ∀ b ∈ src, b ≠ 0 ∧ b ≤ 0x7f := by
  have hlen : u16 src.length ≤ src.length := Nat.mod_le _ _
  have hshort : u16 src.length < 65536 := Nat.mod_lt _ (by decide)
  have hlow := low_of_loop hsrc hlen hloop
  rw [hback] at hlow
  have htext := text_of_loop hlow hlen hshort hloop
  have hkept : (src.take (u16 src.length)).filter (· ≠ 0) = src := by
    have hnone : 37 ∉ (src.take (u16 src.length)).filter (· ≠ 0) := by
      intro hm
      exact hsrc (List.mem_of_mem_take (List.mem_of_mem_filter hm))
    rwa [htext, List.drop_zero, percent.decode_plain hnone] at hback
  constructor
  · have hle := congrArg List.length hkept
    have hfilter :=
      List.length_filter_le (fun b : UInt8 => decide (b ≠ 0)) (src.take (u16 src.length))
    rw [List.length_take] at hfilter
    omega
  · intro b hb
    refine ⟨?_, hlow b hb⟩
    rw [← hkept] at hb
    simpa using (List.mem_filter.mp hb).2

theorem loop_of_plain (hfew : src.length < 65536) (hgood : ∀ b ∈ src, b ≠ 0 ∧ b ≤ 0x7f) :
    ∃ outs, loop (utf8Turn src (u16 src.length)) (u16 src.length + 1) 0 = some ((), outs) ∧
      outs.flatten = src := by
  have hall : u16 src.length = src.length := Nat.mod_eq_of_lt hfew
  have hlow : ∀ b ∈ src, b ≤ 0x7f := fun b hb => (hgood b hb).2
  have hlen : u16 src.length ≤ src.length := Nat.le_of_eq hall
  have hshort : u16 src.length < 65536 := Nat.mod_lt _ (by decide)
  obtain ⟨outs, houts⟩ := loop_ends hlow hlen hshort (u16 src.length) 0 (Nat.zero_add _)
  have htext := text_of_loop hlow hlen hshort houts
  have hkept : src.filter (· ≠ 0) = src := by
    rw [List.filter_eq_self]
    intro b hb
    simpa using (hgood b hb).1
  rw [List.drop_zero, hall, List.take_length, hkept] at htext
  exact ⟨outs, houts, htext⟩

/-- What `Encode` writes, called with the length of the bytes, names the bytes just when there
are fewer than 65536 of them, all up to 0x7f and none a NUL. -/
theorem encoded_bytes_come_back_just_when_they_are_plain (src : Bytes) (hsrc : 37 ∉ src) :
    (∃ fuel out, encode enEncodeUtf8 src (u16 src.length) [] fuel = some out ∧
      percent.decode out = src) ↔
      src.length < 65536 ∧ ∀ b ∈ src, b ≠ 0 ∧ b ≤ 0x7f := by
  constructor
  · rintro ⟨fuel, out, hout, hback⟩
    obtain ⟨⟨_, outs⟩, hloop, rfl⟩ := Option.map_eq_some_iff.mp hout
    exact plain_of_back hsrc hloop hback
  · rintro ⟨hfew, hgood⟩
    obtain ⟨outs, houts, htext⟩ := loop_of_plain hfew hgood
    refine ⟨u16 src.length + 1, src, ?_, percent.decode_plain hsrc⟩
    have hrun : encode enEncodeUtf8 src (u16 src.length) [] (u16 src.length + 1) =
        some ([] ++ outs.flatten) :=
      Option.map_eq_some_iff.mpr ⟨_, houts, rfl⟩
    rw [hrun, htext, List.nil_append]

/-- The text "/a b". -/
theorem a_plain_name_comes_back :
    ∃ fuel out, encode enEncodeUtf8 [47, 97, 32, 98] (u16 4) [] fuel = some out ∧
      percent.decode out = [47, 97, 32, 98] :=
  (encoded_bytes_come_back_just_when_they_are_plain [47, 97, 32, 98] (by decide)).mpr
    (by decide +kernel)

/-- The pair that GB2312 has for 啊. -/
theorem a_high_pair_is_lost :
    encode enEncodeUtf8 [0xb0, 0xa1] (u16 2) [] 2 = some (List.replicate 10 [37, 48, 48]).flatten ∧
      ¬ ∃ fuel out, encode enEncodeUtf8 [0xb0, 0xa1] (u16 2) [] fuel = some out ∧
        percent.decode out = [0xb0, 0xa1] := by
  refine ⟨by decide, ?_⟩
  rintro ⟨fuel, out, hout, hback⟩
  match fuel with
  | 0 => cases hout
  | 1 => cases hout
  | fuel + 2 =>
    have hrun : encode enEncodeUtf8 [0xb0, 0xa1] (u16 2) [] (fuel + 2) =
        some (List.replicate 10 [37, 48, 48]).flatten := rfl
    rw [hrun] at hout
    cases hout
    revert hback
    decide

end util.ao_http
