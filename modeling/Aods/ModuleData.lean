-- `CModuleData`, the memory of a module's queue, and the records in it: a head of fixed
-- size and behind it as many bytes as the head says. A record is cut off the front of some
-- bytes, so the bytes of a queue are its messages when the cuts leave nothing.
import Mathlib.Algebra.GroupWithZero.Nat
import Aods.Machine
import Aods.Segmentation

open machine segmentation

namespace util.module_data

/-- Memory of a fixed size, of which the first `m_un_len` bytes are data. -/
structure CModuleData where
  m_puc_data : Bytes
  m_un_len : Nat
  len_le : m_un_len ≤ m_puc_data.length
  capacity_lt : m_puc_data.length < 4294967296

namespace CModuleData

def capacity (d : CModuleData) : Nat := d.m_puc_data.length

def data (d : CModuleData) : Bytes := d.m_puc_data.take d.m_un_len

/-- `AppendData`. The sum of the lengths wraps; a copy past the end is a fault. -/
def appendData (d : CModuleData) (puc_data : Bytes) : Except Fault (Bool × CModuleData) :=
  if u32 (puc_data.length + d.m_un_len) > d.capacity then .ok (false, d)
  else if h : puc_data.length + d.m_un_len > d.capacity then .error .overrun
  else .ok (true, {
    m_puc_data := d.m_puc_data.take d.m_un_len ++ puc_data ++
      d.m_puc_data.drop (d.m_un_len + puc_data.length)
    m_un_len := d.m_un_len + puc_data.length
    len_le := by
      simp only [List.length_append, List.length_take, List.length_drop, capacity] at h ⊢
      omega
    capacity_lt := by
      have := d.capacity_lt
      have := d.len_le
      simp only [List.length_append, List.length_take, List.length_drop, capacity] at h ⊢
      omega })

def reset (d : CModuleData) : CModuleData := { d with m_un_len := 0, len_le := Nat.zero_le _ }

theorem appendData_cases {d d' : CModuleData} {b : Bytes} {ok : Bool}
    (h : d.appendData b = .ok (ok, d')) :
    (ok = false ∧ d' = d ∧ d.capacity < d.m_un_len + b.length) ∨
      (ok = true ∧ d'.data = d.data ++ b ∧ d'.m_un_len = d.m_un_len + b.length ∧
        d'.capacity = d.capacity ∧ d.m_un_len + b.length ≤ d.capacity) := by
  have hle := d.len_le
  unfold appendData at h
  split at h
  · rename_i hfull
    cases h
    left
    refine ⟨rfl, rfl, ?_⟩
    have hwrap : u32 ((b.length : Int) + d.m_un_len) ≤ b.length + d.m_un_len := by
      unfold u32
      omega
    omega
  · split at h
    · cases h
    · rename_i hroom
      simp only [Except.ok.injEq, Prod.mk.injEq] at h
      obtain ⟨rfl, rfl⟩ := h
      right
      have htake : (d.m_puc_data.take d.m_un_len ++ b).length = d.m_un_len + b.length := by
        rw [List.length_append, List.length_take]
        omega
      refine ⟨rfl, ?_, rfl, ?_, by omega⟩
      · unfold data
        dsimp only
        rw [← htake, List.take_left]
      · unfold capacity at hroom ⊢
        simp only [List.length_append, List.length_take, List.length_drop]
        omega

theorem appendData_full {d : CModuleData} {b : Bytes} (h : d.capacity < d.m_un_len + b.length)
    (hsum : d.m_un_len + b.length < 4294967296) : d.appendData b = .ok (false, d) := by
  have hwrap : u32 ((b.length : Int) + d.m_un_len) = b.length + d.m_un_len :=
    u32_of_lt (n := b.length + d.m_un_len) (by omega)
  unfold appendData
  rw [if_pos (by omega)]

theorem appendData_room {d : CModuleData} {b : Bytes} (h : d.m_un_len + b.length ≤ d.capacity) :
    ∃ d', d.appendData b = .ok (true, d') ∧ d'.data = d.data ++ b ∧
      d'.m_un_len = d.m_un_len + b.length ∧ d'.capacity = d.capacity := by
  have hcap := d.capacity_lt
  have hwrap : u32 ((b.length : Int) + d.m_un_len) = b.length + d.m_un_len := by
    unfold capacity at h
    exact u32_of_lt (n := b.length + d.m_un_len) (by omega)
  have hs : ∃ d', d.appendData b = .ok (true, d') := by
    unfold appendData
    rw [if_neg (by omega), dif_neg (by omega)]
    exact ⟨_, rfl⟩
  obtain ⟨d', hs⟩ := hs
  rcases appendData_cases hs with ⟨hfalse, _⟩ | ⟨_, hdata, hlen, hcap', _⟩
  · cases hfalse
  · exact ⟨d', hs, hdata, hlen, hcap'⟩

@[simp] theorem length_data (d : CModuleData) : d.data.length = d.m_un_len := by
  unfold data
  rw [List.length_take]
  exact Nat.min_eq_left d.len_le

@[simp] theorem data_reset (d : CModuleData) : d.reset.data = [] := rfl

/-- The data are the front of the memory from any place in them. -/
theorem drop_data {d : CModuleData} {n : Nat} (h : n ≤ d.m_un_len) :
    d.m_puc_data.drop n = d.data.drop n ++ d.m_puc_data.drop d.m_un_len := by
  unfold data
  rw [← List.drop_append_of_le_length (by rw [List.length_take]; have := d.len_le; omega),
    List.take_append_drop]

end CModuleData

/-! ## Records -/

/-- `MT_MSG_HEAD`. The pointers are addresses. -/
structure MtMsgHead where
  un_smi : UInt32
  un_msg_code : UInt32
  un_data_len : UInt32
  p_recver : UInt64
  p_sender : UInt64
  deriving DecidableEq, Repr

/-- The head in a 64-bit build: four bytes that nobody sets lie before the pointers. -/
def enMtMsgHeadSize : Nat := 32

/-- The eight bytes of a pointer, the low byte first. -/
def le64 (n : Nat) : Bytes := le32 (n % 4294967296 : Nat) ++ le32 (n / 4294967296 : Nat)

def MtMsgHead.bytes (h : MtMsgHead) (unset : Arr 4) : Bytes :=
  le32 h.un_smi.toNat ++ le32 h.un_msg_code.toNat ++ le32 h.un_data_len.toNat ++ unset.1 ++
    le64 h.p_recver.toNat ++ le64 h.p_sender.toNat

/-- The head that lies over bytes. -/
def MtMsgHead.over (b : Bytes) : MtMsgHead where
  un_smi := UInt32.ofNat (word (b.take 4))
  un_msg_code := UInt32.ofNat (word ((b.drop 4).take 4))
  un_data_len := UInt32.ofNat (word ((b.drop 8).take 4))
  p_recver := UInt64.ofNat (word ((b.drop 16).take 8))
  p_sender := UInt64.ofNat (word ((b.drop 24).take 8))

/-- `MT_MSG`, a message with its data. The head says how long they are. -/
structure MtMsg where
  un_smi : UInt32
  un_msg_code : UInt32
  p_recver : UInt64
  p_sender : UInt64
  uc_data : Bytes
  deriving DecidableEq, Repr

/-- A message of a head and its data. -/
def msgOf (h : MtMsgHead) (uc_data : Bytes) : MtMsg :=
  ⟨h.un_smi, h.un_msg_code, h.p_recver, h.p_sender, uc_data⟩

/-- The first record of some bytes, and what lies behind it. -/
def nextMsg (b : Bytes) : Option (MtMsg × Bytes) :=
  let len := (MtMsgHead.over b).un_data_len.toNat
  if b.length < enMtMsgHeadSize + len then none
  else some (msgOf (.over b) ((b.drop enMtMsgHeadSize).take len), b.drop (enMtMsgHeadSize + len))

/-! ## Heads -/

theorem word_append (a b : Bytes) : word (a ++ b) = word a + 256 ^ a.length * word b := by
  induction a with
  | nil => simp [word]
  | cons x a ih =>
    simp only [List.cons_append, word, ih, List.length_cons, Nat.pow_succ]
    rw [Nat.mul_add, ← Nat.add_assoc, Nat.mul_comm (256 ^ a.length) 256, Nat.mul_assoc]

theorem word_le64 {n : Nat} (h : n < 18446744073709551616) : word (le64 n) = n := by
  have hlow : n % 4294967296 < 4294967296 := Nat.mod_lt n (by decide)
  have hhigh : n / 4294967296 < 4294967296 := by omega
  rw [le64, word_append, word_le32, word_le32, u32_of_lt hlow, u32_of_lt hhigh]
  simp only [length_le32]
  omega

@[simp] theorem length_le64 (n : Nat) : (le64 n).length = 8 := rfl

@[simp] theorem MtMsgHead.length_bytes (h : MtMsgHead) (unset : Arr 4) :
    (h.bytes unset).length = enMtMsgHeadSize := by
  simp [MtMsgHead.bytes, unset.2, enMtMsgHeadSize]

theorem ofNat_word_le32 (n : UInt32) : UInt32.ofNat (word (le32 n.toNat)) = n := by
  have hlt : n.toNat < 4294967296 := n.toNat_lt
  rw [word_le32, u32_of_lt hlt, UInt32.ofNat_toNat]

theorem ofNat_word_le64 (n : UInt64) : UInt64.ofNat (word (le64 n.toNat)) = n := by
  rw [word_le64 n.toNat_lt, UInt64.ofNat_toNat]

theorem MtMsgHead.over_bytes (h : MtMsgHead) (unset : Arr 4) (t : Bytes) :
    .over (h.bytes unset ++ t) = h := by
  obtain ⟨smi, code, len, recver, sender⟩ := h
  obtain ⟨unset, hunset⟩ := unset
  obtain ⟨a, b, c, d, rfl⟩ : ∃ a b c d, unset = [a, b, c, d] := by
    match unset, hunset with
    | [a, b, c, d], _ => exact ⟨a, b, c, d, rfl⟩
  have h1 : (MtMsgHead.bytes ⟨smi, code, len, recver, sender⟩ ⟨[a, b, c, d], hunset⟩ ++ t).take 4 =
      le32 smi.toNat := rfl
  have h2 :
      ((MtMsgHead.bytes ⟨smi, code, len, recver, sender⟩ ⟨[a, b, c, d], hunset⟩ ++ t).drop 4).take
        4 =
      le32 code.toNat := rfl
  have h3 :
      ((MtMsgHead.bytes ⟨smi, code, len, recver, sender⟩ ⟨[a, b, c, d], hunset⟩ ++ t).drop 8).take
        4 =
      le32 len.toNat := rfl
  have h4 :
      ((MtMsgHead.bytes ⟨smi, code, len, recver, sender⟩ ⟨[a, b, c, d], hunset⟩ ++ t).drop 16).take
        8 =
      le64 recver.toNat := rfl
  have h5 :
      ((MtMsgHead.bytes ⟨smi, code, len, recver, sender⟩ ⟨[a, b, c, d], hunset⟩ ++ t).drop 24).take
        8 =
      le64 sender.toNat := rfl
  simp only [MtMsgHead.over, h1, h2, h3, h4, h5, ofNat_word_le32, ofNat_word_le64]

/-! ## Cutting records off -/

theorem MtMsgHead.over_append {b : Bytes} (h : enMtMsgHeadSize ≤ b.length) (t : Bytes) :
    MtMsgHead.over (b ++ t) = .over b := by
  have hfield : ∀ n k, n + k ≤ 32 → ((b ++ t).drop n).take k = (b.drop n).take k := by
    intro n k hnk
    simp only [enMtMsgHeadSize] at h
    rw [List.drop_append_of_le_length (by omega), List.take_append_of_le_length (by simp; omega)]
  have h0 := hfield 0 4 (by decide)
  rw [List.drop_zero, List.drop_zero] at h0
  simp only [MtMsgHead.over, h0, hfield 4 4 (by decide), hfield 8 4 (by decide),
    hfield 16 8 (by decide), hfield 24 8 (by decide)]

theorem nextMsg_some {b r : Bytes} {m : MtMsg} (h : nextMsg b = some (m, r)) :
    enMtMsgHeadSize + (MtMsgHead.over b).un_data_len.toNat ≤ b.length ∧
      m = msgOf (.over b) ((b.drop enMtMsgHeadSize).take (MtMsgHead.over b).un_data_len.toNat) ∧
      r = b.drop (enMtMsgHeadSize + (MtMsgHead.over b).un_data_len.toNat) := by
  unfold nextMsg at h
  dsimp only at h
  split at h
  · cases h
  · rename_i hlen
    cases h
    exact ⟨by omega, rfl, rfl⟩

/-- The records of a queue as a decoder. -/
def records : Decoder UInt8 MtMsg where
  next := nextMsg
  shorter h := by
    obtain ⟨hlen, _, rfl⟩ := nextMsg_some h
    rw [List.length_drop]
    simp only [enMtMsgHeadSize] at hlen ⊢
    omega
  stable t h := by
    obtain ⟨hlen, rfl, rfl⟩ := nextMsg_some h
    have hover := MtMsgHead.over_append (Nat.le_of_add_right_le hlen) t
    unfold nextMsg
    dsimp only
    rw [hover, if_neg (by rw [List.length_append]; omega),
      List.drop_append_of_le_length (by omega), List.drop_append_of_le_length (by omega),
      List.take_append_of_le_length (by rw [List.length_drop]; omega)]

/-- The messages of some bytes, where they are whole records one after another. -/
def parse (b : Bytes) : Option (List MtMsg) :=
  if (records.drain b).2 = [] then some (records.drain b).1 else none

theorem parse_nil : parse [] = some [] := by
  have hnone : records.next [] = none := rfl
  simp [parse, drain_none records hnone]

theorem nextMsg_record {h : MtMsgHead} (unset : Arr 4) {uc_data : Bytes}
    (hlen : uc_data.length = h.un_data_len.toNat) (t : Bytes) :
    records.next (h.bytes unset ++ (uc_data ++ t)) = some (msgOf h uc_data, t) := by
  have hover := MtMsgHead.over_bytes h unset (uc_data ++ t)
  have hsize := MtMsgHead.length_bytes h unset
  have hdrop : (h.bytes unset ++ (uc_data ++ t)).drop enMtMsgHeadSize = uc_data ++ t := by
    rw [← hsize]
    exact List.drop_left ..
  have htake : (uc_data ++ t).take h.un_data_len.toNat = uc_data := by
    rw [← hlen]
    exact List.take_left ..
  have hrest : (uc_data ++ t).drop h.un_data_len.toNat = t := by
    rw [← hlen]
    exact List.drop_left ..
  unfold records nextMsg
  dsimp only
  rw [hover, if_neg, hdrop, htake, ← List.drop_drop, hdrop, hrest]
  simp only [List.length_append, hsize, hlen]
  omega

theorem parse_append {b : Bytes} {ms : List MtMsg} (h : parse b = some ms) (t : Bytes) :
    parse (b ++ t) = (parse t).map (ms ++ ·) := by
  unfold parse at h ⊢
  split at h
  · rename_i hrest
    cases h
    rw [drain_append, hrest, List.nil_append]
    split
    · rfl
    · rfl
  · cases h

theorem parse_record {h : MtMsgHead} (unset : Arr 4) {uc_data : Bytes}
    (hlen : uc_data.length = h.un_data_len.toNat) :
    parse (h.bytes unset ++ uc_data) = some [msgOf h uc_data] := by
  have hnext := nextMsg_record unset hlen []
  rw [List.append_nil] at hnext
  have hnone : records.next [] = none := rfl
  unfold parse
  rw [drain_some records hnext, drain_none records hnone, if_pos rfl]

/-- The first message of whole records is the first record, and the others are the rest. -/
theorem parse_cons {b : Bytes} {ms : List MtMsg} (h : parse b = some ms) (hb : b ≠ []) :
    ∃ m r ms', nextMsg b = some (m, r) ∧ ms = m :: ms' ∧ parse r = some ms' := by
  unfold parse at h
  split at h
  · rename_i hrest
    cases h
    cases hnext : records.next b with
    | none =>
      rw [drain_none records hnext] at hrest
      exact absurd hrest hb
    | some p =>
      obtain ⟨m, r⟩ := p
      rw [drain_some records hnext] at hrest ⊢
      exact ⟨m, r, _, hnext, rfl, if_pos hrest⟩
  · cases h

theorem parse_half {h : MtMsgHead} (unset : Arr 4) {uc_data : Bytes}
    (hlen : uc_data.length < h.un_data_len.toNat) : parse (h.bytes unset ++ uc_data) = none := by
  have hover := MtMsgHead.over_bytes h unset uc_data
  have hsize := MtMsgHead.length_bytes h unset
  have hnone : records.next (h.bytes unset ++ uc_data) = none := by
    unfold records nextMsg
    dsimp only
    rw [hover, if_pos]
    simp only [List.length_append, hsize]
    omega
  unfold parse
  rw [drain_none records hnone, if_neg]
  intro hnil
  have := congrArg List.length hnil
  simp [hsize, enMtMsgHeadSize] at this

end util.module_data
