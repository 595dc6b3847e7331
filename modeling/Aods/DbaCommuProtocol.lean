-- `CDBACommuProtocol`, the second protocol of a channel: its frames have a head of 13 bytes with a
-- length of 32 bits, and the sum of both wraps. The law says on which contents of the decode buffer
-- the frames stay inside of it and the receive loop ends.
import Mathlib.Algebra.GroupWithZero.Nat
import Aods.RoundTrip

open flat_memory fuel_loop segmentation machine
open util.mem_cache util.commu_protocol util.commu_protocol.CAoCommuProtocol
open util.sock_channel (Stop Readed Normal normal_map)

namespace util.dba_commu_protocol

def enMsgHeadSize : Nat := 13

/-- `unLen` of the `MSG_HEAD` at the front of a block. Its fields lie without gaps. -/
def unLen (m : Mem UInt8) : Nat := word (read m 4 4)

/-- `GetContent`: the data begin where the buffer does, and `unDataLen` is their length. No length
stands for `NULL`. -/
def getContent (p : CAoCommuProtocol) : Except Fault (Option Nat) :=
  if p.decode_amc.cache_off < enMsgHeadSize then .ok none
  else
    match p.decode_amc.cache with
    | none => .error .null_pointer
    | some m =>
      if u32 (unLen m + enMsgHeadSize) > p.decode_amc.cache_off then .ok none
      else .ok (some (u32 (unLen m + enMsgHeadSize)))

def moveNext (p : CAoCommuProtocol) : Except Fault CAoCommuProtocol :=
  match p.decode_amc.cache with
  | none => .error .null_pointer
  | some m => .ok { p with decode_amc := p.decode_amc.remove 0 (u32 (unLen m + enMsgHeadSize)) }

/-- The bytes that `OnRecvedData` is handed. -/
def dataOf (p : CAoCommuProtocol) (un_data_len : Nat) : Bytes :=
  match p.decode_amc.cache with
  | none => []
  | some m => read m 0 un_data_len

/-- One turn of the loop of `ReadData` on a channel of this protocol. `GetContent` leaves the buffer
as it is and `nIsErr` at zero. -/
def turn (p : CAoCommuProtocol) : Turn CAoCommuProtocol Stop Bytes :=
  match getContent p with
  | .error f => .stop (.error f)
  | .ok none => .stop (.ok (p, 0))
  | .ok (some un_data_len) =>
    match moveNext p with
    | .error f => .stop (.error f)
    | .ok p' => .next p' (dataOf p un_data_len)

/-- `ReadData` on such a channel. -/
def readData (fuel : Nat) (got : Option (Mem UInt8)) (recv : Except Int Bytes)
    (p : CAoCommuProtocol) : Option (Except Fault Readed) :=
  match recv with
  | .error n => some (.ok ⟨n, p, [], 0⟩)
  | .ok bs =>
    if bs.length < 1 then some (.ok ⟨bs.length, p, [], 0⟩)
    else
      let r := p.appendDecodeData got bs
      if r.1 = false then some (.ok ⟨0, r.2, [], 0⟩)
      else (loop turn fuel r.2).map
        (fun q => q.1.map (fun s => ⟨bs.length, s.1, q.2, s.2⟩))

/-! ## What is asked of it -/

/-- What `GetContent` hands out lies in the buffer, with the length that the head says, and
`MoveNext` removes just that. -/
def InBounds (p : CAoCommuProtocol) : Prop :=
  ∀ m un_data_len, p.decode_amc.cache = some m → getContent p = .ok (some un_data_len) →
    unLen m + enMsgHeadSize ≤ p.decode_amc.cache_off ∧ un_data_len = unLen m + enMsgHeadSize ∧
      ∃ p', moveNext p = .ok p' ∧
        p'.decode_amc.cache_off + (unLen m + enMsgHeadSize) = p.decode_amc.cache_off

/-- The loop of `ReadData` begins with a state. -/
def BeginsWith (got : Option (Mem UInt8)) (recv : Except Int Bytes) (p q : CAoCommuProtocol) :
    Prop :=
  ∃ bs, recv = .ok bs ∧ bs ≠ [] ∧ p.appendDecodeData got bs = (true, q)

/-- `ReadData` comes back. -/
def ReadsToEnd (got : Option (Mem UInt8)) (recv : Except Int Bytes) (p : CAoCommuProtocol) : Prop :=
  ∃ fuel r, readData fuel got recv p = some (.ok r)

/-! ## Frames of bytes -/

/-- The length that the head at the front of some bytes says. -/
def lenOf (s : Bytes) : Nat := word ((s.drop 4).take 4)

/-- The length does not wrap, if there is a head. -/
def NoWrap (s : Bytes) : Prop := 13 ≤ s.length → lenOf s + 13 < 4294967296

instance (s : Bytes) : Decidable (NoWrap s) := inferInstanceAs (Decidable (_ → _))

theorem lenOf_append {s : Bytes} (h : 8 ≤ s.length) (t : Bytes) : lenOf (s ++ t) = lenOf s := by
  unfold lenOf
  rw [List.drop_append_of_le_length (by omega),
    List.take_append_of_le_length (by rw [List.length_drop]; omega)]

/-- The decoder that takes one frame off the front, if it is there as a whole. -/
def dbaDecoder : Decoder UInt8 Bytes where
  next :=
    fun s => if 13 ≤ s.length ∧ lenOf s + 13 ≤ s.length then some (s.take (lenOf s + 13),
      s.drop (lenOf s + 13)) else none
  shorter := by
    intro s x r h
    split at h
    · cases h
      rw [List.length_drop]
      omega
    · cases h
  stable := by
    intro s x r t h
    split at h
    · rename_i hwhole
      cases h
      rw [lenOf_append (by omega), if_pos (by rw [List.length_append]; omega),
        List.take_append_of_le_length (by omega), List.drop_append_of_le_length (by omega)]
    · cases h

theorem dbaDecoder_next (s : Bytes) : dbaDecoder.next s =
    if 13 ≤ s.length ∧ lenOf s + 13 ≤ s.length then
      some (s.take (lenOf s + 13), s.drop (lenOf s + 13)) else none := rfl

/-- The decode buffer holds some bytes, as many as it can count. -/
structure Holds (p : CAoCommuProtocol) (s : Bytes) : Prop where
  block : p.decode_amc.cache.isSome
  content : p.decode_amc.content = s
  small : p.decode_amc.cache_off < 4294967296

variable {p p' q : CAoCommuProtocol} {s r : Bytes} {b : Bytes}

/-! ## One turn -/

theorem Holds.read (h : Holds p s) :
    ∃ m, p.decode_amc.cache = some m ∧ flat_memory.read m 0 s.length = s ∧
    p.decode_amc.cache_off = s.length := by
  obtain ⟨m, hm⟩ := Option.isSome_iff_exists.mp h.block
  have hread : flat_memory.read m 0 p.decode_amc.cache_off = s := by
    rw [← CAoMemCache.content_some hm, h.content]
  have hoff : p.decode_amc.cache_off = s.length := by rw [← hread, length_read]
  exact ⟨m, hm, by rw [← hoff]; exact hread, hoff⟩

theorem unLen_eq {m : Mem UInt8} (h : read m 0 s.length = s) (hs : 13 ≤ s.length) :
    unLen m = lenOf s := by
  have hslice : read m 4 4 = (s.drop 4).take 4 :=
    read_of_le (read_drop h (show 4 ≤ s.length by omega)) (by omega)
  rw [unLen, hslice, lenOf]

theorem word_lt (bs : Bytes) : word bs < 256 ^ bs.length := by
  induction bs with
  | nil => decide
  | cons b bs ih =>
    have hb := b.toNat_lt
    rw [word, List.length_cons, Nat.pow_succ]
    omega

theorem lenOf_lt (s : Bytes) : lenOf s < 4294967296 := by
  have hlen : ((s.drop 4).take 4).length ≤ 4 := List.length_take_le ..
  have hle : 256 ^ ((s.drop 4).take 4).length ≤ 256 ^ 4 := Nat.pow_le_pow_right (by decide) hlen
  exact Nat.lt_of_lt_of_le (word_lt _) hle

/-- The length of the head and the head, in 32 bits. -/
def sumOf (s : Bytes) : Nat := u32 ((lenOf s : Int) + 13)

theorem sumOf_eq (s : Bytes) :
    sumOf s = if lenOf s + 13 < 4294967296 then lenOf s + 13 else lenOf s + 13 - 4294967296 := by
  have hlt := lenOf_lt s
  unfold sumOf u32
  split
  · omega
  · omega

/-- What `GetContent` gives, from the bytes alone. -/
theorem getContent_eq (h : Holds p s) :
    getContent p = .ok (if s.length < 13 ∨ sumOf s > s.length then none else some (sumOf s)) := by
  obtain ⟨m, hm, hread, hoff⟩ := h.read
  have hhead : enMsgHeadSize = 13 := rfl
  unfold getContent
  rw [hoff, hm, hhead]
  by_cases hshort : s.length < 13
  · rw [if_pos hshort, if_pos (Or.inl hshort)]
  · dsimp only
    have hsum : u32 ((unLen m : Int) + (13 : Nat)) = sumOf s := by
      rw [unLen_eq hread (by omega)]
      rfl
    rw [if_neg hshort, hsum]
    by_cases hlong : sumOf s > s.length
    · rw [if_pos hlong, if_pos (Or.inr hlong)]
    · rw [if_neg hlong, if_neg (not_or.mpr ⟨hshort, hlong⟩)]

theorem moveNext_eq (h : Holds p s) (hs : 13 ≤ s.length) :
    moveNext p = .ok { p with decode_amc := p.decode_amc.remove 0 (sumOf s) } := by
  obtain ⟨m, hm, hread, _⟩ := h.read
  unfold moveNext sumOf
  rw [hm, ← unLen_eq hread hs]
  rfl

theorem holds_remove (h : Holds p s) {n : Nat} (hn : n ≤ s.length) :
    Holds { p with decode_amc := p.decode_amc.remove 0 n } (s.drop n) := by
  obtain ⟨m, hm, hread, hoff⟩ := h.read
  refine ⟨CAoMemCache.block_remove h.block 0 n, ?_, ?_⟩
  · rw [← h.content]
    exact CAoMemCache.content_remove h.block (by omega)
  · exact Nat.lt_of_le_of_lt (CAoMemCache.remove_le p.decode_amc 0 n) h.small

/-- A turn over a content that `GetContent` takes removes as much as it handed out. -/
theorem turn_next (h : Holds p s) (hs : 13 ≤ s.length) (hlen : sumOf s ≤ s.length) :
    ∃ p', turn p = .next p' (s.take (sumOf s)) ∧ Holds p' (s.drop (sumOf s)) := by
  obtain ⟨m, hm, hread, _⟩ := h.read
  refine ⟨_, ?_, holds_remove h hlen⟩
  unfold turn
  rw [getContent_eq h, if_neg (by omega)]
  dsimp only
  rw [moveNext_eq h hs]
  dsimp only [dataOf]
  rw [hm]
  dsimp only
  rw [read_of_le hread hlen]

theorem turn_stop (h : Holds p s) (hnot : s.length < 13 ∨ sumOf s > s.length) :
    turn p = .stop (.ok (p, 0)) := by
  unfold turn
  rw [getContent_eq h, if_pos hnot]

theorem inBounds_iff (h : Holds p s) : InBounds p ↔ NoWrap s := by
  obtain ⟨m, hm, hread, hoff⟩ := h.read
  have hhead : enMsgHeadSize = 13 := rfl
  have hlt := lenOf_lt s
  have hsum := sumOf_eq s
  unfold InBounds NoWrap
  rw [getContent_eq h, hhead]
  constructor
  · intro hin hs
    by_contra hwrap
    rw [if_neg hwrap] at hsum
    obtain ⟨hle, _⟩ := hin m _ hm (by rw [if_neg (by omega)])
    have hsmall := h.small
    rw [unLen_eq hread hs] at hle
    omega
  · intro hwrap m' n hm' hn
    rw [hm] at hm'
    cases hm'
    split at hn
    · cases hn
    · rename_i hwhole
      cases hn
      have hs : 13 ≤ s.length := by omega
      rw [if_pos (hwrap hs)] at hsum
      rw [unLen_eq hread hs, hoff, ← hsum]
      refine ⟨by omega, rfl, _, moveNext_eq h hs, ?_⟩
      obtain ⟨_, _, _, hoff'⟩ := (holds_remove h (show sumOf s ≤ s.length by omega)).read
      rw [hoff', List.length_drop]
      omega

/-! ## The loop -/

/-- The loop keeps in bounds and ends just when no length wraps behind the frames that are there as
a whole. -/
theorem loop_inBounds_iff (h : Holds p s) :
    ((∀ t, Visits turn p t → InBounds t) ∧ EndsIn turn Normal p) ↔
      NoWrap (dbaDecoder.drain s).2 := by
  induction hn : s.length using Nat.strongRecOn generalizing p s with
  | ind n ih =>
    subst hn
    have hin := inBounds_iff h
    have hsum := sumOf_eq s
    by_cases hwhole : 13 ≤ s.length ∧ lenOf s + 13 ≤ s.length
    · obtain ⟨_, _, _, hoff⟩ := h.read
      have hsmall := h.small
      have hwrap : NoWrap s := fun _ => by omega
      rw [if_pos (by omega)] at hsum
      have hnext := dbaDecoder_next s
      rw [if_pos hwhole] at hnext
      obtain ⟨p', hturn, hp'⟩ := turn_next h hwhole.1 (by omega)
      rw [hsum] at hturn hp'
      rw [endsIn_next hturn, drain_some dbaDecoder hnext, ← ih _ (dbaDecoder.shorter hnext) hp' rfl]
      simp only [visits_of_next hturn, or_imp, forall_and, forall_eq]
      rw [and_assoc, and_iff_right (hin.mpr hwrap)]
    · have hnext := dbaDecoder_next s
      rw [if_neg hwhole] at hnext
      rw [drain_none dbaDecoder hnext]
      constructor
      · rintro ⟨hall, _⟩
        exact hin.mp (hall p (Visits.refl p))
      · intro hwrap
        have hstop : turn p = .stop (.ok (p, 0)) := by
          apply turn_stop h
          by_cases hs : 13 ≤ s.length
          · rw [if_pos (hwrap hs)] at hsum
            omega
          · exact Or.inl (by omega)
        rw [endsIn_stop hstop]
        simp only [visits_of_stop hstop, forall_eq]
        exact ⟨hin.mpr hwrap, _, rfl⟩

/-- The head at the front has a length that wraps to no byte at all. -/
def Stalled (p : CAoCommuProtocol) : Prop :=
  ∃ m, p.decode_amc.cache = some m ∧ enMsgHeadSize ≤ p.decode_amc.cache_off ∧
    unLen m + enMsgHeadSize = 4294967296

theorem next_of_turn (h : turn p = .next p' b) : ∃ m, p.decode_amc.cache = some m ∧
    enMsgHeadSize ≤ p.decode_amc.cache_off ∧
    p' = { p with decode_amc := p.decode_amc.remove 0 (u32 (unLen m + enMsgHeadSize)) } := by
  unfold turn getContent at h
  by_cases hshort : p.decode_amc.cache_off < enMsgHeadSize
  · rw [if_pos hshort] at h
    cases h
  · rw [if_neg hshort] at h
    cases hm : p.decode_amc.cache with
    | none =>
      rw [hm] at h
      cases h
    | some m =>
      rw [hm] at h
      dsimp only at h
      by_cases hlong : u32 (unLen m + enMsgHeadSize) > p.decode_amc.cache_off
      · rw [if_pos hlong] at h
        cases h
      · rw [if_neg hlong] at h
        dsimp only at h
        rw [moveNext, hm] at h
        cases h
        exact ⟨m, rfl, Nat.le_of_not_lt hshort, rfl⟩

theorem unLen_lt (m : Mem UInt8) : unLen m < 4294967296 := by
  have hword := word_lt (read m 4 4)
  rw [length_read] at hword
  exact hword

/-- A stalled loop makes one more turn and is where it was. -/
theorem stalled_stays (h : Stalled p) : ∃ p' b, turn p = .next p' b ∧ Stalled p' := by
  obtain ⟨m, hm, hhead, hlen⟩ := h
  have hzero : u32 ((unLen m : Int) + enMsgHeadSize) = 0 := by
    unfold u32
    omega
  refine ⟨p, dataOf p 0, ?_, m, hm, hhead, hlen⟩
  unfold turn getContent
  rw [if_neg (Nat.not_lt.mpr hhead), hm]
  dsimp only
  rw [hzero, if_neg (Nat.not_lt_zero _)]
  dsimp only
  rw [moveNext, hm]
  dsimp only
  rw [hzero, CAoMemCache.remove_nothing]

theorem off_drops (hs : ¬ Stalled p) (h : turn p = .next p' b) :
    p'.decode_amc.cache_off < p.decode_amc.cache_off := by
  obtain ⟨m, hm, hhead, rfl⟩ := next_of_turn h
  have hlt := unLen_lt m
  have hne : unLen m + enMsgHeadSize ≠ 4294967296 := fun he => hs ⟨m, hm, hhead, he⟩
  have h13 : enMsgHeadSize = 13 := rfl
  apply (CAoMemCache.remove_lt_iff (by omega) _).mpr
  unfold u32
  omega

theorem holds_of_visits {t : CAoCommuProtocol} (hv : Visits turn p t) (h : Holds p s) :
    Holds t t.decode_amc.content := by
  induction hv with
  | refl => exact ⟨h.block, rfl, h.small⟩
  | tail _ hf ih =>
    obtain ⟨b, hb⟩ := hf
    obtain ⟨m, _, _, rfl⟩ := next_of_turn hb
    exact ⟨CAoMemCache.block_remove ih.block _ _, rfl,
      Nat.lt_of_le_of_lt (CAoMemCache.remove_le _ 0 _) ih.small⟩

theorem normal_of_stop {w : Stop} (h : p.decode_amc.cache.isSome) (hw : turn p = .stop w) :
    Normal w := by
  obtain ⟨m, hm⟩ := Option.isSome_iff_exists.mp h
  unfold turn getContent at hw
  rw [hm] at hw
  dsimp only at hw
  by_cases hshort : p.decode_amc.cache_off < enMsgHeadSize
  · rw [if_pos hshort] at hw
    cases hw
    exact ⟨_, rfl⟩
  · rw [if_neg hshort] at hw
    by_cases hlong : u32 (unLen m + enMsgHeadSize) > p.decode_amc.cache_off
    · rw [if_pos hlong] at hw
      cases hw
      exact ⟨_, rfl⟩
    · rw [if_neg hlong] at hw
      dsimp only at hw
      rw [moveNext, hm] at hw
      cases hw

theorem loop_ends_iff (h : Holds p s) : EndsIn turn Normal p ↔ ∀ t, Visits turn p t →
    ¬ Stalled t := by
  rw [endsIn_iff (fun p => p.decode_amc.cache_off) (fun t ht => stalled_stays ht)
    (fun t t' b ht hn => off_drops ht hn) p]
  constructor
  · exact fun hall t hv => (hall t hv).1
  · exact fun hall t hv => ⟨hall t hv, fun w hw => normal_of_stop (holds_of_visits hv h).block hw⟩

/-! ## The law -/

/-- What `ReadData` does with bytes that arrived and fit. -/
theorem readsToEnd_iff {got : Option (Mem UInt8)} {recv : Except Int Bytes} :
    ReadsToEnd got recv p ↔ ∀ q, BeginsWith got recv p q → EndsIn turn Normal q := by
  unfold ReadsToEnd BeginsWith
  cases recv with
  | error n => exact iff_of_true ⟨0, _, rfl⟩ (by rintro q ⟨bs, hbs, _⟩; cases hbs)
  | ok bs =>
    by_cases hlen : bs.length < 1
    · refine iff_of_true ⟨0, ⟨bs.length, p, [], 0⟩, by simp only [readData, hlen, if_true]⟩ ?_
      rintro q ⟨bs', hbs, hne, _⟩
      cases hbs
      exact absurd (List.eq_nil_of_length_eq_zero (by omega)) hne
    · have hne : bs ≠ [] := by
        rintro rfl
        exact hlen (by decide)
      cases happ : p.appendDecodeData got bs with
      | mk suc q =>
        cases suc with
        | false =>
          refine iff_of_true
            ⟨0, ⟨0, q, [], 0⟩, by simp only [readData, hlen, if_false, happ, if_true]⟩ ?_
          rintro q' ⟨bs', hbs, _, hq⟩
          cases hbs
          rw [happ] at hq
          cases hq
        | true =>
          have hloop : ∀ fuel, readData fuel got (.ok bs) p =
              (loop turn fuel q).map (fun r => r.1.map (fun s => ⟨bs.length, s.1, r.2, s.2⟩)) := by
            intro fuel
            simp [readData, hlen, happ]
          have hends : (∃ fuel r, readData fuel got (.ok bs) p = some (.ok r)) ↔
              EndsIn turn Normal q :=
            endsIn_of_run hloop (fun w _ => normal_map _ w)
          rw [hends]
          constructor
          · rintro h q' ⟨bs', hbs, _, hq⟩
            cases hbs
            rw [happ] at hq
            cases hq
            exact h
          · intro h
            exact h q ⟨bs, rfl, hne, happ⟩

theorem holds_of_begins {got : Option (Mem UInt8)} {recv : Except Int Bytes}
    (h : BeginsWith got recv p q) :
    Holds q q.decode_amc.content := by
  obtain ⟨bs, _, hne, happ⟩ := h
  have hone : (p.appendDecodeData got bs).1 = true := by rw [happ]
  have hoff := CAoMemCache.off_of_append hne hone
  have hblock := CAoMemCache.block_of_append hne hone
  have hamc : q.decode_amc = (p.decode_amc.appendBuf got (some bs) bs.length).2 := by
    have hq : q = (p.appendDecodeData got bs).2 := by rw [happ]
    rw [hq]
    rfl
  refine ⟨by rw [hamc]; exact hblock, rfl, ?_⟩
  rw [hamc, hoff]
  unfold u32
  omega

/-- Each content of the decode buffer that a call of `ReadData` comes by has its frame in bounds
just when the length in its head does not wrap. All have, and the call comes back, just when behind
the whole frames there is no length that wraps; and the call comes back just when it comes by none
that wraps to no byte. -/
theorem frames_are_in_bounds_just_when_no_length_wraps (got : Option (Mem UInt8))
    (recv : Except Int Bytes) (p : CAoCommuProtocol) :
    (∀ q, BeginsWith got recv p q → ∀ t, Visits turn q t →
      (InBounds t ↔ NoWrap t.decode_amc.content)) ∧
    (((∀ q, BeginsWith got recv p q → ∀ t, Visits turn q t → InBounds t) ∧ ReadsToEnd got recv p) ↔
      ∀ q, BeginsWith got recv p q → NoWrap (dbaDecoder.drain q.decode_amc.content).2) ∧
    (ReadsToEnd got recv p ↔ ∀ q, BeginsWith got recv p q → ∀ t, Visits turn q t →
      ¬ Stalled t) := by
  refine ⟨fun q hq t ht => inBounds_iff (holds_of_visits ht (holds_of_begins hq)), ?_⟩
  rw [readsToEnd_iff]
  constructor
  · rw [← forall₂_and]
    exact forall₂_congr (fun q hq => loop_inBounds_iff (holds_of_begins hq))
  · exact forall₂_congr (fun q hq => loop_ends_iff (holds_of_begins hq))

/-- A head whose length is the largest that a head of 13 bytes wraps with to no byte. -/
def wrappingHead : Bytes := le32 0 ++ le32 4294967283 ++ 0 :: le32 0

/-- Thirteen bytes are handed out as no byte at all, again and again. -/
theorem thirteen_bytes_are_never_removed :
    (∃ q, BeginsWith none (.ok wrappingHead) fresh q ∧ ¬ InBounds q) ∧
      ¬ ReadsToEnd none (.ok wrappingHead) fresh := by
  have hbegins : BeginsWith none (.ok wrappingHead) fresh
      (fresh.appendDecodeData none wrappingHead).2 :=
    ⟨wrappingHead, rfl, by decide, Prod.ext (by decide) rfl⟩
  have hholds := holds_of_begins hbegins
  refine ⟨⟨_, hbegins, fun h => ?_⟩, fun h => ?_⟩
  · have hwrap := (inBounds_iff hholds).mp h
    revert hwrap
    decide
  · have hends := readsToEnd_iff.mp h _ hbegins
    rw [loop_ends_iff hholds] at hends
    exact hends _ (Visits.refl _) ⟨_, rfl, by decide, by decide⟩

end util.dba_commu_protocol
