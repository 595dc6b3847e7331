-- `CAoCommuProtocol`, the framing of the byte stream between aods and aodc. A
-- frame is a head of three `int`s, the bytes of a key and the encrypted
-- content. The laws say where a frame that the guards let through lies, under
-- which heads all of it lies in the buffer, and under which the key length divides by zero.
import Aods.MemCache
import Aods.Encrypt

open flat_memory machine
open util.mem_cache util.encrypt

namespace util.commu_protocol

def enAoMsgSize : Nat := 12
def enMaxProtocolLen : Int := 1048576
def enStepAppendSize : Nat := 10240

/-- `AO_MSG`, the head of a frame. `n_data_len` counts the whole frame. -/
structure AoMsg where
  n_data_len : Int
  n_key_code : Int
  n_key_len : Int
  deriving DecidableEq, Repr

/-- The head that lies at the start of a block. -/
def aoMsg (m : Mem UInt8) : AoMsg where
  n_data_len := i32 (word (read m 0 4))
  n_key_code := i32 (word (read m 4 4))
  n_key_len := i32 (word (read m 8 4))

theorem aoMsg_congr {m m' : Mem UInt8} (h : ∀ i, 0 ≤ i → i < 12 → m i = m' i) :
    aoMsg m = aoMsg m' := by
  have hread : ∀ o : Nat, o + 4 ≤ 12 → read m o 4 = read m' o 4 :=
    fun o ho => read_congr (fun i hi => h _ (by omega) (by omega))
  rw [aoMsg, aoMsg, show (0 : Int) = (0 : Nat) from rfl, show (4 : Int) = (4 : Nat) from rfl,
    show (8 : Int) = (8 : Nat) from rfl, hread 0 (by omega), hread 4 (by omega), hread 8 (by omega)]

/-- The two buffers and the cipher, whose key each frame sets anew. -/
structure CAoCommuProtocol where
  decode_amc : CAoMemCache
  encode_amc : CAoMemCache
  ae : CAoEncrypt

/-- What `GetContent` hands out: `psz_data` as an offset into the decode buffer,
and `un_data_len`. -/
structure Content where
  psz_data : Int
  un_data_len : Nat
  deriving DecidableEq, Repr

/-- The outcome of `GetContent`. No content stands for `NULL`. -/
structure Got where
  acp : CAoCommuProtocol
  content : Option Content
  n_is_err : Int

namespace CAoCommuProtocol

/-- The constructor, with what the allocator answers for the two buffers. -/
def new (got_decode got_encode : Option (Mem UInt8)) (un_cache_size : Nat) : CAoCommuProtocol where
  decode_amc := .new got_decode un_cache_size enStepAppendSize
  encode_amc := .new got_encode un_cache_size enStepAppendSize
  ae := CAoEncrypt.default.setKey ((List.range 16).map (fun n => UInt8.ofNat (0xBC + n))) 16

def appendDecodeData (got : Option (Mem UInt8)) (data : Bytes) (p : CAoCommuProtocol) :
    Bool × CAoCommuProtocol :=
  let r := p.decode_amc.appendBuf got (some data) data.length
  (r.1, { p with decode_amc := r.2 })

/-- `SetKey`: the 16 key bytes from the key of the frame. `key_buf` is the memory
seen from `szKeyData`, and a key length below zero is divided by all the same. -/
def setKey (n_key_code n_key_len : Int) (key_buf : Mem UInt8) (ae : CAoEncrypt) :
    Except Fault CAoEncrypt :=
  if n_key_len = 0 then .error .divide_by_zero
  else .ok (ae.setKey
    ((List.range 16).map (fun n : Nat => uchar n_key_code + key_buf (Int.tmod n n_key_len))) 16)

/-- `Decode` and `Encode`: the bytes at `psz_data` are worked over where they lie. -/
def crypt (op : CAoEncrypt → Bytes → Bytes)
    (n_key_code n_key_len sz_key_data psz_data n_data_len : Int) (m : Mem UInt8) (ae : CAoEncrypt) :
    Except Fault (CAoEncrypt × Mem UInt8) :=
  if n_data_len < 1 ∨ n_key_code = 0 then .ok (ae, m)
  else
    (setKey n_key_code n_key_len (fun i => m (sz_key_data + i)) ae).map
      (fun ae => (ae, write m psz_data (op ae (read m psz_data n_data_len.toNat))))

def decode := crypt CAoEncrypt.decode

def encode := crypt CAoEncrypt.encode

/-- The protocol with the cipher and the decode block that `Decode` leaves. -/
def withDecoded (p : CAoCommuProtocol) (r : CAoEncrypt × Mem UInt8) : CAoCommuProtocol :=
  { p with ae := r.1, decode_amc := { p.decode_amc with cache := some r.2 } }

def getContent (p : CAoCommuProtocol) : Except Fault Got :=
  if p.decode_amc.cache_off < enAoMsgSize then .ok ⟨p, none, 0⟩
  else
    match p.decode_amc.cache with
    | none => .error .null_pointer
    | some m =>
      let am := aoMsg m
      if enMaxProtocolLen < am.n_data_len ∨ am.n_data_len < i32 (am.n_key_len + enAoMsgSize) then
        .ok ⟨p, none, 1⟩
      else if am.n_data_len > i32 p.decode_amc.cache_off then .ok ⟨p, none, 0⟩
      else
        let psz_data := enAoMsgSize + am.n_key_len
        let un_data_len := u32 (am.n_data_len - enAoMsgSize - am.n_key_len)
        (decode am.n_key_code am.n_key_len enAoMsgSize psz_data (i32 un_data_len) m p.ae).map
          (fun r => ⟨p.withDecoded r, some ⟨psz_data, un_data_len⟩, 0⟩)

/-- The length is read again, from the block as the decryption left it. -/
def moveNext (p : CAoCommuProtocol) : Except Fault CAoCommuProtocol :=
  match p.decode_amc.cache with
  | none => .error .null_pointer
  | some m => .ok { p with decode_amc := p.decode_amc.remove 0 (u32 (aoMsg m).n_data_len) }

/-- The length of the key for a payload. -/
def keyLenOf (un_data_len : Nat) : Nat := if un_data_len > 20 then 20 else un_data_len

/-- The frame of a payload, or `none` for `NULL`. `rand` gives the numbers that
`rand` draws after `srand`. -/
def encodeMsg (got : Option (Mem UInt8)) (rand : Nat → Nat) (data : Bytes) (p : CAoCommuProtocol) :
    Except Fault (CAoCommuProtocol × Option Bytes) :=
  let n_key_len := keyLenOf data.length
  let un_msg_len := u32 (data.length + enAoMsgSize + n_key_len)
  let amc := (p.encode_amc.reset.appendBuf got none un_msg_len).2
  match amc.cache with
  | none => .ok ({ p with encode_amc := amc }, none)
  | some m =>
    let n_key_code : Int := (rand 0 % 0x20 : Nat) + 0xaf
    let key :=
      (List.range n_key_len).map (fun n => UInt8.ofNat (rand (n + 1) % (0xaf - 0x3f) + 0x3f))
    let m := write m 0 (le32 (i32 (data.length + enAoMsgSize + n_key_len)))
    let m := write m 8 (le32 n_key_len)
    let m := write m 4 (le32 n_key_code)
    let m := write m enAoMsgSize key
    let m := write m (enAoMsgSize + n_key_len : Nat) data
    (encode n_key_code n_key_len enAoMsgSize (enAoMsgSize + n_key_len : Nat) (i32 data.length)
        m p.ae).map
      (fun r => ({ p with ae := r.1, encode_amc := { amc with cache := some r.2 } },
        some (read r.2 0 un_msg_len)))

/-! ## What the guards let through -/

/-- The head of the frame at the front of the decode buffer. -/
def head (p : CAoCommuProtocol) : Option AoMsg := p.decode_amc.cache.map aoMsg

/-- The three guards of `GetContent` let the head `am` through. -/
structure Accepts (p : CAoCommuProtocol) (am : AoMsg) : Prop where
  whole_head : enAoMsgSize ≤ p.decode_amc.cache_off
  at_front : p.head = some am
  not_too_long : am.n_data_len ≤ enMaxProtocolLen
  key_fits : i32 (am.n_key_len + enAoMsgSize) ≤ am.n_data_len
  arrived : am.n_data_len ≤ i32 p.decode_amc.cache_off

/-- The content that a head announces. -/
def contentOf (am : AoMsg) : Content where
  psz_data := enAoMsgSize + am.n_key_len
  un_data_len := u32 (am.n_data_len - enAoMsgSize - am.n_key_len)

/-- The content of the frame is decrypted, so that the key is read. -/
def Decrypts (am : AoMsg) : Prop := 1 ≤ i32 (contentOf am).un_data_len ∧ am.n_key_code ≠ 0

instance (am : AoMsg) : Decidable (Decrypts am) := inferInstanceAs (Decidable (_ ∧ _))

/-- The cipher that the key of a frame makes. -/
def keyed (am : AoMsg) (m : Mem UInt8) (ae : CAoEncrypt) : CAoEncrypt :=
  ae.setKey ((List.range 16).map
    (fun n : Nat => uchar am.n_key_code + m (enAoMsgSize + Int.tmod n am.n_key_len))) 16

/-- The cipher and the block after `Decode`. -/
def decoded (am : AoMsg) (m : Mem UInt8) (ae : CAoEncrypt) : CAoEncrypt × Mem UInt8 :=
  if Decrypts am then
    (keyed am m ae, write m (contentOf am).psz_data ((keyed am m ae).decode
      (read m (contentOf am).psz_data (i32 (contentOf am).un_data_len).toNat)))
  else (ae, m)

/-- The key of the frame is needed and empty, so that its length is divided by. -/
def DividesByZero (am : AoMsg) : Prop := Decrypts am ∧ am.n_key_len = 0

instance (am : AoMsg) : Decidable (DividesByZero am) := inferInstanceAs (Decidable (_ ∧ _))

theorem decode_content (am : AoMsg) (m : Mem UInt8) (ae : CAoEncrypt) :
    decode am.n_key_code am.n_key_len enAoMsgSize (contentOf am).psz_data
        (i32 (contentOf am).un_data_len) m ae =
      if DividesByZero am then .error .divide_by_zero else .ok (decoded am m ae) := by
  have hskip : (i32 (contentOf am).un_data_len < 1 ∨ am.n_key_code = 0) ↔ ¬ Decrypts am := by
    rw [Decrypts, not_and_or, Int.not_le, not_not]
  rw [decode, crypt]
  simp only [hskip, setKey]
  by_cases hd : Decrypts am
  · by_cases hk : am.n_key_len = 0
    · have hz : DividesByZero am := ⟨hd, hk⟩
      rw [if_neg (not_not.mpr hd), if_pos hk, if_pos hz]
      rfl
    · have hz : ¬ DividesByZero am := fun h => hk h.2
      rw [if_neg (not_not.mpr hd), if_neg hk, if_neg hz, decoded, if_pos hd]
      rfl
  · have hz : ¬ DividesByZero am := fun h => hd h.1
    rw [if_pos hd, if_neg hz, decoded, if_neg hd]

/-- What `GetContent` does with a head that the guards let through. -/
theorem getContent_of_accepts {p : CAoCommuProtocol} {am : AoMsg} {m : Mem UInt8}
    (h : p.Accepts am) (hm : p.decode_amc.cache = some m) :
    p.getContent = if DividesByZero am then .error .divide_by_zero
      else .ok ⟨p.withDecoded (decoded am m p.ae), some (contentOf am), 0⟩ := by
  have ham : aoMsg m = am := by simpa [head, hm] using h.at_front
  have h1 : ¬ p.decode_amc.cache_off < enAoMsgSize := Nat.not_lt.mpr h.whole_head
  have h2 : ¬ (enMaxProtocolLen < am.n_data_len ∨
      am.n_data_len < i32 (am.n_key_len + enAoMsgSize)) := by
    rintro (h3 | h3)
    · exact absurd h.not_too_long (Int.not_le.mpr h3)
    · exact absurd h.key_fits (Int.not_le.mpr h3)
  have h3 : ¬ am.n_data_len > i32 p.decode_amc.cache_off := Int.not_lt.mpr h.arrived
  have hdec := decode_content am m p.ae
  rw [contentOf] at hdec
  simp only [getContent, h1, if_false, hm, ham, h2, h3, hdec]
  split
  · rfl
  · rfl

theorem getContent_of_short {p : CAoCommuProtocol} (h : p.decode_amc.cache_off < enAoMsgSize) :
    p.getContent = .ok ⟨p, none, 0⟩ := by
  simp only [getContent, h, if_true]

/-- A sound head whose frame has not arrived as a whole: `GetContent` waits. -/
theorem getContent_of_partial {p : CAoCommuProtocol} {m : Mem UInt8}
    (h : enAoMsgSize ≤ p.decode_amc.cache_off) (hm : p.decode_amc.cache = some m)
    (hmax : (aoMsg m).n_data_len ≤ enMaxProtocolLen)
    (hfit : i32 ((aoMsg m).n_key_len + enAoMsgSize) ≤ (aoMsg m).n_data_len)
    (hpart : i32 p.decode_amc.cache_off < (aoMsg m).n_data_len) :
    p.getContent = .ok ⟨p, none, 0⟩ := by
  have h1 : ¬ p.decode_amc.cache_off < enAoMsgSize := Nat.not_lt.mpr h
  have h2 : ¬ (enMaxProtocolLen < (aoMsg m).n_data_len ∨
      (aoMsg m).n_data_len < i32 ((aoMsg m).n_key_len + enAoMsgSize)) :=
    not_or.mpr ⟨Int.not_lt.mpr hmax, Int.not_lt.mpr hfit⟩
  have h3 : (aoMsg m).n_data_len > i32 p.decode_amc.cache_off := hpart
  simp only [getContent, h1, if_false, hm, h2, h3, if_true]

/-- A head that a guard stops gives no content and leaves the buffer alone. -/
theorem getContent_of_not_accepts {p : CAoCommuProtocol} (h : ∀ am, ¬ p.Accepts am) :
    (p.decode_amc.cache = none ∧ p.getContent = .error .null_pointer) ∨
      ∃ e, p.getContent = .ok ⟨p, none, e⟩ := by
  by_cases h1 : p.decode_amc.cache_off < enAoMsgSize
  · exact Or.inr ⟨0, getContent_of_short h1⟩
  cases hm : p.decode_amc.cache with
  | none => exact Or.inl ⟨rfl, by simp only [getContent, h1, if_false, hm]⟩
  | some m =>
    refine Or.inr ?_
    by_cases h2 : enMaxProtocolLen < (aoMsg m).n_data_len ∨
        (aoMsg m).n_data_len < i32 ((aoMsg m).n_key_len + enAoMsgSize)
    · exact ⟨1, by simp only [getContent, h1, if_false, hm, h2, if_true]⟩
    rw [not_or] at h2
    by_cases h3 : (aoMsg m).n_data_len > i32 p.decode_amc.cache_off
    · exact ⟨0, getContent_of_partial (Nat.not_lt.mp h1) hm (Int.not_lt.mp h2.1)
        (Int.not_lt.mp h2.2) h3⟩
    exact absurd ⟨Nat.not_lt.mp h1, by simp [head, hm], Int.not_lt.mp h2.1, Int.not_lt.mp h2.2,
      Int.not_lt.mp h3⟩ (h (aoMsg m))

/-- What `GetContent` can do: divide by zero, hand out a content, or neither. -/
theorem getContent_cases (p : CAoCommuProtocol) :
    (∃ am, p.Accepts am ∧ DividesByZero am ∧ p.getContent = .error .divide_by_zero) ∨
    (∃ am m, p.Accepts am ∧ ¬ DividesByZero am ∧ p.decode_amc.cache = some m ∧
      p.getContent = .ok ⟨p.withDecoded (decoded am m p.ae), some (contentOf am), 0⟩) ∨
    (p.decode_amc.cache = none ∧ p.getContent = .error .null_pointer) ∨
    ∃ e, p.getContent = .ok ⟨p, none, e⟩ := by
  by_cases hex : ∃ am, p.Accepts am
  · obtain ⟨am, ham⟩ := hex
    obtain ⟨m, hm, _⟩ := Option.map_eq_some_iff.mp ham.at_front
    have hg := getContent_of_accepts ham hm
    by_cases hz : DividesByZero am
    · rw [if_pos hz] at hg
      exact Or.inl ⟨am, ham, hz, hg⟩
    · rw [if_neg hz] at hg
      exact Or.inr (Or.inl ⟨am, m, ham, hz, hm, hg⟩)
  · exact Or.inr (Or.inr (getContent_of_not_accepts (fun am ham => hex ⟨am, ham⟩)))

/-- A content comes with a head that the guards let through and that asks for no
division by zero. -/
theorem accepts_of_getContent {p q : CAoCommuProtocol} {c : Content} {e : Int}
    (h : p.getContent = .ok ⟨q, some c, e⟩) :
    ∃ am m, p.Accepts am ∧ ¬ DividesByZero am ∧ p.decode_amc.cache = some m ∧ c = contentOf am ∧
      q = p.withDecoded (decoded am m p.ae) ∧ e = 0 := by
  rcases getContent_cases p with ⟨_, _, _, hg⟩ | ⟨am, m, ham, hz, hm, hg⟩ | ⟨_, hg⟩ | ⟨e', hg⟩
  · rw [hg] at h
    cases h
  · rw [hg] at h
    cases h
    exact ⟨am, m, ham, hz, hm, rfl, rfl, rfl⟩
  · rw [hg] at h
    cases h
  · rw [hg] at h
    cases h

/-! ## Where a frame lies -/

/-- The cells that `GetContent` reads as key, decrypts or hands out: the key
region, the cells that `SetKey` looks up, and the content region. -/
def Touches (am : AoMsg) (c : Content) (i : Int) : Prop :=
  (12 ≤ i ∧ i < 12 + am.n_key_len) ∨
  (Decrypts am ∧ ∃ n : Nat, n < 16 ∧ i = 12 + Int.tmod n am.n_key_len) ∨
  (12 + am.n_key_len ≤ i ∧ i < 12 + am.n_key_len + c.un_data_len) ∨
  (c.psz_data ≤ i ∧ i < c.psz_data + c.un_data_len)

/-- The frame of a head lies in the first `n_data_len` bytes, and these in the buffer. -/
structure InBounds (am : AoMsg) (c : Content) (cur_data_len : Nat) : Prop where
  inside : ∀ i, Touches am c i → 0 ≤ i ∧ i < am.n_data_len
  arrived : am.n_data_len ≤ cur_data_len

theorem decoded_outside (am : AoMsg) (m : Mem UInt8) (ae : CAoEncrypt) {i : Int}
    (h : i < (contentOf am).psz_data ∨ (contentOf am).psz_data + (contentOf am).un_data_len ≤ i) :
    (decoded am m ae).2 i = m i := by
  have hle := i32_le_natCast (contentOf am).un_data_len
  by_cases hd : Decrypts am
  · rw [decoded, if_pos hd]
    rcases h with h | h
    · exact write_before _ _ h
    · apply write_after
      rw [CAoEncrypt.length_decode, length_read]
      omega
  · rw [decoded, if_neg hd]

/-- Whatever `GetContent` hands out lies in bounds. -/
def FramesInBounds (p : CAoCommuProtocol) : Prop :=
  ∀ q c e, p.getContent = .ok ⟨q, some c, e⟩ →
    ∃ am, p.head = some am ∧ InBounds am c p.decode_amc.cache_off

/-- The heads whose whole frame the guards keep in bounds. The sum of the second
guard must not wrap. Then the content is empty, or it starts in the buffer and
the key cells that a key length below zero leads to end before the frame does. -/
def WellPlaced (am : AoMsg) : Prop :=
  am.n_key_len + 12 < 2147483648 ∧
    (am.n_data_len = am.n_key_len + 12 ∨
      -12 ≤ am.n_key_len ∧ (am.n_key_code = 0 ∨ 12 - am.n_key_len ≤ am.n_data_len))

instance (am : AoMsg) : Decidable (WellPlaced am) := inferInstanceAs (Decidable (_ ∧ _))

theorem Accepts.key_len_range {p : CAoCommuProtocol} {am : AoMsg} (h : p.Accepts am) :
    -2147483648 ≤ am.n_key_len ∧ am.n_key_len < 2147483648 := by
  obtain ⟨m, _, rfl⟩ := Option.map_eq_some_iff.mp h.at_front
  exact i32_range _

theorem un_data_len_eq {p : CAoCommuProtocol} {am : AoMsg} (h : p.Accepts am)
    (hw : am.n_key_len + 12 < 2147483648) :
    ((contentOf am).un_data_len : Int) = am.n_data_len - 12 - am.n_key_len := by
  have hr := h.key_len_range
  have hmax : am.n_data_len ≤ 1048576 := h.not_too_long
  have hfit : i32 (am.n_key_len + 12) ≤ am.n_data_len := h.key_fits
  rw [i32_of_range (by omega) hw] at hfit
  have hlen : (contentOf am).un_data_len = u32 (am.n_data_len - 12 - am.n_key_len) := rfl
  rw [hlen]
  unfold u32
  omega

theorem tmod_of_pos (n : Nat) {k : Int} (h : 0 < k) : 0 ≤ Int.tmod n k ∧ Int.tmod n k < k :=
  ⟨Int.tmod_nonneg k (Int.natCast_nonneg n), Int.tmod_lt_of_pos _ h⟩

theorem tmod_of_neg (n : Nat) {k : Int} (h : k < 0) : 0 ≤ Int.tmod n k ∧ Int.tmod n k < -k := by
  rw [← Int.tmod_neg]
  exact tmod_of_pos n (by omega)

theorem tmod_last {k : Int} (h : k < 0) : Int.tmod ((-k - 1).toNat : Int) k = -k - 1 := by
  rw [← Int.tmod_neg, Int.tmod_eq_emod_of_nonneg (by omega),
    Int.emod_eq_of_lt (by omega) (by omega)]
  omega

theorem inside_of_wellPlaced {p : CAoCommuProtocol} {am : AoMsg} (h : p.Accepts am)
    (hz : ¬ DividesByZero am) (hw : WellPlaced am) (i : Int) (hi : Touches am (contentOf am) i) :
    0 ≤ i ∧ i < am.n_data_len := by
  obtain ⟨hwrap, hplace⟩ := hw
  have hr := h.key_len_range
  have hlen := un_data_len_eq h hwrap
  have hfit : i32 (am.n_key_len + 12) ≤ am.n_data_len := h.key_fits
  have hoff : (contentOf am).psz_data = 12 + am.n_key_len := rfl
  rw [i32_of_range (by omega) hwrap] at hfit
  rcases hi with hi | ⟨hd, n, hn, rfl⟩ | hi | hi
  · omega
  · -- the key is read: the content is not empty, and the key length is not zero
    have hk : am.n_key_len ≠ 0 := fun hk => hz ⟨hd, hk⟩
    have hne : am.n_data_len ≠ am.n_key_len + 12 := by
      intro he
      have := hd.1
      rw [show (contentOf am).un_data_len = 0 by omega] at this
      exact absurd this (by decide)
    have hcode := hd.2
    rcases Int.lt_or_gt_of_ne hk with hneg | hpos
    · have := tmod_of_neg n hneg
      omega
    · have := tmod_of_pos n hpos
      omega
  · omega
  · omega

theorem wellPlaced_of_inside {p : CAoCommuProtocol} {am : AoMsg} (h : p.Accepts am)
    (hin : ∀ i, Touches am (contentOf am) i → 0 ≤ i ∧ i < am.n_data_len) : WellPlaced am := by
  have hr := h.key_len_range
  have hmax : am.n_data_len ≤ 1048576 := h.not_too_long
  have hfit : i32 (am.n_key_len + 12) ≤ am.n_data_len := h.key_fits
  by_cases hwrap : am.n_key_len + 12 < 2147483648
  · refine ⟨hwrap, ?_⟩
    have hlen := un_data_len_eq h hwrap
    rw [i32_of_range (by omega) hwrap] at hfit
    by_cases hempty : am.n_data_len = am.n_key_len + 12
    · exact Or.inl hempty
    -- the first cell of a content that is not empty
    have hfirst := hin (12 + am.n_key_len) (Or.inr (Or.inr (Or.inl (by omega))))
    refine Or.inr ⟨by omega, ?_⟩
    by_cases hcode : am.n_key_code = 0
    · exact Or.inl hcode
    by_cases hneg : am.n_key_len < 0
    · -- the last key cell that is read
      have hd : Decrypts am := ⟨by rw [hlen, i32_of_range (by omega) (by omega)]; omega, hcode⟩
      have hlast := hin (12 + (-am.n_key_len - 1)) (Or.inr (Or.inl
        ⟨hd, (-am.n_key_len - 1).toNat, by omega, by rw [tmod_last hneg]⟩))
      omega
    · omega
  · -- the sum has wrapped: the key region is longer than any frame
    have := hin (11 + am.n_key_len) (Or.inl (by omega))
    omega

/-! ## The laws -/

/-- A frame stays in bounds just when the head that the guards let through is
well placed. -/
theorem a_frame_stays_in_bounds_just_when_its_head_is_well_placed (p : CAoCommuProtocol) :
    p.FramesInBounds ↔ ∀ am, p.Accepts am → WellPlaced am := by
  constructor
  · intro hb am ham
    by_cases hz : DividesByZero am
    · -- no content comes of it, and an empty key is in bounds anyway
      obtain ⟨hd, hk⟩ := hz
      have hfit : i32 (am.n_key_len + 12) ≤ am.n_data_len := ham.key_fits
      rw [hk] at hfit
      have : i32 (0 + 12) = 12 := rfl
      exact ⟨by omega, Or.inr ⟨by omega, Or.inr (by omega)⟩⟩
    · obtain ⟨m, hm, _⟩ := Option.map_eq_some_iff.mp ham.at_front
      have hg := getContent_of_accepts ham hm
      rw [if_neg hz] at hg
      obtain ⟨am', hhead, hin⟩ := hb _ _ _ hg
      rw [ham.at_front] at hhead
      cases hhead
      exact wellPlaced_of_inside ham hin.inside
  · intro hw q c e hg
    obtain ⟨am, m, ham, hz, _, rfl, _, _⟩ := accepts_of_getContent hg
    refine ⟨am, ham.at_front, inside_of_wellPlaced ham hz (hw am ham), ?_⟩
    exact Int.le_trans ham.arrived (i32_le_natCast _)

/-- A protocol as the constructor leaves it, over blocks of zeros. -/
def fresh : CAoCommuProtocol := new (some (fun _ => 0)) (some (fun _ => 0)) 10240

/-- A head that announces no byte at all and a key of length -13. -/
def negativeKeyHead : Bytes := le32 0 ++ le32 0 ++ le32 (-13)

theorem fresh_accepts_negativeKeyHead :
    (fresh.appendDecodeData none negativeKeyHead).2.Accepts ⟨0, 0, -13⟩ where
  whole_head := by decide
  at_front := by decide
  not_too_long := by decide
  key_fits := by decide
  arrived := by decide

/-- The content of that frame starts one byte before the buffer. -/
theorem a_negative_key_length_leads_out_of_the_buffer :
    ¬ (fresh.appendDecodeData none negativeKeyHead).2.FramesInBounds := by
  intro hb
  have ham := fresh_accepts_negativeKeyHead
  obtain ⟨m, hm, _⟩ := Option.map_eq_some_iff.mp ham.at_front
  have hg := getContent_of_accepts ham hm
  rw [if_neg (by decide)] at hg
  obtain ⟨am, hhead, hin⟩ := hb _ _ _ hg
  rw [ham.at_front] at hhead
  cases hhead
  have := hin.inside (-1) (Or.inr (Or.inr (Or.inl (by decide))))
  omega

/-! ## The key length as a divisor -/

/-- The buffer has a whole frame in front, with a content and a key code but with no key. -/
structure KeyMissing (p : CAoCommuProtocol) (am : AoMsg) : Prop where
  whole_head : enAoMsgSize ≤ p.decode_amc.cache_off
  at_front : p.head = some am
  arrived : am.n_data_len ≤ i32 p.decode_amc.cache_off
  not_too_long : am.n_data_len ≤ enMaxProtocolLen
  has_content : enAoMsgSize < am.n_data_len
  has_code : am.n_key_code ≠ 0
  no_key : am.n_key_len = 0

theorem dividesByZero_iff {p : CAoCommuProtocol} (am : AoMsg) :
    p.Accepts am ∧ DividesByZero am ↔ p.KeyMissing am := by
  constructor
  · rintro ⟨h, ⟨hlen, hcode⟩, hkey⟩
    have hdata := un_data_len_eq h (by omega)
    have hle := i32_le_natCast (contentOf am).un_data_len
    refine ⟨h.whole_head, h.at_front, h.arrived, h.not_too_long, ?_, hcode, hkey⟩
    show (12 : Int) < am.n_data_len
    omega
  · intro h
    have hlong : (12 : Int) < am.n_data_len := h.has_content
    have hmax : am.n_data_len ≤ 1048576 := h.not_too_long
    have hfit : i32 (am.n_key_len + enAoMsgSize) ≤ am.n_data_len := by
      rw [h.no_key]
      exact Int.le_of_lt hlong
    have hacc : p.Accepts am := ⟨h.whole_head, h.at_front, h.not_too_long, hfit, h.arrived⟩
    refine ⟨hacc, ⟨?_, h.has_code⟩, h.no_key⟩
    have hkey := h.no_key
    have hdata := un_data_len_eq hacc (by omega)
    rw [hdata, hkey, i32_of_range (by omega) (by omega)]
    omega

/-- `SetKey` is the only place that divides, and `GetContent` comes there just with such a frame. -/
theorem getContent_divides_iff (p : CAoCommuProtocol) :
    p.getContent = .error .divide_by_zero ↔ ∃ am, p.KeyMissing am := by
  constructor
  · intro h
    rcases getContent_cases p with ⟨am, ham, hz, _⟩ | ⟨am, m, _, _, _, hg⟩ | ⟨_, hg⟩ | ⟨e, hg⟩
    · exact ⟨am, (dividesByZero_iff am).mp ⟨ham, hz⟩⟩
    · rw [hg] at h
      cases h
    · rw [hg] at h
      cases h
    · rw [hg] at h
      cases h
  · rintro ⟨am, ham⟩
    obtain ⟨hacc, hz⟩ := (dividesByZero_iff am).mpr ham
    obtain ⟨m, hm, _⟩ := Option.map_eq_some_iff.mp hacc.at_front
    rw [getContent_of_accepts hacc hm, if_pos hz]

theorem keyLenOf_pos {n : Nat} (h : 0 < n) : 0 < keyLenOf n := by
  unfold keyLenOf
  split
  · decide
  · exact h

theorem encode_ok (n_key_code : Int) (data : Bytes) (o o' : Int) (m : Mem UInt8) (ae : CAoEncrypt) :
    ∃ r, encode n_key_code (keyLenOf data.length) o o' (i32 data.length) m ae = .ok r := by
  unfold encode crypt
  split
  · exact ⟨_, rfl⟩
  · rename_i hpos
    have hlen : 0 < data.length := by
      have := i32_le_natCast data.length
      omega
    have hkey := keyLenOf_pos hlen
    rw [setKey, if_neg (by omega)]
    exact ⟨_, rfl⟩

theorem encodeMsg_ok (got : Option (Mem UInt8)) (rand : Nat → Nat) (data : Bytes)
    (p : CAoCommuProtocol) : ∃ r, p.encodeMsg got rand data = .ok r := by
  unfold encodeMsg
  dsimp only
  split
  · exact ⟨_, rfl⟩
  · obtain ⟨r, hr⟩ := encode_ok _ data _ _ _ p.ae
    rw [hr]
    exact ⟨_, rfl⟩

/-- `SetKey` divides by a key length of zero just when a frame with a content and a key code has no
key. `EncodeMsg` never makes it do so. -/
theorem a_key_length_of_zero_divides_just_when_a_frame_has_no_key (p : CAoCommuProtocol) :
    (p.getContent ≠ .error .divide_by_zero ↔ ¬ ∃ am, p.KeyMissing am) ∧
      ∀ got rand data, p.encodeMsg got rand data ≠ .error .divide_by_zero := by
  refine ⟨not_congr (getContent_divides_iff p), ?_⟩
  intro got rand data h
  obtain ⟨r, hr⟩ := encodeMsg_ok got rand data p
  rw [hr] at h
  cases h

/-- A frame of thirteen bytes with a key code and without a key. -/
def keylessFrame : Bytes := le32 13 ++ le32 1 ++ le32 0 ++ [7]

theorem thirteen_bytes_divide_by_zero :
    (fresh.appendDecodeData none keylessFrame).2.getContent = .error .divide_by_zero := by
  rw [getContent_divides_iff]
  exact ⟨⟨13, 1, 0⟩, by decide, by decide, by decide, by decide, by decide, by decide, by decide⟩

end CAoCommuProtocol

end util.commu_protocol
