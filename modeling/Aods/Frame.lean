-- The frame format of `CAoCommuProtocol` by itself: the bytes of a frame, and a
-- decoder of byte sequences that takes one frame off the front. The laws say
-- that a stream of frames gives back its payloads, however it is cut.
import Aods.Segmentation
import Aods.CommuProtocol

open machine segmentation
open util.encrypt util.commu_protocol util.commu_protocol.CAoCommuProtocol

namespace util.frame

/-- The 16 key bytes that a key code and a key make. -/
def schedule (code : Int) (key : Bytes) : Bytes :=
  (List.range 16).map (fun n => uchar code + key.getD (n % key.length) 0)

def cipherOf (code : Int) (key : Bytes) : CAoEncrypt :=
  CAoEncrypt.default.setKey (schedule code key) 16

/-- A frame: its key and its payload, of the lengths that the format allows. -/
structure Frame where
  code : Int
  key : Bytes
  data : Bytes
  code_pos : 0 < code
  code_small : code < 2147483648
  key_len : key.length = keyLenOf data.length
  fits : 12 + key.length + data.length ≤ 1048576

namespace Frame

def total (f : Frame) : Nat := 12 + f.key.length + f.data.length

def head (f : Frame) : AoMsg := ⟨f.total, f.code, f.key.length⟩

def cipher (f : Frame) : Bytes := (cipherOf f.code f.key).encode f.data

def bytes (f : Frame) : Bytes :=
  le32 f.total ++ le32 f.code ++ le32 f.key.length ++ (f.key ++ f.cipher)

@[simp] theorem length_cipher (f : Frame) : f.cipher.length = f.data.length := by simp [cipher]

@[simp] theorem length_bytes (f : Frame) : f.bytes.length = f.total := by
  simp [bytes, total]
  omega

theorem total_le (f : Frame) : f.total ≤ 1048576 := f.fits

theorem data_nil_of_key_nil {f : Frame} (h : f.key.length = 0) : f.data = [] := by
  have hk := f.key_len
  rw [h, keyLenOf] at hk
  apply List.eq_nil_of_length_eq_zero
  split at hk
  · omega
  · exact hk.symm

end Frame

/-! ## The decoder -/

/-- The head at the front of some bytes. -/
def headOf (s : Bytes) : AoMsg where
  n_data_len := i32 (word (s.take 4))
  n_key_code := i32 (word ((s.drop 4).take 4))
  n_key_len := i32 (word ((s.drop 8).take 4))

/-- A whole frame lies at the front. -/
def Whole (s : Bytes) : Prop :=
  12 ≤ s.length ∧ 0 ≤ (headOf s).n_key_len ∧
    (headOf s).n_key_len + 12 ≤ (headOf s).n_data_len ∧ (headOf s).n_data_len ≤ s.length

instance (s : Bytes) : Decidable (Whole s) := inferInstanceAs (Decidable (_ ∧ _))

/-- The payload of the frame at the front. -/
def payload (s : Bytes) : Bytes :=
  let am := headOf s
  let key := (s.drop 12).take am.n_key_len.toNat
  let content := (s.take am.n_data_len.toNat).drop (12 + am.n_key_len.toNat)
  (cipherOf am.n_key_code key).decode content

def nextFrame (s : Bytes) : Option (Bytes × Bytes) :=
  if Whole s then some (payload s, s.drop (headOf s).n_data_len.toNat) else none

theorem headOf_append {s : Bytes} (h : 12 ≤ s.length) (t : Bytes) : headOf (s ++ t) = headOf s := by
  have hword : ∀ o, o + 4 ≤ 12 → ((s ++ t).drop o).take 4 = (s.drop o).take 4 := by
    intro o ho
    rw [List.drop_append_of_le_length (by omega),
      List.take_append_of_le_length (by rw [List.length_drop]; omega)]
  have h0 := hword 0 (by omega)
  rw [List.drop_zero, List.drop_zero] at h0
  rw [headOf, headOf, h0, hword 4 (by omega), hword 8 (by omega)]

theorem payload_append {s : Bytes} (h : Whole s) (t : Bytes) : payload (s ++ t) = payload s := by
  obtain ⟨hlen, hkey, hfit, hend⟩ := h
  have hkeys : ((s ++ t).drop 12).take (headOf s).n_key_len.toNat =
      (s.drop 12).take (headOf s).n_key_len.toNat := by
    rw [List.drop_append_of_le_length hlen,
      List.take_append_of_le_length (by rw [List.length_drop]; omega)]
  have hall : (s ++ t).take (headOf s).n_data_len.toNat = s.take (headOf s).n_data_len.toNat :=
    List.take_append_of_le_length (by omega)
  rw [payload, payload, headOf_append hlen, hkeys, hall]

/-- The decoder that takes one frame off the front. -/
def frameDecoder : Decoder UInt8 Bytes where
  next := nextFrame
  shorter := by
    intro s x r h
    unfold nextFrame at h
    split at h
    · rename_i hw
      obtain ⟨hlen, hkey, hfit, hend⟩ := hw
      cases h
      rw [List.length_drop]
      omega
    · cases h
  stable := by
    intro s x r t h
    unfold nextFrame at h ⊢
    split at h
    · rename_i hw
      cases h
      have hhead := headOf_append hw.1 t
      have hw' : Whole (s ++ t) := by
        obtain ⟨hlen, hkey, hfit, hend⟩ := hw
        refine ⟨?_, by rwa [hhead], by rwa [hhead], ?_⟩
        · rw [List.length_append]
          omega
        · rw [hhead, List.length_append]
          omega
      rw [if_pos hw', payload_append hw, hhead,
        List.drop_append_of_le_length (by have := hw.2.2.2; omega)]
    · cases h

theorem frameDecoder_next : frameDecoder.next = nextFrame := rfl

/-! ## The decoder on frames -/

theorem headOf_words {a b c : Int} (ha : -2147483648 ≤ a ∧ a < 2147483648)
    (hb : -2147483648 ≤ b ∧ b < 2147483648) (hc : -2147483648 ≤ c ∧ c < 2147483648) (s : Bytes) :
    headOf (le32 a ++ le32 b ++ le32 c ++ s) = ⟨a, b, c⟩ := by
  have h1 : (le32 a ++ le32 b ++ le32 c ++ s).take 4 = le32 a := rfl
  have h2 : ((le32 a ++ le32 b ++ le32 c ++ s).drop 4).take 4 = le32 b := rfl
  have h3 : ((le32 a ++ le32 b ++ le32 c ++ s).drop 8).take 4 = le32 c := rfl
  rw [headOf, h1, h2, h3, i32_word_le32 ha.1 ha.2, i32_word_le32 hb.1 hb.2, i32_word_le32 hc.1 hc.2]

theorem headOf_bytes (f : Frame) (t : Bytes) : headOf (f.bytes ++ t) = f.head := by
  have htotal := f.total_le
  have hkey : f.key.length ≤ f.total := by
    rw [Frame.total]
    omega
  have hcode := f.code_pos
  have hsmall := f.code_small
  rw [Frame.bytes, List.append_assoc, headOf_words (by omega) (by omega) (by omega)]
  rfl

theorem whole_bytes (f : Frame) (t : Bytes) : Whole (f.bytes ++ t) := by
  have hlen : (f.bytes ++ t).length = f.total + t.length := by simp
  rw [Whole, headOf_bytes, hlen]
  simp only [Frame.head, Frame.total]
  omega

/-- The key of a frame lies behind its head, and the cipher text behind the key. -/
theorem bytes_split (f : Frame) (t : Bytes) :
    ((f.bytes ++ t).drop 12).take f.key.length = f.key ∧
      ((f.bytes ++ t).take f.total).drop (12 + f.key.length) = f.cipher := by
  have hdrop : (f.bytes ++ t).drop 12 = f.key ++ (f.cipher ++ t) := by
    have hrest : (f.key ++ f.cipher) ++ t = f.key ++ (f.cipher ++ t) := List.append_assoc ..
    rw [← hrest]
    rfl
  have htake : (f.bytes ++ t).take f.total = f.bytes := by
    rw [← f.length_bytes]
    exact List.take_left ..
  have hbytes : f.bytes.drop 12 = f.key ++ f.cipher := rfl
  refine ⟨by rw [hdrop]; exact List.take_left .., ?_⟩
  rw [htake, ← List.drop_drop, hbytes]
  exact List.drop_left ..

theorem payload_bytes (f : Frame) (t : Bytes) : payload (f.bytes ++ t) = f.data := by
  obtain ⟨hkey, hcipher⟩ := bytes_split f t
  have hpaired : (cipherOf f.code f.key).Paired :=
    CAoEncrypt.paired_setKey CAoEncrypt.paired_default _ _
  unfold payload
  rw [headOf_bytes]
  simp only [Frame.head, Int.toNat_natCast, hkey, hcipher]
  exact CAoEncrypt.decode_encode hpaired f.data

theorem nextFrame_bytes (f : Frame) (t : Bytes) : nextFrame (f.bytes ++ t) = some (f.data, t) := by
  have hrest : (f.bytes ++ t).drop f.total = t := by
    rw [← f.length_bytes]
    exact List.drop_left ..
  rw [nextFrame, if_pos (whole_bytes f t), payload_bytes, headOf_bytes]
  simp only [Frame.head, Int.toNat_natCast, hrest]

theorem nextFrame_nil : nextFrame [] = none := rfl

/-! ## Parts of a stream of frames -/

/-- The bytes of frames one after another. -/
def stream (fs : List Frame) : Bytes := (fs.map Frame.bytes).flatten

theorem stream_cons (f : Frame) (fs : List Frame) : stream (f :: fs) = f.bytes ++ stream fs := rfl

@[simp] theorem length_stream_cons (f : Frame) (fs : List Frame) :
    (stream (f :: fs)).length = f.total + (stream fs).length := by
  rw [stream_cons, List.length_append, f.length_bytes]

/-- The front of a stream is a part of its first frame, or this frame and the front of the rest. -/
theorem front_cases {s u : Bytes} {f : Frame} {fs : List Frame} (h : s ++ u = stream (f :: fs)) :
    (s.length < f.total ∧ ∃ v, s ++ v = f.bytes) ∨ ∃ v, s = f.bytes ++ v ∧ v ++ u = stream fs := by
  rw [stream_cons] at h
  rcases List.append_eq_append_iff.mp h with ⟨v, hv, hu⟩ | ⟨v, hv, hrest⟩
  · -- the bytes end in the frame, or just where it ends
    by_cases hlt : s.length < f.total
    · exact Or.inl ⟨hlt, v, hv.symm⟩
    · have hlen := congrArg List.length hv
      rw [List.length_append, f.length_bytes] at hlen
      have hnil : v = [] := List.eq_nil_of_length_eq_zero (by omega)
      subst hnil
      rw [List.append_nil] at hv
      exact Or.inr ⟨[], by rw [hv, List.append_nil], hu⟩
  · exact Or.inr ⟨v, hv, hrest.symm⟩

/-- The bytes go on as a stream of frames. -/
def Aligned (s : Bytes) : Prop := ∃ t fs, s ++ t = stream fs

theorem Aligned.left {s t : Bytes} (h : Aligned (s ++ t)) : Aligned s := by
  obtain ⟨u, fs, he⟩ := h
  exact ⟨t ++ u, fs, by rw [← List.append_assoc, he]⟩

/-- Aligned bytes are empty, or a frame and aligned bytes, or a part of a frame. -/
theorem Aligned.cases {s : Bytes} (h : Aligned s) :
    s = [] ∨ (∃ (f : Frame) (t : Bytes), s = f.bytes ++ t ∧ Aligned t) ∨
      (∃ (f : Frame) (u : Bytes), s.length < f.total ∧ s ++ u = f.bytes) := by
  obtain ⟨t, fs, he⟩ := h
  cases fs with
  | nil => exact Or.inl (List.append_eq_nil_iff.mp he).1
  | cons f fs =>
    rcases front_cases he with ⟨hlt, v, hv⟩ | ⟨v, hs, hrest⟩
    · exact Or.inr (Or.inr ⟨f, v, hlt, hv⟩)
    · exact Or.inr (Or.inl ⟨f, v, hs, t, fs, hrest⟩)

theorem nextFrame_part {s u : Bytes} {f : Frame} (hlt : s.length < f.total)
    (he : s ++ u = f.bytes) :
    nextFrame s = none := by
  unfold nextFrame
  split
  · rename_i hw
    have hhead := headOf_append hw.1 u
    have hfront := headOf_bytes f []
    rw [List.append_nil] at hfront
    rw [he, hfront] at hhead
    have hend := hw.2.2.2
    rw [← hhead] at hend
    simp only [Frame.head] at hend
    omega
  · rfl

theorem Aligned.behind {f : Frame} {w : Bytes} (h : Aligned (f.bytes ++ w)) : Aligned w := by
  obtain ⟨u, fs, he⟩ := h
  have hf := nextFrame_bytes f (w ++ u)
  rw [← List.append_assoc, he] at hf
  cases fs with
  | nil => cases hf
  | cons g gs =>
    rw [stream_cons, nextFrame_bytes] at hf
    exact ⟨u, gs, (congrArg Prod.snd (Option.some.inj hf)).symm⟩

/-- What the decoder leaves of a part goes on as the whole did. -/
theorem Aligned.drain {s t : Bytes} (h : Aligned (s ++ t)) :
    Aligned ((frameDecoder.drain s).2 ++ t) := by
  induction hn : s.length using Nat.strongRecOn generalizing s with
  | ind n ih =>
    subst hn
    cases hx : frameDecoder.next s with
    | none => rwa [drain_none frameDecoder hx]
    | some q =>
      obtain ⟨x, r⟩ := q
      rw [drain_some frameDecoder hx]
      have hx' : nextFrame s = some (x, r) := hx
      rcases h.left.cases with rfl | ⟨f, w, rfl, _⟩ | ⟨f, u, hlt, he⟩
      · rw [nextFrame_nil] at hx'
        cases hx'
      · rw [nextFrame_bytes] at hx'
        obtain ⟨rfl, rfl⟩ := Prod.mk.inj (Option.some.inj hx')
        rw [List.append_assoc] at h
        exact ih _ (frameDecoder.shorter hx) h.behind rfl
      · rw [nextFrame_part hlt he] at hx'
        cases hx'

/-! ## The laws -/

/-- A stream of frames gives back the payloads and leaves nothing, however it is cut. -/
theorem a_cut_stream_gives_back_its_payloads (fs : List Frame) {cs : List Bytes}
    (h : cs.flatten = stream fs) : frameDecoder.feed [] cs = (fs.map Frame.data, []) := by
  have hnil : frameDecoder.next [] = none := nextFrame_nil
  have hnext : ∀ (f : Frame) (t : Bytes), frameDecoder.next (f.bytes ++ t) = some (f.data, t) := by
    intro f t
    rw [frameDecoder_next]
    exact nextFrame_bytes f t
  rw [feed_eq_drain frameDecoder cs hnil, List.nil_append, h]
  exact drain_flatten frameDecoder fs hnil (fun f _ t => hnext f t)

end util.frame
