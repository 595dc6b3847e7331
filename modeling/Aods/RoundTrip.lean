-- The frames of `EncodeMsg` through the receive loop. The sender's block holds
-- a frame of the format, and a turn of the loop does on its buffer what the
-- decoder does on bytes. The law: payloads come through any cut of the stream.
import Aods.Frame
import Aods.SockChannel

open flat_memory fuel_loop segmentation machine
open util.mem_cache util.encrypt util.commu_protocol util.commu_protocol.CAoCommuProtocol
open util.sock_channel util.frame

namespace util.round_trip

/-- The cipher has the tables of `Default`; its key may be any. -/
structure DefaultTables (ae : CAoEncrypt) : Prop where
  en : ae.en_sk_dict = CAoEncrypt.default.en_sk_dict
  de : ae.de_sk_dict = CAoEncrypt.default.de_sk_dict

theorem DefaultTables.setKey {ae : CAoEncrypt} (h : DefaultTables ae) (key : Bytes) (len : Int) :
    DefaultTables (ae.setKey key len) :=
  ⟨by rw [CAoEncrypt.setKey_en, h.en], by rw [CAoEncrypt.setKey_de, h.de]⟩

theorem defaultTables_new (a b : Option (Mem UInt8)) (n : Nat) : DefaultTables (new a b n).ae := by
  have h : DefaultTables CAoEncrypt.default := ⟨Eq.refl _, Eq.refl _⟩
  rw [new]
  dsimp only
  exact h.setKey _ _

/-- The key bytes that `SetKey` takes from a block are those of the key in it. -/
theorem keyList_eq {m : Mem UInt8} {key : Bytes} (code : Int) (hne : key.length ≠ 0)
    (h : read m 12 key.length = key) :
    (List.range 16).map (fun n : Nat => uchar code + m (12 + Int.tmod n key.length)) =
      schedule code key := by
  unfold schedule
  apply List.map_congr_left
  intro n _
  have hlt : n % key.length < key.length := Nat.mod_lt _ (Nat.pos_of_ne_zero hne)
  have hcell := getElem?_read m 12 hlt
  rw [h] at hcell
  have hmod : Int.tmod (n : Int) (key.length : Int) = ((n % key.length : Nat) : Int) :=
    (Int.ofNat_tmod n key.length).symm
  rw [hmod, List.getD_eq_getElem?_getD, hcell]
  rfl

/-! ## The sender -/

/-- A payload to send: the block that the allocator gives for it, the numbers that
`rand` draws for it, and a frame of no more than the longest length. -/
structure Send where
  got : Mem UInt8
  rand : Nat → Nat
  payload : Bytes
  fits : 12 + keyLenOf payload.length + payload.length ≤ 1048576

/-- The frame that `EncodeMsg` makes of a payload. -/
def Send.frame (s : Send) : Frame where
  code := (s.rand 0 % 0x20 : Nat) + 0xaf
  key := (List.range (keyLenOf s.payload.length)).map
    (fun n => UInt8.ofNat (s.rand (n + 1) % (0xaf - 0x3f) + 0x3f))
  data := s.payload
  code_pos := by omega
  code_small := by omega
  key_len := by simp
  fits := by simpa using s.fits

/-- The writes of `EncodeMsg`, in its order, lay one run of bytes. -/
theorem write_frame (m : Mem UInt8) {a b c : Bytes} (ha : a.length = 4) (hb : b.length = 4)
    (hc : c.length = 4) (key data : Bytes) :
    write (write (write (write (write m 0 a) 8 c) 4 b) 12 key) (12 + (key.length : Int)) data =
      write m 0 (a ++ b ++ c ++ (key ++ data)) := by
  have h4 : (4 : Int) = 0 + (a.length : Int) := by omega
  have h8 : (8 : Int) = 0 + ((a ++ b).length : Int) := by
    rw [List.length_append]
    omega
  have h12 : (12 : Int) = 0 + ((a ++ b ++ c).length : Int) := by
    rw [List.length_append, List.length_append]
    omega
  have hswap : write (write (write m 0 a) 8 c) 4 b = write (write (write m 0 a) 4 b) 8 c :=
    write_comm _ (Or.inr (by omega))
  rw [hswap, write_write_append _ 12 key, h4, write_write_append, h8, write_write_append, h12,
    write_write_append]

/-- `Encode` as `EncodeMsg` calls it, over a block that holds the head, the key and
the payload, leaves the frame in it. -/
theorem encode_frame {ae : CAoEncrypt} (h : DefaultTables ae) (f : Frame) {m : Mem UInt8}
    {d : Bytes} (hlen : d.length = 12) :
    ∃ ae', encode f.code f.key.length 12 (12 + (f.key.length : Int)) (i32 f.data.length)
        (write m 0 (d ++ (f.key ++ f.data))) ae = .ok (ae', write m 0 (d ++ (f.key ++ f.cipher))) ∧
      DefaultTables ae' := by
  have hsmall := f.fits
  have hi32 : i32 f.data.length = f.data.length := i32_of_range (by omega) (by omega)
  rw [encode, crypt, hi32]
  by_cases hnil : f.data = []
  · -- an empty payload is not encrypted
    have hskip : ((f.data.length : Int) < 1 ∨ f.code = 0) := Or.inl (by simp [hnil])
    have hcipher : f.cipher = f.data := by
      rw [hnil]
      exact List.eq_nil_of_length_eq_zero (by rw [f.length_cipher, hnil]; rfl)
    rw [if_pos hskip, hcipher]
    exact ⟨ae, rfl, h⟩
  · have hpos := List.length_pos_of_ne_nil hnil
    have hcode := f.code_pos
    have hgo : ¬ ((f.data.length : Int) < 1 ∨ f.code = 0) := by omega
    have hkey : f.key.length ≠ 0 := fun hz => hnil (f.data_nil_of_key_nil hz)
    have hkey' : ¬ (f.key.length : Int) = 0 := by omega
    rw [if_neg hgo, setKey, if_neg hkey']
    -- what the block holds behind the head
    have hcast : (12 : Int) = 0 + (d.length : Int) := by omega
    have hsplit : write m 0 (d ++ (f.key ++ f.data)) =
        write (write (write m 0 d) 12 f.key) (12 + (f.key.length : Int)) f.data := by
      rw [hcast, ← write_write_append m 0 d, ← write_write_append _ _ f.key]
    have hread : read (write m 0 (d ++ (f.key ++ f.data))) 12 f.key.length = f.key := by
      rw [hsplit, read_write_of_disjoint _ _ (Or.inl (Int.le_refl _)), read_write_self]
    have hdata : read (write m 0 (d ++ (f.key ++ f.data))) (12 + (f.key.length : Int))
        f.data.length = f.data := by
      rw [hsplit, read_write_self]
    refine ⟨ae.setKey (schedule f.code f.key) 16, ?_, h.setKey _ _⟩
    rw [keyList_eq f.code hkey hread]
    have hcipher : (ae.setKey (schedule f.code f.key) 16).encode f.data = f.cipher := by
      rw [CAoEncrypt.setKey_congr h.en h.de]
      rfl
    simp only [Except.map, Int.toNat_natCast, hdata, hcipher]
    rw [hsplit, write_write_same _ _ (f.length_cipher).symm, hcast,
      ← write_write_append m 0 d, ← write_write_append _ _ f.key]

theorem encodeMsg_frame {p : CAoCommuProtocol} (h : DefaultTables p.ae) (s : Send) :
    ∃ p', p.encodeMsg (some s.got) s.rand s.payload = .ok (p', some s.frame.bytes) ∧
      DefaultTables p'.ae := by
  have hfits := s.fits
  have hkey : keyLenOf s.payload.length = s.frame.key.length := s.frame.key_len.symm
  have htotal : s.frame.total = 12 + s.frame.key.length + s.payload.length := rfl
  have hle : s.frame.total ≤ 1048576 := s.frame.total_le
  have hlen : u32 ((s.payload.length : Int) + enAoMsgSize + s.frame.key.length) =
      s.frame.total := by
    rw [enAoMsgSize]
    unfold u32
    omega
  have hi32 : i32 ((s.payload.length : Int) + enAoMsgSize + s.frame.key.length) =
      s.frame.total := by
    rw [enAoMsgSize, i32_of_range (by omega) (by omega)]
    omega
  obtain ⟨m, hm⟩ := CAoMemCache.appendBuf_room p.encode_amc.reset s.got
    (show 1 ≤ s.frame.total by omega)
  have hoff : ((12 + s.frame.key.length : Nat) : Int) = 12 + (s.frame.key.length : Int) := by omega
  obtain ⟨ae, hae, htab⟩ := encode_frame h s.frame (m := m)
    (d := le32 s.frame.total ++ le32 s.frame.code ++ le32 s.frame.key.length) rfl
  have hkeys : (List.range s.frame.key.length).map
      (fun n => UInt8.ofNat (s.rand (n + 1) % (0xaf - 0x3f) + 0x3f)) = s.frame.key := by
    rw [← hkey]
    rfl
  have hcode : s.frame.code = (s.rand 0 % 0x20 : Nat) + 0xaf := rfl
  have hpay : s.frame.data = s.payload := rfl
  have h12 : ((12 : Nat) : Int) = 12 := rfl
  have hbytes : read (write m 0 s.frame.bytes) 0 s.frame.total = s.frame.bytes := by
    rw [← s.frame.length_bytes]
    exact read_write_self m 0 _
  rw [← write_frame m rfl rfl rfl s.frame.key s.frame.data, hcode, hpay] at hae
  rw [encodeMsg]
  simp only [hkey, hlen, hi32, hm, hkeys]
  simp only [enAoMsgSize, hoff, h12, hae]
  exact ⟨_, congrArg (fun b => Except.ok (_, some b)) hbytes, htab⟩

/-! ## The receiver -/

/-- The decode buffer of `p` holds the bytes `s`, with room to count them. -/
structure Holds (p : CAoCommuProtocol) (s : Bytes) : Prop where
  sound : p.decode_amc.Sound
  content : p.decode_amc.content = s
  small : s.length < 2147483648
  step : p.decode_amc.apped_step_size = enStepAppendSize
  tables : DefaultTables p.ae

theorem Holds.block {p : CAoCommuProtocol} {s : Bytes} (h : Holds p s) :
    ∃ m, p.decode_amc.cache = some m ∧ read m 0 p.decode_amc.cache_off = s := by
  obtain ⟨m, hm⟩ := Option.isSome_iff_exists.mp h.sound.block
  exact ⟨m, hm, by rw [← CAoMemCache.content_some hm, h.content]⟩

theorem Holds.off {p : CAoCommuProtocol} {s : Bytes} (h : Holds p s) :
    p.decode_amc.cache_off = s.length := by
  rw [← CAoMemCache.length_content h.sound, h.content]

theorem holds_new (a : Mem UInt8) (b : Option (Mem UInt8)) : Holds (new (some a) b 10240) [] where
  sound := CAoMemCache.sound_new a _ (by decide)
  content := CAoMemCache.content_new a _ _
  small := by decide
  step := rfl
  tables := defaultTables_new _ _ _

/-- The head in the block is the head of the bytes that it holds. -/
theorem aoMsg_of_read {m : Mem UInt8} {n : Nat} {s : Bytes} (h : read m 0 n = s) (hn : 12 ≤ n) :
    aoMsg m = headOf s := by
  have h4 : read m 4 4 = (s.drop 4).take 4 :=
    read_of_le (read_drop h (show 4 ≤ n by omega)) (by omega)
  have h8 : read m 8 4 = (s.drop 8).take 4 :=
    read_of_le (read_drop h (show 8 ≤ n by omega)) (by omega)
  rw [aoMsg, headOf, read_of_le h (show 4 ≤ n by omega), h4, h8]

/-- Where the key and the cipher text of a frame at the front lie in the block. -/
theorem read_frame {m : Mem UInt8} {f : Frame} {t : Bytes} {n : Nat} (h : read m 0 n = f.bytes ++ t)
    (hn : f.total ≤ n) : read m 12 f.key.length = f.key ∧
      read m (12 + (f.key.length : Int)) f.data.length = f.cipher := by
  have htotal : f.total = 12 + f.key.length + f.data.length := rfl
  obtain ⟨hkey, hcipher⟩ := bytes_split f t
  have hbehind : read m 12 (n - 12) = (f.bytes ++ t).drop 12 :=
    read_drop h (show 12 ≤ n by omega)
  refine ⟨(read_of_le hbehind (by omega)).trans hkey, ?_⟩
  have hrest := read_drop hbehind (show f.key.length ≤ n - 12 by omega)
  rw [read_of_le hrest (show f.data.length ≤ n - 12 - f.key.length by omega), List.drop_drop,
    ← hcipher, List.drop_take]
  congr 1
  omega

theorem contentOf_frame (f : Frame) :
    contentOf f.head = ⟨12 + (f.key.length : Int), f.data.length⟩ := by
  have hfits := f.fits
  have hlen : u32 ((f.total : Int) - enAoMsgSize - f.key.length) = f.data.length := by
    rw [Frame.total, enAoMsgSize]
    unfold u32
    omega
  rw [contentOf, Frame.head]
  simp only [hlen]
  rfl

theorem decrypts_frame (f : Frame) : Decrypts f.head ↔ f.data ≠ [] := by
  have hfits := f.fits
  have hcode := f.code_pos
  rw [Decrypts, contentOf_frame, ← List.length_pos_iff,
    i32_of_range (by simp only; omega) (by simp only; omega)]
  simp only [Frame.head]
  omega

theorem not_dividesByZero_frame (f : Frame) : ¬ DividesByZero f.head := by
  rintro ⟨hd, hk⟩
  have hlen : f.key.length = 0 := Int.natCast_eq_zero.mp hk
  exact (decrypts_frame f).mp hd (f.data_nil_of_key_nil hlen)

/-- The decryption of a frame at the front lays its payload in the block. -/
theorem decoded_frame {m : Mem UInt8} {ae : CAoEncrypt} (htab : DefaultTables ae) {f : Frame}
    (hkey : read m 12 f.key.length = f.key)
    (hcipher : read m (12 + (f.key.length : Int)) f.data.length = f.cipher) :
    DefaultTables (decoded f.head m ae).1 ∧
      read (decoded f.head m ae).2 (12 + (f.key.length : Int)) f.data.length = f.data := by
  have hfits := f.fits
  by_cases hnil : f.data = []
  · have hd : ¬ Decrypts f.head := fun hd => (decrypts_frame f).mp hd hnil
    rw [decoded, if_neg hd, hnil]
    exact ⟨htab, rfl⟩
  · have hd := (decrypts_frame f).mpr hnil
    have hlen : f.key.length ≠ 0 := fun hz => hnil (f.data_nil_of_key_nil hz)
    have hkeyed : keyed f.head m ae = cipherOf f.code f.key := by
      have hlist := keyList_eq f.code hlen hkey
      rw [cipherOf, ← CAoEncrypt.setKey_congr htab.en htab.de, ← hlist]
      rfl
    have hi32 : (i32 (f.data.length : Int)).toNat = f.data.length := by
      rw [i32_of_range (by omega) (by omega), Int.toNat_natCast]
    have hplain : (cipherOf f.code f.key).decode f.cipher = f.data :=
      CAoEncrypt.decode_encode (CAoEncrypt.paired_setKey CAoEncrypt.paired_default _ _) _
    rw [decoded, if_pos hd, hkeyed, contentOf_frame]
    simp only [hi32, hcipher, hplain]
    have h : DefaultTables CAoEncrypt.default := ⟨Eq.refl _, Eq.refl _⟩
    exact ⟨h.setKey _ _, read_write_self m _ _⟩

/-- The guards let the head of a frame through that has arrived. -/
theorem accepts_frame {p : CAoCommuProtocol} {f : Frame} {t : Bytes} {m : Mem UInt8}
    (h : Holds p (f.bytes ++ t)) (hm : p.decode_amc.cache = some m) (hhead : aoMsg m = f.head) :
    p.Accepts f.head := by
  have hoff := h.off
  have hsmall := h.small
  rw [List.length_append, f.length_bytes] at hoff hsmall
  have htotal : f.total = 12 + f.key.length + f.data.length := rfl
  have hle := f.total_le
  have hfit : i32 ((f.key.length : Int) + enAoMsgSize) = f.key.length + 12 := by
    rw [enAoMsgSize, i32_of_range (by omega) (by omega)]
    rfl
  have harrived : i32 p.decode_amc.cache_off = f.total + t.length := by
    rw [hoff, i32_of_range (by omega) (by omega)]
    omega
  refine ⟨?_, by simp [head, hm, hhead], ?_, ?_, ?_⟩
  · rw [enAoMsgSize]
    omega
  · rw [Frame.head, enMaxProtocolLen]
    dsimp only
    omega
  · rw [Frame.head, hfit]
    dsimp only
    omega
  · rw [harrived, Frame.head]
    dsimp only
    omega

/-- The decryption of a frame stays behind the head and before the next frame. -/
theorem decoded_frame_outside (f : Frame) (m : Mem UInt8) (ae : CAoEncrypt) {i : Int}
    (hi : i < 12 ∨ (f.total : Int) ≤ i) :
    (decoded f.head m ae).2 i = m i := by
  have htotal : f.total = 12 + f.key.length + f.data.length := rfl
  apply decoded_outside
  rw [contentOf_frame]
  dsimp only
  omega

/-- The guards let a frame at the front through, and its length is read again as it was. -/
theorem reread_frame {p : CAoCommuProtocol} {f : Frame} {t : Bytes} {m : Mem UInt8}
    (h : Holds p (f.bytes ++ t)) (hm : p.decode_amc.cache = some m) :
    p.Accepts f.head ∧ u32 (reread p f.head m) = f.total := by
  obtain ⟨m', hm', hread⟩ := h.block
  rw [hm] at hm'
  cases hm'
  have hoff := h.off
  rw [List.length_append, f.length_bytes] at hoff
  have htotal : f.total = 12 + f.key.length + f.data.length := rfl
  have hle := f.total_le
  have hhead : aoMsg m = f.head := by rw [aoMsg_of_read hread (by omega), headOf_bytes]
  have hre : reread p f.head m = f.total := by
    rw [reread, aoMsg_congr (fun i _ h12 => decoded_frame_outside f m p.ae (Or.inl h12)), hhead]
    rfl
  refine ⟨accepts_frame h hm hhead, ?_⟩
  rw [hre]
  unfold u32
  omega

/-- A turn takes a frame off the front and hands out its payload. -/
theorem turn_frame {p : CAoCommuProtocol} {f : Frame} {t : Bytes} (h : Holds p (f.bytes ++ t)) :
    ∃ p', turn p = .next p' f.data ∧ Holds p' t := by
  obtain ⟨m, hm, hread⟩ := h.block
  have hoff := h.off
  have hsmall := h.small
  rw [List.length_append, f.length_bytes] at hoff hsmall
  obtain ⟨hacc, hre⟩ := reread_frame h hm
  obtain ⟨hkey, hcipher⟩ := read_frame hread (show f.total ≤ p.decode_amc.cache_off by omega)
  obtain ⟨htab, hdata⟩ := decoded_frame h.tables hkey hcipher
  have hturn := turn_of_accepts hacc (not_dividesByZero_frame f) hm
  rw [contentOf_frame, hdata] at hturn
  refine ⟨_, hturn, ?_⟩
  have hsound : (p.withDecoded (decoded f.head m p.ae)).decode_amc.Sound := ⟨rfl, h.sound.fits⟩
  obtain ⟨hsound', hcontent⟩ := CAoMemCache.remove_content hsound
    (show f.total ≤ (p.withDecoded (decoded f.head m p.ae)).decode_amc.cache_off from by
      show f.total ≤ p.decode_amc.cache_off
      omega)
  have hamc := advance_amc p f.head m
  rw [hre] at hamc
  refine ⟨by rw [hamc]; exact hsound', ?_, by omega, ?_, htab⟩
  · have hsame : read (decoded f.head m p.ae).2 (0 + (f.total : Int))
        (p.decode_amc.cache_off - f.total) =
        read m (0 + (f.total : Int)) (p.decode_amc.cache_off - f.total) :=
      read_congr (fun i _ => decoded_frame_outside f m p.ae (Or.inr (by omega)))
    have hle' : f.total ≤ p.decode_amc.cache_off := by omega
    rw [read_drop rfl hle', read_drop hread hle'] at hsame
    rw [hamc, hcontent]
    refine hsame.trans ?_
    rw [← f.length_bytes]
    exact List.drop_left ..
  · rw [hamc, CAoMemCache.step_remove]
    exact h.step

theorem turn_part {p : CAoCommuProtocol} {f : Frame} {s u : Bytes} (h : Holds p s)
    (hlt : s.length < f.total) (he : s ++ u = f.bytes) : turn p = .stop (.ok (p, 0)) := by
  have hoff := h.off
  by_cases h12 : p.decode_amc.cache_off < enAoMsgSize
  · rw [turn, getContent_of_short h12]
  · rw [enAoMsgSize] at h12
    obtain ⟨m, hm, hread⟩ := h.block
    have hfront := headOf_bytes f []
    rw [List.append_nil, ← he, headOf_append (by omega)] at hfront
    have hhead : aoMsg m = f.head := by rw [aoMsg_of_read hread (by omega), hfront]
    have hle := f.total_le
    have htotal : f.total = 12 + f.key.length + f.data.length := rfl
    have hfit : i32 ((f.key.length : Int) + enAoMsgSize) = f.key.length + 12 := by
      rw [enAoMsgSize, i32_of_range (by omega) (by omega)]
      rfl
    have hpart : i32 (p.decode_amc.cache_off : Int) = s.length := by
      rw [hoff, i32_of_range (by omega) (by omega)]
    rw [turn, getContent_of_partial (by rw [enAoMsgSize]; omega) hm]
    · rw [hhead, Frame.head, enMaxProtocolLen]
      dsimp only
      omega
    · rw [hhead, Frame.head, hfit]
      dsimp only
      omega
    · rw [hhead, Frame.head, hpart]
      dsimp only
      omega

theorem turn_empty {p : CAoCommuProtocol} (h : Holds p []) : turn p = .stop (.ok (p, 0)) := by
  have hoff := h.off
  rw [turn, getContent_of_short (by rw [hoff]; decide)]

/-! ## Chunk after chunk -/

/-- A buffer that goes on as frames and has no whole frame holds less than one. -/
theorem short_of_none {s : Bytes} (h : Aligned s) (hn : nextFrame s = none) :
    s.length < 1048576 := by
  rcases h.cases with rfl | ⟨f, t, rfl, _⟩ | ⟨f, u, hlt, _⟩
  · decide
  · rw [nextFrame_bytes] at hn
    cases hn
  · have := f.total_le
    omega

/-- The loop over a buffer that goes on as frames gives the decoder's payloads. -/
theorem loop_holds {p : CAoCommuProtocol} {s : Bytes} (h : Holds p s) (ha : Aligned s) {fuel : Nat}
    (hf : s.length < fuel) :
    ∃ p', loop turn fuel p = some (.ok (p', 0), (frameDecoder.drain s).1) ∧
      Holds p' (frameDecoder.drain s).2 ∧ Aligned (frameDecoder.drain s).2 := by
  have hstop : ∀ p s, (Holds p s ∧ Aligned s) → frameDecoder.next s = none →
      ∃ w, turn p = .stop w ∧ ∃ p', w = .ok (p', 0) ∧ Holds p' s ∧ Aligned s := by
    rintro p s ⟨h, ha⟩ hn
    rcases ha.cases with rfl | ⟨f, t, rfl, _⟩ | ⟨f, u, hlt, he⟩
    · exact ⟨_, turn_empty h, p, rfl, h, ha⟩
    · have hn' : nextFrame (f.bytes ++ t) = none := hn
      rw [nextFrame_bytes] at hn'
      cases hn'
    · exact ⟨_, turn_part h hlt he, p, rfl, h, ha⟩
  have hnext : ∀ p s x r, (Holds p s ∧ Aligned s) → frameDecoder.next s = some (x, r) →
      ∃ p', turn p = .next p' x ∧ (Holds p' r ∧ Aligned r) := by
    rintro p s x r ⟨h, ha⟩ hn
    have hn' : nextFrame s = some (x, r) := hn
    rcases ha.cases with rfl | ⟨f, t, rfl, hat⟩ | ⟨f, u, hlt, he⟩
    · rw [nextFrame_nil] at hn'
      cases hn'
    · rw [nextFrame_bytes] at hn'
      cases hn'
      obtain ⟨p', ht, hp'⟩ := turn_frame h
      exact ⟨p', ht, hp', hat⟩
    · rw [nextFrame_part hlt he] at hn'
      cases hn'
  obtain ⟨w, hw, p', rfl, hp', ha'⟩ :=
    loop_refines frameDecoder (R := fun p s => Holds p s ∧ Aligned s)
      (Q := fun w s => ∃ p', w = .ok (p', 0) ∧ Holds p' s ∧ Aligned s) hstop hnext ⟨h, ha⟩ hf
  exact ⟨p', hw, hp', ha'⟩

/-- What arrives in one read: some bytes, and the block that the allocator gives if
the buffer must grow. The callers of `ReadData` read 10240 bytes at most; here the
bytes need only be so few that an `int` still counts the buffer. -/
structure Chunk where
  got : Mem UInt8
  bytes : Bytes
  some_arrived : bytes ≠ []
  counted : bytes.length + 1048576 < 2147483648

/-- `ReadData` for chunk after chunk: what each call answers, and the protocol after
the last. -/
def readAll (fuel : Nat) : List Chunk → CAoCommuProtocol →
    Option (Except Fault (List Readed × CAoCommuProtocol))
  | [], p => some (.ok ([], p))
  | c :: cs, p =>
    match readData fuel (some c.got) (.ok c.bytes) p with
    | none => none
    | some (.error f) => some (.error f)
    | some (.ok r) => (readAll fuel cs r.acp).map (fun q => q.map (fun q => (r :: q.1, q.2)))

theorem Holds.append {p : CAoCommuProtocol} {buf : Bytes} (c : Chunk) (h : Holds p buf)
    (hsmall : (buf ++ c.bytes).length < 2147483648) :
    ∃ p', p.appendDecodeData (some c.got) c.bytes = (true, p') ∧ Holds p' (buf ++ c.bytes) := by
  have hoff := h.off
  rw [List.length_append] at hsmall
  obtain ⟨amc, happ, hsound, hcontent, _, hstep⟩ := CAoMemCache.appendBuf_content h.sound c.got
    c.some_arrived (by rw [h.step, hoff, enStepAppendSize]; omega)
  refine ⟨{ p with decode_amc := amc }, by
    rw [appendDecodeData, happ], hsound, ?_, ?_, hstep.trans h.step, h.tables⟩
  · rw [← h.content]
    exact hcontent
  · rw [List.length_append]
    exact hsmall

/-- One read over a buffer that goes on as frames. -/
theorem readData_holds {p : CAoCommuProtocol} {buf : Bytes} (c : Chunk) (h : Holds p buf)
    (hn : nextFrame buf = none) (ha : Aligned (buf ++ c.bytes)) {fuel : Nat}
    (hf : (buf ++ c.bytes).length < fuel) :
    ∃ p', readData fuel (some c.got) (.ok c.bytes) p =
        some (.ok ⟨c.bytes.length, p', (frameDecoder.drain (buf ++ c.bytes)).1, 0⟩) ∧
      Holds p' (frameDecoder.drain (buf ++ c.bytes)).2 ∧
      Aligned (frameDecoder.drain (buf ++ c.bytes)).2 := by
  have hshort := short_of_none ha.left hn
  have hcounted := c.counted
  obtain ⟨q, hq, hholds⟩ := h.append c (by rw [List.length_append]; omega)
  obtain ⟨p', hl, hp', ha'⟩ := loop_holds hholds ha hf
  refine ⟨p', ?_, hp', ha'⟩
  rw [readData_loop c.some_arrived (by rw [hq]), hq, hl]
  rfl

/-- Read after read gives what the decoder gives chunk after chunk. -/
theorem readAll_feed {fuel : Nat} (cs : List Chunk) {p : CAoCommuProtocol} {buf : Bytes}
    (h : Holds p buf) (hn : nextFrame buf = none)
    (ha : Aligned (buf ++ (cs.map Chunk.bytes).flatten))
    (hf : (buf ++ (cs.map Chunk.bytes).flatten).length < fuel) :
    ∃ rs p', readAll fuel cs p = some (.ok (rs, p')) ∧ (∀ r ∈ rs, r.n_is_err = 0) ∧
      (rs.map Readed.msgs).flatten = (frameDecoder.feed buf (cs.map Chunk.bytes)).1 ∧
      Holds p' (frameDecoder.feed buf (cs.map Chunk.bytes)).2 := by
  induction cs generalizing p buf with
  | nil => exact ⟨[], p, rfl, by simp, rfl, h⟩
  | cons c cs ih =>
    rw [List.map_cons, List.flatten_cons, ← List.append_assoc] at ha hf
    have hlen : (buf ++ c.bytes).length < fuel := by
      rw [List.length_append] at hf
      omega
    obtain ⟨p1, hr, hp1, _⟩ := readData_holds c h hn ha.left hlen
    have hleft := drain_length_le frameDecoder (buf ++ c.bytes)
    obtain ⟨rs, p', hrs, herr, hmsgs, hp'⟩ := ih hp1 (next_drain frameDecoder _) ha.drain
      (by rw [List.length_append] at hf ⊢; omega)
    refine ⟨_ :: rs, p', by rw [readAll, hr]; simp only [hrs]; rfl, ?_, ?_, hp'⟩
    · intro r hmem
      rcases List.mem_cons.mp hmem with rfl | hmem
      · rfl
      · exact herr r hmem
    · rw [List.map_cons, List.flatten_cons, hmsgs]
      rfl

/-! ## The law -/

/-- `EncodeMsg` for payload after payload: the bytes of all frames, and the protocol
after the last. -/
def encodeAll : List Send → CAoCommuProtocol → Except Fault (Bytes × CAoCommuProtocol)
  | [], p => .ok ([], p)
  | s :: ss, p =>
    match p.encodeMsg (some s.got) s.rand s.payload with
    | .error f => .error f
    | .ok (p, none) => encodeAll ss p
    | .ok (p, some bs) => (encodeAll ss p).map (fun q => (bs ++ q.1, q.2))

theorem encodeAll_stream (ss : List Send) {p : CAoCommuProtocol} (h : DefaultTables p.ae) :
    ∃ p', encodeAll ss p = .ok (stream (ss.map Send.frame), p') := by
  induction ss generalizing p with
  | nil => exact ⟨p, rfl⟩
  | cons s ss ih =>
    obtain ⟨p1, he, h1⟩ := encodeMsg_frame h s
    obtain ⟨p', he'⟩ := ih h1
    exact ⟨p', by rw [encodeAll, he]; simp only [he']; rfl⟩

/-- Payloads sent one after another come through any cut of their bytes into chunks:
each once, in order, with no error, and with nothing left in the decode buffer. The
two protocols are as their constructor leaves them, over any blocks. -/
theorem payloads_come_through_any_cut (a b a' b' : Mem UInt8) (ss : List Send) :
    ∃ sent sender, encodeAll ss (new (some a) (some b) 10240) = .ok (sent, sender) ∧
      ∀ (cs : List Chunk) (fuel : Nat), (cs.map Chunk.bytes).flatten = sent → sent.length < fuel →
        ∃ rs p', readAll fuel cs (new (some a') (some b') 10240) = some (.ok (rs, p')) ∧
          (rs.map Readed.msgs).flatten = ss.map Send.payload ∧ (∀ r ∈ rs, r.n_is_err = 0) ∧
          p'.decode_amc.cache_off = 0 := by
  obtain ⟨sender, henc⟩ := encodeAll_stream ss (defaultTables_new (some a) (some b) 10240)
  refine ⟨_, sender, henc, fun cs fuel hcut hf => ?_⟩
  have haligned : Aligned ([] ++ (cs.map Chunk.bytes).flatten) :=
    ⟨[], ss.map Send.frame, by rw [List.nil_append, List.append_nil, hcut]⟩
  have hf' : ([] ++ (cs.map Chunk.bytes).flatten).length < fuel := by rwa [List.nil_append, hcut]
  obtain ⟨rs, p', hrs, herr, hmsgs, hp'⟩ := readAll_feed cs (holds_new a' (some b')) nextFrame_nil
    haligned hf'
  have hfeed := a_cut_stream_gives_back_its_payloads (ss.map Send.frame) hcut
  rw [hfeed] at hmsgs hp'
  refine ⟨rs, p', hrs, ?_, herr, ?_⟩
  · rw [hmsgs, List.map_map]
    rfl
  · rw [hp'.off]
    rfl

/-- An empty payload and one of two bytes, cut inside the first head and inside the key. -/
theorem two_payloads_come_through_three_chunks :
    let z : Mem UInt8 := fun _ => 0
    let ss : List Send := [⟨z, fun _ => 0, [], by decide⟩, ⟨z, fun _ => 0, [1, 2], by decide⟩]
    let cs : List Chunk := [⟨z, [12, 0, 0, 0, 175], by decide, by decide⟩,
      ⟨z, [0, 0, 0, 0, 0, 0, 0, 16, 0, 0, 0, 175, 0, 0, 0, 2, 0, 0, 0, 63], by decide, by decide⟩,
      ⟨z, [63, 11, 12], by decide, by decide⟩]
    ∃ rs p', readAll 29 cs (new (some z) (some z) 10240) = some (.ok (rs, p')) ∧
      (rs.map Readed.msgs).flatten = ss.map Send.payload ∧ (∀ r ∈ rs, r.n_is_err = 0) ∧
      p'.decode_amc.cache_off = 0 := by
  intro z ss cs
  obtain ⟨sender, henc⟩ := encodeAll_stream ss (defaultTables_new (some z) (some z) 10240)
  have hstream : stream (ss.map Send.frame) = (cs.map Chunk.bytes).flatten := by
    simp only [ss, stream, List.map_cons, Frame.bytes, Frame.cipher, cipherOf,
      CAoEncrypt.encode_of_default (CAoEncrypt.setKey_en _ _ _)]
    decide
  obtain ⟨sent, sender', henc', hall⟩ := payloads_come_through_any_cut z z z z ss
  rw [henc] at henc'
  cases henc'
  exact hall cs 29 hstream.symm (by rw [hstream]; decide)

end util.round_trip
