-- `CAoSockTcpChannel::Run`: connection after connection through one protocol, whose buffers stay as
-- they are when a connection ends. The law says when a connection gives what it would give to a
-- channel that is new.
import Aods.RoundTrip
import Aods.Runs

open flat_memory fuel_loop segmentation machine runs
open util.mem_cache util.encrypt util.commu_protocol util.commu_protocol.CAoCommuProtocol
open util.sock_channel util.frame util.round_trip

namespace util.sock_tcp_channel

/-! ## The model -/

/-- The channel: its protocol, and the reads of the connection with the messages that they gave. -/
structure Channel where
  acp : CAoCommuProtocol
  chunks : List Chunk
  msgs : List Bytes

/-- What happens in `Run`: a connection, and a read of the loop behind it. -/
inductive Event where
  | connect
  | read (c : Chunk)

/-- The constructor. -/
def begin (a b : Mem UInt8) : Channel := ⟨new (some a) (some b) 10240, [], []⟩

/-- `Close` and `Connect` leave the protocol alone. A read that does not come back is no step. -/
def handle (fuel : Nat) : Handler Channel Event Bytes (Option Fault)
  | s, .connect => .ok ({ s with chunks := [], msgs := [] }, [])
  | s, .read c =>
    match readData fuel (some c.got) (.ok c.bytes) s.acp with
    | none => .error none
    | some (.error f) => .error (some f)
    | some (.ok r) => .ok (⟨r.acp, s.chunks ++ [c], s.msgs ++ r.msgs⟩, r.msgs)

/-- The guards of `GetContent` let the head at the front of the bytes through. -/
def Passes (s : Bytes) : Prop :=
  enAoMsgSize ≤ s.length ∧ (headOf s).n_data_len ≤ enMaxProtocolLen ∧
    i32 ((headOf s).n_key_len + enAoMsgSize) ≤ (headOf s).n_data_len ∧
      (headOf s).n_data_len ≤ i32 s.length

/-- The frame of a head keeps within its bytes, and its content within those behind its length. -/
def Inside (am : AoMsg) : Prop := WellPlaced am ∧ (Decrypts am → -8 ≤ am.n_key_len)

/-- The bytes behind the frame at the front. -/
def Cuts (s t : Bytes) : Prop := Passes s ∧ t = s.drop (u32 (headOf s).n_data_len)

/-- Frame after frame of the bytes keeps within itself. -/
def Tidy (s : Bytes) : Prop := ∀ t, Relation.ReflTransGen Cuts s t → Passes t → Inside (headOf t)

/-- A connection is made when the buffer is empty. A read leaves less than 2 GiB in the buffer, and
no frame in it that leads out of itself. -/
def Apart (_ : List (Event × List Bytes)) (s : Channel) : Event → Prop
  | .connect => s.acp.decode_amc.cache_off = 0
  | .read c => s.acp.decode_amc.cache_off + c.bytes.length < 2147483648 ∧
      Tidy (s.acp.decode_amc.content ++ c.bytes)

/-- A new channel gives the same messages for the reads of the connection. -/
def AsNew (fuel : Nat) (s : Channel) : Prop :=
  ∀ a b, ∃ rs p, readAll fuel s.chunks (new (some a) (some b) 10240) = some (.ok (rs, p)) ∧
    (rs.map Readed.msgs).flatten = s.msgs

/-! ## Two protocols with the same bytes -/

/-- The decode buffers hold the same bytes, in blocks that may differ everywhere else. -/
structure Twin (p q : CAoCommuProtocol) : Prop where
  off : p.decode_amc.cache_off = q.decode_amc.cache_off
  cells : ∀ m m', p.decode_amc.cache = some m → q.decode_amc.cache = some m' →
    ∀ i : Int, 0 ≤ i → i < p.decode_amc.cache_off → m i = m' i
  left : p.decode_amc.Sound
  right : q.decode_amc.Sound
  left_step : p.decode_amc.apped_step_size = enStepAppendSize
  right_step : q.decode_amc.apped_step_size = enStepAppendSize
  left_tables : DefaultTables p.ae
  right_tables : DefaultTables q.ae

variable {p q : CAoCommuProtocol} {am : AoMsg} {m m' : Mem UInt8} {fuel : Nat}

theorem read_same {o : Int} {n : Nat} (h : ∀ i, o ≤ i → i < o + n → m i = m' i) :
    read m o n = read m' o n := by
  apply read_congr
  intro i hi
  exact h _ (by omega) (by omega)

theorem cells_of_read {n : Nat} (h : read m 0 n = read m' 0 n) (i : Int) (h0 : 0 ≤ i) (hn : i < n) :
    m i = m' i := by
  obtain ⟨k, rfl⟩ := Int.eq_ofNat_of_zero_le h0
  have hk : k < n := by omega
  have hcell := getElem?_read m 0 hk
  rw [h, getElem?_read m' 0 hk] at hcell
  simpa using (Option.some.inj hcell).symm

theorem Twin.blocks (h : Twin p q) :
    ∃ m m', p.decode_amc.cache = some m ∧ q.decode_amc.cache = some m' := by
  obtain ⟨m, hm⟩ := Option.isSome_iff_exists.mp h.left.block
  obtain ⟨m', hm'⟩ := Option.isSome_iff_exists.mp h.right.block
  exact ⟨m, m', hm, hm'⟩

theorem Twin.head (h : Twin p q) (hm : p.decode_amc.cache = some m)
    (hm' : q.decode_amc.cache = some m') (hlen : enAoMsgSize ≤ p.decode_amc.cache_off) :
    aoMsg m = aoMsg m' := by
  apply aoMsg_congr
  intro i h0 h12
  apply h.cells m m' hm hm' i h0
  rw [enAoMsgSize] at hlen
  omega

theorem Twin.accepts (h : Twin p q) : p.Accepts am ↔ q.Accepts am := by
  obtain ⟨m, m', hm, hm'⟩ := h.blocks
  constructor
  · intro ha
    have hhead := h.head hm hm' ha.whole_head
    refine ⟨h.off ▸ ha.whole_head, ?_, ha.not_too_long, ha.key_fits, h.off ▸ ha.arrived⟩
    have hfront := ha.at_front
    unfold CAoCommuProtocol.head at hfront ⊢
    rw [hm] at hfront
    rw [hm', Option.map_some, ← hhead]
    exact hfront
  · intro ha
    have hhead := h.head hm hm' (h.off ▸ ha.whole_head)
    refine ⟨h.off ▸ ha.whole_head, ?_, ha.not_too_long, ha.key_fits, h.off ▸ ha.arrived⟩
    have hfront := ha.at_front
    unfold CAoCommuProtocol.head at hfront ⊢
    rw [hm'] at hfront
    rw [hm, Option.map_some, hhead]
    exact hfront

/-- The key of a well placed frame makes the same cipher. -/
theorem Twin.keyed (h : Twin p q) (hm : p.decode_amc.cache = some m)
    (hm' : q.decode_amc.cache = some m')
    (hcells : ∀ i, Touches am (contentOf am) i → 0 ≤ i ∧ i < p.decode_amc.cache_off)
    (hd : Decrypts am) :
    keyed am m p.ae = keyed am m' q.ae := by
  have hkey : (List.range 16).map
      (fun n : Nat => uchar am.n_key_code + m (enAoMsgSize + Int.tmod n am.n_key_len)) =
      (List.range 16).map
          (fun n : Nat => uchar am.n_key_code + m' (enAoMsgSize + Int.tmod n am.n_key_len)) := by
    apply List.map_congr_left
    intro n hn
    have hin :=
      hcells (12 + Int.tmod n am.n_key_len) (Or.inr (Or.inl ⟨hd, n, List.mem_range.mp hn, rfl⟩))
    have hcell := h.cells m m' hm hm' _ hin.1 hin.2
    rw [enAoMsgSize]
    exact congrArg (uchar am.n_key_code + ·) hcell
  unfold CAoCommuProtocol.keyed
  rw [hkey]
  apply CAoEncrypt.setKey_congr
  · rw [h.left_tables.en, h.right_tables.en]
  · rw [h.left_tables.de, h.right_tables.de]

/-- What the decryption reads and writes of a well placed frame lies in both buffers. -/
theorem Twin.decoded (h : Twin p q) (hm : p.decode_amc.cache = some m)
    (hm' : q.decode_amc.cache = some m')
    (hcells : ∀ i, Touches am (contentOf am) i → 0 ≤ i ∧ i < p.decode_amc.cache_off) :
    (∀ i : Int, 0 ≤ i → i < p.decode_amc.cache_off →
      (decoded am m p.ae).2 i = (decoded am m' q.ae).2 i) ∧
      DefaultTables (decoded am m p.ae).1 ∧ DefaultTables (decoded am m' q.ae).1 := by
  by_cases hd : Decrypts am
  · have hkeyed := h.keyed hm hm' hcells hd
    have hle := i32_le_natCast (contentOf am).un_data_len
    have hread : read m (contentOf am).psz_data (i32 (contentOf am).un_data_len).toNat =
        read m' (contentOf am).psz_data (i32 (contentOf am).un_data_len).toNat := by
      apply read_same
      intro i hfrom hto
      have hin := hcells i (Or.inr (Or.inr (Or.inr ⟨hfrom, by omega⟩)))
      exact h.cells m m' hm hm' i hin.1 hin.2
    have htab : DefaultTables (CAoCommuProtocol.keyed am m' q.ae) := h.right_tables.setKey _ _
    unfold CAoCommuProtocol.decoded
    rw [if_pos hd, if_pos hd, hkeyed, hread]
    refine ⟨fun i h0 hn => ?_, htab, htab⟩
    -- a cell is written with the same byte, or is what it was
    have hcell := h.cells m m' hm hm' i h0 hn
    unfold write
    dsimp only
    rw [hcell]
  · unfold CAoCommuProtocol.decoded
    rw [if_neg hd, if_neg hd]
    exact ⟨h.cells m m' hm hm', h.left_tables, h.right_tables⟩

theorem Twin.remove (h : Twin p q) (n : Nat) :
    Twin { p with decode_amc := p.decode_amc.remove 0 n }
      { q with decode_amc := q.decode_amc.remove 0 n } := by
  obtain ⟨m, m', hm, hm'⟩ := h.blocks
  have hoff := h.off
  have hleft := h.left.fits
  have hright := h.right.fits
  refine ⟨?_, ?_, ⟨CAoMemCache.block_remove h.left.block _ _, ?_⟩,
    ⟨CAoMemCache.block_remove h.right.block _ _, ?_⟩,
    (CAoMemCache.step_remove _ _ _).trans h.left_step,
      (CAoMemCache.step_remove _ _ _).trans h.right_step,
    h.left_tables, h.right_tables⟩
  · unfold CAoMemCache.remove
    rw [hoff]
    split
    · rfl
    · rfl
  · intro k k' hk hk' i h0 hi
    unfold CAoMemCache.remove at hk hk' hi
    by_cases hlt : p.decode_amc.cache_off > n
    · have hlt' : q.decode_amc.cache_off > n := hoff ▸ hlt
      rw [if_pos hlt] at hk hi
      rw [if_pos hlt'] at hk'
      dsimp only at hk hk' hi
      rw [hm, Option.map_some] at hk
      rw [hm', Option.map_some] at hk'
      cases hk
      cases hk'
      have hread : read m n (p.decode_amc.cache_off - n) =
          read m' n (q.decode_amc.cache_off - n) := by
        rw [← hoff]
        apply read_same
        intro j hfrom hto
        exact h.cells m m' hm hm' j (by omega) (by omega)
      rw [hread]
      have hall := read_write_self m 0 (read m' n (q.decode_amc.cache_off - n))
      have hall' := read_write_self m' 0 (read m' n (q.decode_amc.cache_off - n))
      exact cells_of_read (hall.trans hall'.symm) i h0 (by rw [length_read]; omega)
    · rw [if_neg hlt] at hi
      dsimp only at hi
      omega
  · unfold CAoMemCache.remove
    split
    · dsimp only
      omega
    · exact Nat.zero_le _
  · unfold CAoMemCache.remove
    split
    · dsimp only
      omega
    · exact Nat.zero_le _

/-- Both loops stop in the same way. -/
def SameStop (w w' : Stop) : Prop :=
  (∃ f, w = .error f ∧ w' = .error f) ∨ ∃ p q e, w = .ok (p, e) ∧ w' = .ok (q, e) ∧ Twin p q

/-- A head that a guard stops for one is stopped for the other, with the same error. -/
theorem Twin.turn_stop (h : Twin p q) (hnone : ∀ am, ¬ p.Accepts am) :
    ∃ w w', turn p = .stop w ∧ turn q = .stop w' ∧ SameStop w w' := by
  obtain ⟨m, m', hm, hm'⟩ := h.blocks
  have hgot : ∃ e, p.getContent = .ok ⟨p, none, e⟩ ∧ q.getContent = .ok ⟨q, none, e⟩ := by
    by_cases hshort : p.decode_amc.cache_off < enAoMsgSize
    · exact ⟨0, getContent_of_short hshort, getContent_of_short (h.off ▸ hshort)⟩
    · have hlen := Nat.not_lt.mp hshort
      have hhead := h.head hm hm' hlen
      have hshort' : ¬ q.decode_amc.cache_off < enAoMsgSize := h.off ▸ hshort
      by_cases hbad : enMaxProtocolLen < (aoMsg m).n_data_len ∨
          (aoMsg m).n_data_len < i32 ((aoMsg m).n_key_len + enAoMsgSize)
      · refine ⟨1, ?_, ?_⟩
        · unfold getContent
          rw [if_neg hshort, hm]
          dsimp only
          rw [if_pos hbad]
        · unfold getContent
          rw [if_neg hshort', hm']
          dsimp only
          rw [← hhead, if_pos hbad]
      · obtain ⟨hmax, hfit⟩ := not_or.mp hbad
        by_cases hpart : i32 p.decode_amc.cache_off < (aoMsg m).n_data_len
        · refine ⟨0, getContent_of_partial hlen hm (Int.not_lt.mp hmax) (Int.not_lt.mp hfit) hpart,
            ?_⟩
          rw [hhead] at hmax hfit hpart
          rw [h.off] at hpart hlen
          exact getContent_of_partial hlen hm' (Int.not_lt.mp hmax) (Int.not_lt.mp hfit) hpart
        · exact absurd ⟨hlen, by
            rw [CAoCommuProtocol.head, hm]; rfl, Int.not_lt.mp hmax, Int.not_lt.mp hfit,
            Int.not_lt.mp hpart⟩ (hnone (aoMsg m))
  obtain ⟨e, hp, hq⟩ := hgot
  refine ⟨.ok (p, e), .ok (q, e), ?_, ?_, Or.inr ⟨p, q, e, rfl, rfl, h⟩⟩
  · unfold turn
    rw [hp]
  · unfold turn
    rw [hq]

/-- A turn over a well placed frame does the same to both. -/
theorem Twin.turn_next (h : Twin p q) (ha : p.Accepts am) (hz : ¬ DividesByZero am)
    (hw : WellPlaced am) :
    ∃ p' q' b, turn p = .next p' b ∧ turn q = .next q' b ∧ Twin p' q' := by
  obtain ⟨m, m', hm, hm'⟩ := h.blocks
  have harrived : am.n_data_len ≤ p.decode_amc.cache_off :=
    Int.le_trans ha.arrived (i32_le_natCast _)
  have hcells : ∀ i, Touches am (contentOf am) i → 0 ≤ i ∧ i < p.decode_amc.cache_off := by
    intro i hi
    have hin := inside_of_wellPlaced ha hz hw i hi
    omega
  obtain ⟨hsame, htab, htab'⟩ := h.decoded hm hm' hcells
  have hq : q.Accepts am := h.accepts.mp ha
  -- the same bytes are handed out
  have hmsg : read (CAoCommuProtocol.decoded am m p.ae).2 (contentOf am).psz_data
      (contentOf am).un_data_len =
      read (CAoCommuProtocol.decoded am m' q.ae).2 (contentOf am).psz_data
          (contentOf am).un_data_len := by
    apply read_same
    intro i hfrom hto
    have hin := hcells i (Or.inr (Or.inr (Or.inr ⟨hfrom, hto⟩)))
    exact hsame i hin.1 hin.2
  -- and the same length is read again
  have hlen : enAoMsgSize ≤ p.decode_amc.cache_off := ha.whole_head
  have hagain : reread p am m = reread q am m' := by
    unfold reread
    rw [aoMsg_congr]
    intro i h0 h12
    rw [enAoMsgSize] at hlen
    exact hsame i h0 (by omega)
  refine ⟨advance p am m, advance q am m', _, turn_of_accepts ha hz hm, ?_, ?_⟩
  · rw [hmsg]
    exact turn_of_accepts hq hz hm'
  · have htwin : Twin (p.withDecoded (CAoCommuProtocol.decoded am m p.ae))
        (q.withDecoded (CAoCommuProtocol.decoded am m' q.ae)) := by
      refine ⟨h.off, ?_, ⟨rfl, h.left.fits⟩, ⟨rfl, h.right.fits⟩, h.left_step,
        h.right_step, htab, htab'⟩
      intro k k' hk hk'
      cases hk
      cases hk'
      exact hsame
    have hremove := htwin.remove (u32 (reread p am m))
    have hleft : advance p am m = { p.withDecoded (CAoCommuProtocol.decoded am m p.ae) with
        decode_amc := (p.withDecoded (CAoCommuProtocol.decoded am m p.ae)).decode_amc.remove 0
          (u32 (reread p am m)) } := rfl
    have hright : advance q am m' = { q.withDecoded (CAoCommuProtocol.decoded am m' q.ae) with
        decode_amc := (q.withDecoded (CAoCommuProtocol.decoded am m' q.ae)).decode_amc.remove 0
          (u32 (reread q am m')) } := rfl
    rw [hleft, hright, ← hagain]
    exact hremove

theorem Twin.turn (h : Twin p q) (hw : ∀ am, p.Accepts am → WellPlaced am) :
    (∃ w w', sock_channel.turn p = .stop w ∧ sock_channel.turn q = .stop w' ∧ SameStop w w') ∨
      ∃ p' q' b, sock_channel.turn p = .next p' b ∧ sock_channel.turn q = .next q' b ∧
        Twin p' q' := by
  by_cases hex : ∃ am, p.Accepts am
  · obtain ⟨am, ha⟩ := hex
    by_cases hz : DividesByZero am
    · exact Or.inl ⟨_, _, turn_of_dividesByZero ha hz, turn_of_dividesByZero (h.accepts.mp ha) hz,
        Or.inl ⟨_, rfl, rfl⟩⟩
    · exact Or.inr (h.turn_next ha hz (hw am ha))
  · exact Or.inl (h.turn_stop (fun am ha => hex ⟨am, ha⟩))

/-! ## Frames that keep within themselves -/

/-- What the guards let through is the head of the bytes in the buffer. -/
theorem passes_of_accepts (h : p.Accepts am) (hsound : p.decode_amc.Sound) :
    Passes p.decode_amc.content ∧ headOf p.decode_amc.content = am := by
  obtain ⟨m, hm, ham⟩ := Option.map_eq_some_iff.mp h.at_front
  have hlen : enAoMsgSize ≤ p.decode_amc.cache_off := h.whole_head
  have hhead : headOf p.decode_amc.content = am := by
    rw [← ham, aoMsg_of_read (CAoMemCache.content_some hm).symm hlen]
  refine ⟨⟨?_, ?_, ?_, ?_⟩, hhead⟩
  · rw [CAoMemCache.length_content hsound]
    exact hlen
  · rw [hhead]
    exact h.not_too_long
  · rw [hhead]
    exact h.key_fits
  · rw [hhead, CAoMemCache.length_content hsound]
    exact h.arrived

/-- The decryption stays behind the length of the frame and before the next frame. -/
theorem decoded_within (h : p.Accepts am) (hin : Inside am) (ae : CAoEncrypt) {i : Int}
    (hi : i < 4 ∨ am.n_data_len ≤ i) : (decoded am m ae).2 i = m i := by
  by_cases hd : Decrypts am
  · have hlen := un_data_len_eq h hin.1.1
    have hkey := hin.2 hd
    have hoff : (contentOf am).psz_data = 12 + am.n_key_len := rfl
    apply decoded_outside
    omega
  · unfold CAoCommuProtocol.decoded
    rw [if_neg hd]

theorem content_advance (h : p.Accepts am) (hin : Inside am) (hm : p.decode_amc.cache = some m)
    (hsound : p.decode_amc.Sound) (hsmall : p.decode_amc.cache_off < 2147483648) :
    (advance p am m).decode_amc.content = p.decode_amc.content.drop (u32 am.n_data_len) := by
  have ham : aoMsg m = am := by simpa [CAoCommuProtocol.head, hm] using h.at_front
  have hre : reread p am m = am.n_data_len := by
    have hword : read (decoded am m p.ae).2 0 4 = read m 0 4 := by
      apply read_same
      intro i h0 h4
      exact decoded_within h hin p.ae (Or.inl (by omega))
    rw [reread_eq, hword, ← ham]
    exact (aoMsg_n_data_len m).symm
  rw [advance_amc, hre]
  have hsound' : (p.withDecoded (decoded am m p.ae)).decode_amc.Sound := ⟨rfl, hsound.fits⟩
  have hall := CAoMemCache.length_content hsound
  have harrived : am.n_data_len ≤ p.decode_amc.cache_off :=
    Int.le_trans h.arrived (i32_le_natCast _)
  have hmax : am.n_data_len ≤ 1048576 := h.not_too_long
  by_cases hle : u32 am.n_data_len ≤ p.decode_amc.cache_off
  · obtain ⟨_, hcontent⟩ := CAoMemCache.remove_content hsound' hle
    have hafter : (p.withDecoded (decoded am m p.ae)).decode_amc.content =
        read (decoded am m p.ae).2 0 p.decode_amc.cache_off := rfl
    rw [hcontent, hafter, CAoMemCache.content_some hm]
    have hn : ((u32 am.n_data_len : Nat) : Int) = am.n_data_len := by
      have hr := h.key_len_range
      have hrange : -2147483648 ≤ am.n_data_len := by
        rw [← ham, aoMsg_n_data_len]
        exact (i32_range _).1
      unfold u32 at hle ⊢
      omega
    rw [← read_drop rfl hle, ← read_drop rfl hle]
    apply read_same
    intro i hfrom _
    exact decoded_within h hin p.ae (Or.inr (by omega))
  · have hlt := Nat.lt_of_not_le hle
    have hnil : p.decode_amc.content.drop (u32 am.n_data_len) = [] := by
      apply List.drop_eq_nil_of_le
      omega
    rw [hnil]
    unfold CAoMemCache.remove
    have hgt : ¬ (p.withDecoded (decoded am m p.ae)).decode_amc.cache_off > u32 am.n_data_len :=
      Nat.not_lt.mpr (Nat.le_of_lt hlt)
    rw [if_neg hgt]
    rfl

theorem Tidy.behind {s t : Bytes} (h : Tidy s) (hc : Cuts s t) : Tidy t :=
  fun u hu hp => h u (Relation.ReflTransGen.head hc hu) hp

/-- The frames that `EncodeMsg` makes keep within themselves. -/
theorem inside_frame (f : Frame) : Inside f.head := by
  have hfits := f.fits
  have htotal : f.total = 12 + f.key.length + f.data.length := rfl
  refine ⟨⟨?_, Or.inr ⟨?_, Or.inr ?_⟩⟩, fun _ => ?_⟩
  · simp only [Frame.head]
    omega
  · simp only [Frame.head]
    omega
  · simp only [Frame.head]
    omega
  · simp only [Frame.head]
    omega

/-- The guards let nothing through that is a part of a frame. -/
theorem not_passes_part {s u : Bytes} {f : Frame} (hlt : s.length < f.total)
    (he : s ++ u = f.bytes) : ¬ Passes s := by
  rintro ⟨hlen, _, _, harrived⟩
  have hhead := headOf_append hlen u
  have hfront := headOf_bytes f []
  rw [List.append_nil] at hfront
  rw [he, hfront] at hhead
  have hle := i32_le_natCast s.length
  rw [← hhead] at harrived
  simp only [Frame.head] at harrived
  omega

theorem aligned_cuts {s t : Bytes} (h : Aligned s) (hc : Cuts s t) : Aligned t := by
  obtain ⟨hpass, rfl⟩ := hc
  rcases h.cases with rfl | ⟨f, w, rfl, hw⟩ | ⟨f, u, hlt, he⟩
  · exact absurd hpass.1 (by decide)
  · have hu32 : u32 (f.total : Int) = f.total := by
      have htotal := f.total_le
      unfold u32
      omega
    have hdrop : (f.bytes ++ w).drop f.total = w := by
      rw [← f.length_bytes]
      exact List.drop_left ..
    rw [headOf_bytes, Frame.head, hu32, hdrop]
    exact hw
  · exact absurd hpass (not_passes_part hlt he)

/-- Bytes that go on as a stream of frames are tidy. -/
theorem tidy_of_aligned {s : Bytes} (h : Aligned s) : Tidy s := by
  intro t ht hpass
  have hat : Aligned t := by
    clear hpass
    induction ht with
    | refl => exact h
    | tail _ hc ih => exact aligned_cuts ih hc
  rcases hat.cases with rfl | ⟨f, w, rfl, _⟩ | ⟨f, u, hlt, he⟩
  · exact absurd hpass.1 (by decide)
  · rw [headOf_bytes]
    exact inside_frame f
  · exact absurd hpass (not_passes_part hlt he)

/-- The two loops side by side. -/
structure Abreast (p q : CAoCommuProtocol) : Prop where
  twin : Twin p q
  small : p.decode_amc.cache_off < 2147483648
  tidy : Tidy p.decode_amc.content

theorem Abreast.turn (h : Abreast p q) :
    (∃ w w', sock_channel.turn p = .stop w ∧ sock_channel.turn q = .stop w' ∧ SameStop w w') ∨
      ∃ p' q' b, sock_channel.turn p = .next p' b ∧ sock_channel.turn q = .next q' b ∧
        Abreast p' q' := by
  have hinside : ∀ am, p.Accepts am → Inside am := by
    intro am ha
    obtain ⟨hpass, hhead⟩ := passes_of_accepts ha h.twin.left
    rw [← hhead]
    exact h.tidy _ Relation.ReflTransGen.refl hpass
  rcases h.twin.turn (fun am ha => (hinside am ha).1) with hstop | ⟨p', q', b, hp, hq, htwin⟩
  · exact Or.inl hstop
  · obtain ⟨am, m, ha, _, hm, rfl⟩ := next_of_turn hp
    obtain ⟨hpass, hhead⟩ := passes_of_accepts ha h.twin.left
    have hcontent := content_advance ha (hinside am ha) hm h.twin.left h.small
    refine Or.inr ⟨_, q', b, hp, hq, htwin, ?_, ?_⟩
    · have hsmall := h.small
      rw [← CAoMemCache.length_content htwin.left, hcontent, List.length_drop,
        CAoMemCache.length_content h.twin.left]
      omega
    · apply h.tidy.behind
      exact ⟨hpass, by rw [hcontent, hhead]⟩

/-- The loops give the same messages. -/
theorem Abreast.loop (h : Abreast p q) (fuel : Nat) :
    (loop sock_channel.turn fuel p = none ∧ loop sock_channel.turn fuel q = none) ∨
      ∃ w w' bs, loop sock_channel.turn fuel p = some (w, bs) ∧
        loop sock_channel.turn fuel q = some (w', bs) ∧
        SameStop w w' := by
  apply loop_simulates (R := Abreast)
  · intro p q h
    exact h.turn
  · exact h

/-! ## Reads -/

/-- Buffers with the same bytes, as byte sequences. -/
theorem twin_of_content (hleft : p.decode_amc.Sound) (hright : q.decode_amc.Sound)
    (hsame : p.decode_amc.content = q.decode_amc.content)
    (hstep : p.decode_amc.apped_step_size = enStepAppendSize)
    (hstep' : q.decode_amc.apped_step_size = enStepAppendSize) (htab : DefaultTables p.ae)
    (htab' : DefaultTables q.ae) : Twin p q := by
  have hoff : p.decode_amc.cache_off = q.decode_amc.cache_off := by
    rw [← CAoMemCache.length_content hleft, ← CAoMemCache.length_content hright, hsame]
  refine ⟨hoff, ?_, hleft, hright, hstep, hstep', htab, htab'⟩
  intro m m' hm hm' i h0 hi
  rw [CAoMemCache.content_some hm, CAoMemCache.content_some hm', ← hoff] at hsame
  exact cells_of_read hsame i h0 hi

theorem Twin.content (h : Twin p q) : p.decode_amc.content = q.decode_amc.content := by
  obtain ⟨m, m', hm, hm'⟩ := h.blocks
  rw [CAoMemCache.content_some hm, CAoMemCache.content_some hm', ← h.off]
  apply read_same
  intro i h0 hi
  exact h.cells m m' hm hm' i h0 (by omega)

/-- The bytes of a chunk go behind those of both. -/
theorem Twin.append (h : Twin p q) (c : Chunk)
    (hsmall : p.decode_amc.cache_off + c.bytes.length < 2147483648) :
    ∃ p' q', p.appendDecodeData (some c.got) c.bytes = (true, p') ∧
      q.appendDecodeData (some c.got) c.bytes = (true, q') ∧
      p'.decode_amc.content = p.decode_amc.content ++ c.bytes ∧ Twin p' q' := by
  have hoff := h.off
  obtain ⟨amc, happ, hsound, hcontent, _, hstep⟩ :=
    CAoMemCache.appendBuf_content h.left c.got c.some_arrived
    (by rw [h.left_step, enStepAppendSize]; omega)
  obtain ⟨amc', happ', hsound', hcontent', _, hstep'⟩ :=
    CAoMemCache.appendBuf_content h.right c.got c.some_arrived
    (by rw [h.right_step, enStepAppendSize]; omega)
  refine ⟨{ p with decode_amc := amc }, { q with decode_amc := amc' }, by
    rw [appendDecodeData, happ],
    by rw [appendDecodeData, happ'], hcontent, ?_⟩
  have hsame : amc.content = amc'.content := by rw [hcontent, hcontent', h.content]
  exact @twin_of_content { p with decode_amc := amc } { q with decode_amc := amc' }
    hsound hsound' hsame
    (hstep.trans h.left_step) (hstep'.trans h.right_step) h.left_tables h.right_tables

/-- What a read gives to one channel it gives to the other. -/
theorem Twin.readData (h : Twin p q) (c : Chunk)
    (hsmall : p.decode_amc.cache_off + c.bytes.length < 2147483648)
    (htidy : Tidy (p.decode_amc.content ++ c.bytes)) {r : Readed}
    (hr : readData fuel (some c.got) (.ok c.bytes) p = some (.ok r)) :
    ∃ r', readData fuel (some c.got) (.ok c.bytes) q = some (.ok r') ∧ r'.msgs = r.msgs ∧
      Twin r.acp r'.acp := by
  obtain ⟨p', q', hp, hq, hcontent, htwin⟩ := h.append c hsmall
  have hall : Abreast p' q' := by
    refine ⟨htwin, ?_, hcontent ▸ htidy⟩
    rw [← CAoMemCache.length_content htwin.left, hcontent, List.length_append,
      CAoMemCache.length_content h.left]
    exact hsmall
  rw [readData_loop c.some_arrived (by rw [hp]), hp] at hr
  rw [readData_loop c.some_arrived (by rw [hq]), hq]
  dsimp only at hr ⊢
  rcases hall.loop fuel with ⟨hnone, _⟩ | ⟨w, w', bs, hl, hl', hstop⟩
  · rw [hnone] at hr
    cases hr
  · rw [hl] at hr
    rw [hl']
    rcases hstop with ⟨f, rfl, rfl⟩ | ⟨s, s', e, rfl, rfl, hrest⟩
    · cases hr
    · cases hr
      exact ⟨_, rfl, rfl, hrest⟩

theorem readAll_concat {cs : List Chunk} {c : Chunk} {rs : List Readed} {r : Readed}
    (hcs : readAll fuel cs p = some (.ok (rs, q)))
    (hc : readData fuel (some c.got) (.ok c.bytes) q = some (.ok r)) :
    readAll fuel (cs ++ [c]) p = some (.ok (rs ++ [r], r.acp)) := by
  induction cs generalizing p rs with
  | nil =>
    cases hcs
    rw [List.nil_append, readAll, hc]
    rfl
  | cons c' cs ih =>
    rw [readAll] at hcs
    rw [List.cons_append, readAll]
    cases hread : sock_channel.readData fuel (some c'.got) (.ok c'.bytes) p with
    | none =>
      rw [hread] at hcs
      cases hcs
    | some x =>
      rw [hread] at hcs
      cases x with
      | error f => cases hcs
      | ok r' =>
        dsimp only at hcs ⊢
        cases hrest : readAll fuel cs r'.acp with
        | none =>
          rw [hrest] at hcs
          cases hcs
        | some y =>
          rw [hrest] at hcs
          cases y with
          | error f => cases hcs
          | ok z =>
            obtain ⟨zs, q'⟩ := z
            cases hcs
            rw [ih hrest]
            rfl

/-! ## The law -/

/-- A new channel gives the same messages, and its buffer holds the same bytes. -/
def Same (fuel : Nat) (s : Channel) : Prop :=
  ∀ a b, ∃ rs p, readAll fuel s.chunks (new (some a) (some b) 10240) = some (.ok (rs, p)) ∧
    (rs.map Readed.msgs).flatten = s.msgs ∧ Twin s.acp p

theorem same_begin (fuel : Nat) (a b : Mem UInt8) : Same fuel (begin a b) := by
  intro a' b'
  have hholds := holds_new a (some b)
  have hholds' := holds_new a' (some b')
  exact ⟨[], _, rfl, rfl, twin_of_content hholds.sound hholds'.sound
    (hholds.content.trans hholds'.content.symm) rfl rfl
    hholds.tables hholds'.tables⟩

theorem same_step {es : List (Event × List Bytes)} {s s' : Channel} {e : Event} {os : List Bytes}
    (h : Same fuel s) (hok : Apart es s e) (hstep : handle fuel s e = .ok (s', os)) :
    Same fuel s' := by
  cases e with
  | connect =>
    cases hstep
    intro a b
    obtain ⟨_, p, _, _, htwin⟩ := h a b
    have hholds := holds_new a (some b)
    have hempty : s.acp.decode_amc.content = [] := by
      apply List.eq_nil_of_length_eq_zero
      rw [CAoMemCache.length_content htwin.left]
      exact hok
    exact ⟨[], _, rfl, rfl,
      twin_of_content htwin.left hholds.sound (hempty.trans hholds.content.symm) htwin.left_step rfl
      htwin.left_tables hholds.tables⟩
  | read c =>
    obtain ⟨hsmall, htidy⟩ := hok
    unfold handle at hstep
    dsimp only at hstep
    split at hstep
    · cases hstep
    · cases hstep
    · rename_i r hr
      cases hstep
      intro a b
      obtain ⟨rs, p, hrs, hmsgs, htwin⟩ := h a b
      obtain ⟨r', hr', hsame, htwin'⟩ := htwin.readData c hsmall htidy hr
      refine ⟨rs ++ [r'], r'.acp, readAll_concat hrs hr', ?_, htwin'⟩
      rw [List.map_append, List.flatten_append, hmsgs, List.map_cons, hsame]
      simp

/-- In a run in which each connection is made over an empty buffer, at any time the messages of the
connection are those that a new channel gives for its reads. -/
theorem a_connection_gives_what_a_new_channel_gives {a b : Mem UInt8}
    {es : List (Event × List Bytes)} {s : Channel} (h : Run (handle fuel) Apart (begin a b) es s) :
    AsNew fuel s := by
  have hsame : Same fuel s := by
    refine Run.invariant (I := fun _ s => Same fuel s) (same_begin fuel a b) ?_ h
    intro es s e s' os hsame hok hstep
    exact same_step hsame hok hstep
  intro a' b'
  obtain ⟨rs, p, hrs, hmsgs, _⟩ := hsame a' b'
  exact ⟨rs, p, hrs, hmsgs⟩

/-- The frame of an empty payload. -/
def emptyFrame : Bytes := [12, 0, 0, 0, 175, 0, 0, 0, 0, 0, 0, 0]

/-- The frame as a whole, and its first five bytes. -/
def whole : Chunk := ⟨fun _ => 0, emptyFrame, by decide, by decide⟩
def cut : Chunk := ⟨fun _ => 0, emptyFrame.take 5, by decide, by decide⟩

theorem aligned_emptyFrame : Aligned emptyFrame :=
  ⟨[], [Send.frame ⟨fun _ => 0, fun _ => 0, [], by decide⟩], rfl⟩

/-- Two connections that both end behind a frame. -/
theorem connections_end_behind_frames :
    ∃ es s, Run (handle 100) Apart (begin (fun _ => 0) (fun _ => 0)) es s ∧
      es.map Prod.fst = [.read whole, .connect, .read whole, .connect] ∧ s.msgs = [[]] ∧
        AsNew 100 s := by
  have htidy : Tidy ([] ++ whole.bytes) := tidy_of_aligned aligned_emptyFrame
  have h0 : Run (handle 100) Apart (begin (fun _ => 0) (fun _ => 0)) [] _ := .start
  have h1 := Run.next (e := Event.connect) h0 rfl rfl
  have h2 := Run.next (e := Event.read whole) h1 ⟨by decide, htidy⟩ rfl
  have h3 := Run.next (e := Event.connect) h2 rfl rfl
  have h4 := Run.next (e := Event.read whole) h3 ⟨by decide, htidy⟩ rfl
  exact ⟨_, _, h4, rfl, rfl, a_connection_gives_what_a_new_channel_gives h4⟩

/-- A connection ends inside a frame, and the frame of the next one is lost. -/
theorem a_cut_frame_spoils_the_next_connection :
    ∃ es s, Run (handle 100) Any (begin (fun _ => 0) (fun _ => 0)) es s ∧
      es.map Prod.fst = [.read whole, .connect, .read cut, .connect] ∧ s.msgs = [] ∧
        ¬ AsNew 100 s := by
  have h0 : Run (handle 100) Any (begin (fun _ => 0) (fun _ => 0)) [] _ := .start
  have h1 := Run.next (e := Event.connect) h0 trivial rfl
  have h2 := Run.next (e := Event.read cut) h1 trivial rfl
  have h3 := Run.next (e := Event.connect) h2 trivial rfl
  have h4 := Run.next (e := Event.read whole) h3 trivial rfl
  refine ⟨_, _, h4, rfl, rfl, fun hnew => ?_⟩
  -- a new channel gives the empty payload
  obtain ⟨rs, p, hrs, hmsgs⟩ := hnew (fun _ => 0) (fun _ => 0)
  have hone : readAll 100 [whole] (new (some fun _ => 0) (some fun _ => 0) 10240) =
      some (.ok ([⟨12, _, [[]], 0⟩], _)) := rfl
  cases hone.symm.trans hrs
  exact absurd hmsgs (by decide)

end util.sock_tcp_channel
