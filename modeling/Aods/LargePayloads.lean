-- `SendMsg` and payloads of any length. `EncodeMsg` knows no longest frame, so a frame that is too
-- long for the peer's guards goes out and no failure is reported, and a length that wraps makes a
-- frame of a few bytes. The law says for which payloads nothing is lost without a report.
import Aods.ReadErrors
import Aods.SendMsg

open flat_memory fuel_loop machine runs
open util.mem_cache util.encrypt util.commu_protocol util.commu_protocol.CAoCommuProtocol
open util.sock_channel util.frame util.round_trip util.send_msg
open util.read_errors (Refused getContent_of_refused)

namespace util.large_payloads

/-- A peer whose decode buffer holds just these bytes gets the payload of `GetContent`. -/
def Delivered (bs payload : Bytes) : Prop :=
  (∃ q, Holds q bs) ∧
    ∀ q, Holds q bs → ∃ q' c, q.getContent = .ok ⟨q', some c, 0⟩ ∧ dataOf q' c = payload

/-- A call of `SendMsg` reports the failure, or it gave the socket a frame of the payload. -/
def NotLost (outs : List Out) (payload : Bytes) : Prop :=
  .send_data_fail ∈ outs ∨ ∃ bs, .taken bs ∈ outs ∧ Delivered bs payload

/-- The length of the frame, as `EncodeMsg` counts it. -/
def msgLen (un_data_len : Nat) : Nat := u32 (un_data_len + enAoMsgSize + keyLenOf un_data_len)

/-- The encode buffer has no block for a frame of the payload, and none is given. -/
def NoBlock (got : Option (Mem UInt8)) (un_data_len : Nat) (amc : CAoMemCache) : Prop :=
  (amc.cache = none ∧ msgLen un_data_len = 0) ∨
    (got = none ∧ (amc.cache = none ∨ amc.cache_size < msgLen un_data_len))

/-! ## The block -/

theorem msgLen_lt (n : Nat) : msgLen n < 4294967296 := by
  unfold msgLen u32
  omega

theorem u32_msgLen (n : Nat) : u32 (msgLen n) = msgLen n := u32_of_lt (msgLen_lt n)

theorem cache_of_room (got : Option (Mem UInt8)) (n : Nat) (amc : CAoMemCache) :
    (amc.reset.appendBuf got none (msgLen n)).2.cache = none ↔ NoBlock got n amc := by
  have hmust : amc.reset.mustGrow (msgLen n) =
      (amc.cache.isNone || decide (amc.cache_size < msgLen n)) := by
    have hadd : (msgLen n : Int) + (0 : Nat) = msgLen n := by omega
    unfold CAoMemCache.mustGrow CAoMemCache.reset
    dsimp only
    rw [hadd, u32_msgLen]
  unfold NoBlock
  by_cases hz : msgLen n < 1
  · have hzero : msgLen n = 0 := by omega
    rw [CAoMemCache.appendBuf, if_pos hz, hzero]
    simp [CAoMemCache.reset]
  · have hpos : msgLen n ≠ 0 := by omega
    rw [CAoMemCache.appendBuf, if_neg hz, hmust]
    cases hc : amc.cache with
    | none =>
      cases got with
      | none => simp [CAoMemCache.grow]
      | some g => simp [CAoMemCache.grow, hpos]
    | some m =>
      by_cases hsize : amc.cache_size < msgLen n
      · cases got with
        | none => simp [CAoMemCache.grow, hsize]
        | some g => simp [CAoMemCache.grow, hsize]
      · simp [CAoMemCache.reset, hc, hsize]

theorem encodeMsg_of_block {p : CAoCommuProtocol} {data : Bytes}
    (h : ¬ NoBlock none data.length p.encode_amc) (g : Mem UInt8) (rand : Nat → Nat) :
    p.encodeMsg none rand data = p.encodeMsg (some g) rand data := by
  obtain ⟨hzero, hroom⟩ := not_or.mp h
  have hfit := not_or.mp (not_and.mp hroom rfl)
  have hmust : p.encode_amc.reset.mustGrow (msgLen data.length) = false := by
    have hadd : (msgLen data.length : Int) + (0 : Nat) = msgLen data.length := by omega
    unfold CAoMemCache.mustGrow CAoMemCache.reset
    dsimp only
    rw [hadd, u32_msgLen]
    simpa [Option.isSome_iff_ne_none] using hfit
  have hsame : p.encode_amc.reset.appendBuf none none (msgLen data.length) =
      p.encode_amc.reset.appendBuf (some g) none (msgLen data.length) := by
    unfold CAoMemCache.appendBuf
    simp only [hmust, Bool.false_eq_true, if_false]
  unfold msgLen at hsame
  unfold encodeMsg
  simp only [hsame]

/-! ## The tables -/

theorem crypt_tables {op : CAoEncrypt → Bytes → Bytes} {code keyLen key data len : Int}
    {m : Mem UInt8} {ae : CAoEncrypt} {r : CAoEncrypt × Mem UInt8}
    (h : crypt op code keyLen key data len m ae = .ok r) (htab : DefaultTables ae) :
    DefaultTables r.1 := by
  unfold crypt at h
  split at h
  · cases h
    exact htab
  · unfold CAoCommuProtocol.setKey at h
    split at h
    · cases h
    · cases h
      dsimp only
      exact htab.setKey _ _

theorem encodeMsg_tables {p p' : CAoCommuProtocol} {got : Option (Mem UInt8)} {rand : Nat → Nat}
    {data : Bytes} {o : Option Bytes} (h : p.encodeMsg got rand data = .ok (p', o))
    (htab : DefaultTables p.ae) :
    DefaultTables p'.ae := by
  unfold encodeMsg at h
  dsimp only at h
  split at h
  · cases h
    exact htab
  · unfold Except.map at h
    split at h
    · cases h
    · rename_i r hr
      cases h
      exact crypt_tables hr htab

theorem defaultTables_of_run {a b : Option (Mem UInt8)} {es : List (Event × List Out)} {c : Conn}
    (h : Run handle Any (opened a b) es c) : DefaultTables c.acp.ae := by
  refine Run.invariant (I := fun _ c => DefaultTables c.acp.ae) ?_ ?_ h
  · exact defaultTables_new _ _ _
  · intro es c e c' os htab _ hstep
    cases handle_step hstep with
    | freed _ tables => exact tables ▸ htab
    | none encoded _ kept => exact kept ▸ encodeMsg_tables encoded htab
    | some encoded _ _ kept => exact kept ▸ encodeMsg_tables encoded htab

/-! ## A frame that is too long -/

theorem crypt_before {op : CAoEncrypt → Bytes → Bytes} {code keyLen key data len : Int}
    {m : Mem UInt8} {ae : CAoEncrypt} {r : CAoEncrypt × Mem UInt8}
    (h : crypt op code keyLen key data len m ae = .ok r) {i : Int} (hi : i < data) :
    r.2 i = m i := by
  unfold crypt at h
  split at h
  · cases h
    rfl
  · unfold CAoCommuProtocol.setKey at h
    split at h
    · cases h
    · cases h
      exact write_before _ _ hi

/-- The head of a long payload's frame, as far as the frame holds a head. -/
theorem encodeMsg_head {p : CAoCommuProtocol} {got : Option (Mem UInt8)} {data : Bytes}
    (rand : Nat → Nat) (hlong : 20 < data.length)
    (hblock : ¬ NoBlock got data.length p.encode_amc) :
    ∃ p' buf, p.encodeMsg got rand data = .ok (p', some buf) ∧ buf.length = msgLen data.length ∧
      (12 ≤ buf.length → (headOf buf).n_data_len = i32 (data.length + 32) ∧
        (headOf buf).n_key_len = 20) := by
  have hkey : keyLenOf data.length = 20 := if_pos hlong
  rw [← cache_of_room] at hblock
  obtain ⟨m, hm⟩ := Option.ne_none_iff_exists'.mp hblock
  unfold msgLen at hm
  unfold encodeMsg
  simp only [hm]
  -- the writes lay the head, the key and the payload one behind the other
  obtain ⟨key, hkeys⟩ : ∃ key, (List.range (keyLenOf data.length)).map
      (fun n => UInt8.ofNat (rand (n + 1) % (0xaf - 0x3f) + 0x3f)) = key := ⟨_, rfl⟩
  have hoff : ((enAoMsgSize + keyLenOf data.length : Nat) : Int) = 12 + (key.length : Int) := by
    rw [← hkeys, List.length_map, List.length_range, enAoMsgSize]
    omega
  have h12 : ((enAoMsgSize : Nat) : Int) = 12 := rfl
  rw [hkeys, hoff, h12, write_frame m rfl rfl rfl key data]
  obtain ⟨r, hr⟩ :=
    encode_ok ((rand 0 % 0x20 : Nat) + 0xaf) data 12 (12 + (key.length : Int)) _ p.ae
  rw [hr]
  refine ⟨_, _, rfl, length_read _ _ _, fun hlen => ?_⟩
  rw [length_read] at hlen
  -- the encryption leaves the head alone
  have hhead := aoMsg_congr (fun i _ h12 => crypt_before hr (i := i) (by omega))
  rw [← aoMsg_of_read rfl hlen, hhead,
    aoMsg_of_read (read_write_self m 0 _) (by rw [List.length_append]; exact Nat.le_add_right 12 _),
    headOf_words (i32_range _) (by omega) (by omega), hkey]
  exact ⟨congrArg i32 (by omega), rfl⟩

/-- No `GetContent` gives the content of such a frame. -/
theorem not_delivered {buf data : Bytes} {bs : Bytes} (hbs : bs = buf.take (i32 buf.length).toNat)
    (hlarge : 1048544 < data.length) (hlt : data.length < 4294967296)
    (hlen : buf.length = msgLen data.length)
    (hhead : 12 ≤ buf.length → (headOf buf).n_data_len = i32 (data.length + 32) ∧
      (headOf buf).n_key_len = 20) :
    ¬ Delivered bs data := by
  rintro ⟨⟨q, hq⟩, hall⟩
  obtain ⟨q', c, hcontent, _⟩ := hall q hq
  have hmsg : msgLen data.length = u32 ((data.length : Int) + 12 + (20 : Nat)) := by
    rw [msgLen, show keyLenOf data.length = 20 from if_pos (by omega)]
    rfl
  have hnone : q.getContent = .ok ⟨q, none, 0⟩ ∨ q.getContent = .ok ⟨q, none, 1⟩ := by
    by_cases hshort : bs.length < 12
    · exact Or.inl (getContent_of_short (by rw [hq.off, enAoMsgSize]; exact hshort))
    · -- all of the frame was sent, and it holds a head
      right
      apply getContent_of_refused
      rw [hq.content]
      have hcounted : 0 ≤ i32 buf.length := by
        by_contra hneg
        rw [hbs, Int.toNat_of_nonpos (by omega)] at hshort
        exact hshort (by simp)
      have hbuf : buf.length < 4294967296 := by
        rw [hlen, hmsg]
        unfold u32
        omega
      rw [i32_of_counted hcounted hbuf, Int.toNat_natCast, List.take_length] at hbs
      rw [hbs] at hshort ⊢
      obtain ⟨hdata, hkey⟩ := hhead (by omega)
      refine ⟨by rw [enAoMsgSize]; omega, ?_⟩
      rw [hdata, hkey]
      have hmax : enMaxProtocolLen = 1048576 := rfl
      have hfit : i32 (20 + enAoMsgSize) = 32 := rfl
      rw [hfit, hmax]
      unfold i32 at hcounted ⊢
      unfold u32 at hcounted hmsg ⊢
      omega
  rcases hnone with h | h
  · rw [h] at hcontent
    cases hcontent
  · rw [h] at hcontent
    cases hcontent

/-! ## One call -/

/-- A socket that works takes bytes until the loop has sent all that it counts. -/
theorem sendLoop_works {buf : Bytes} {ns : List Int} {o n : Nat} {all : Bool}
    (hns : ∀ n ∈ ns, 1 ≤ n) (h : sendLoop buf ns o = some (n, all)) :
    all = true ∧ i32 buf.length ≤ n := by
  induction ns generalizing o with
  | nil =>
    unfold sendLoop at h
    split at h
    · cases h
    · cases h
      exact ⟨rfl, by omega⟩
  | cons k ns ih =>
    unfold sendLoop at h
    split at h
    · rw [if_neg (by have := hns k List.mem_cons_self; omega)] at h
      exact ih (fun n hn => hns n (List.mem_cons_of_mem k hn)) h
    · cases h
      exact ⟨rfl, by omega⟩

/-- What a call gives a socket that works: the frame as far as an `int` counts it. -/
theorem outs_of_send {c c' : Conn} {got : Option (Mem UInt8)} {rand : Nat → Nat} {data : Bytes}
    {answers : List Int} {outs : List Out}
    (hstep : handle c (.send got rand data answers) = .ok (c', outs)) (hopen : c.closed = false)
    (hworks : ∀ n ∈ answers, 1 ≤ n) :
    ((∃ acp, c.acp.encodeMsg got rand data = .ok (acp, none)) ∧ outs = [.send_data_fail]) ∨
      ∃ acp buf, c.acp.encodeMsg got rand data = .ok (acp, some buf) ∧
        (buf.length < 4294967296 → outs = [.taken (buf.take (i32 buf.length).toNat)]) := by
  unfold handle at hstep
  dsimp only at hstep
  split at hstep
  · cases hstep
  · rename_i acp he
    cases hstep
    exact Or.inl ⟨⟨acp, he⟩, rfl⟩
  · rename_i acp buf he
    refine Or.inr ⟨acp, buf, he, fun hlt => ?_⟩
    split at hstep
    · cases hstep
    · rename_i n all hl
      cases hstep
      unfold answersOf at hl
      rw [hopen, if_neg Bool.false_ne_true] at hl
      obtain ⟨rfl, hge⟩ := sendLoop_works hworks hl
      have htake : buf.take n = buf.take (i32 buf.length).toNat := by
        by_cases hcounted : 0 < i32 buf.length
        · have hall := i32_of_counted (by omega) hlt
          rw [hall, Int.toNat_natCast, List.take_length]
          exact List.take_of_length_le (by omega)
        · have hzero := sendLoop_refused (fun hpos => absurd hpos hcounted) hl
          rw [hzero, Int.toNat_of_nonpos (by omega)]
      rw [htake]
      rfl

/-- What a turn hands out is the content that `GetContent` gives. -/
theorem content_of_turn {p p' : CAoCommuProtocol} {b : Bytes} (h : turn p = .next p' b) :
    ∃ q c, p.getContent = .ok ⟨q, some c, 0⟩ ∧ dataOf q c = b := by
  obtain ⟨am, m, ham, hz, hm, _⟩ := next_of_turn h
  have hcontent := getContent_of_accepts ham hm
  rw [if_neg hz] at hcontent
  rw [turn_of_accepts ham hz hm] at h
  cases h
  exact ⟨_, _, hcontent, rfl⟩

theorem delivered_frame (f : Frame) : Delivered f.bytes f.data := by
  have hle := f.total_le
  have hlen := f.length_bytes
  have hne : f.bytes ≠ [] := by
    intro he
    rw [he, Frame.total] at hlen
    simp at hlen
    omega
  refine ⟨?_, fun q hq => ?_⟩
  · obtain ⟨q, _, hq⟩ := (holds_new (fun _ => 0) none).append ⟨fun _ => 0, f.bytes, hne, by omega⟩
      (by show ([] ++ f.bytes).length < _; rw [List.nil_append]; omega)
    exact ⟨q, hq⟩
  · rw [← List.append_nil f.bytes] at hq
    obtain ⟨q', hturn, _⟩ := turn_frame hq
    exact content_of_turn hturn

theorem encodeMsg_of_noBlock {p : CAoCommuProtocol} {got : Option (Mem UInt8)} {data : Bytes}
    (rand : Nat → Nat) (h : NoBlock got data.length p.encode_amc) :
    ∃ p', p.encodeMsg got rand data = .ok (p', none) := by
  rw [← cache_of_room] at h
  unfold msgLen at h
  unfold encodeMsg
  simp only [h]
  exact ⟨_, rfl⟩

theorem encodeMsg_small {p : CAoCommuProtocol} {got : Option (Mem UInt8)} {data : Bytes}
    (rand : Nat → Nat) (htab : DefaultTables p.ae) (hsmall : data.length ≤ 1048544)
    (h : ¬ NoBlock got data.length p.encode_amc) :
    ∃ (p' : CAoCommuProtocol) (f : Frame), p.encodeMsg got rand data = .ok (p', some f.bytes) ∧
      f.data = data := by
  have hfits : 12 + keyLenOf data.length + data.length ≤ 1048576 := by
    unfold keyLenOf
    split
    · omega
    · omega
  cases got with
  | some g =>
    obtain ⟨p', henc, _⟩ := encodeMsg_frame htab ⟨g, rand, data, hfits⟩
    exact ⟨p', _, henc, rfl⟩
  | none =>
    obtain ⟨p', henc, _⟩ := encodeMsg_frame htab ⟨fun _ => 0, rand, data, hfits⟩
    exact ⟨p', _, (encodeMsg_of_block h _ rand).trans henc, rfl⟩

theorem notLost_taken {bs data : Bytes} : NotLost [.taken bs] data ↔ Delivered bs data := by
  unfold NotLost
  simp

/-! ## The law -/

/-- A call of `SendMsg` over a socket that works loses nothing without a report just when the
payload fits in a frame that the peer's guards let through, or there is no block for the frame. -/
theorem nothing_is_lost_just_when_the_payload_fits {a b : Option (Mem UInt8)}
    {es : List (Event × List Out)} {c c' : Conn} {got : Option (Mem UInt8)} {rand : Nat → Nat}
    {data : Bytes} {answers : List Int} {outs : List Out} (h : Run handle Any (opened a b) es c)
    (hlt : data.length < 4294967296) (hopen : c.closed = false) (hworks : ∀ n ∈ answers, 1 ≤ n)
    (hstep : handle c (.send got rand data answers) = .ok (c', outs)) :
    NotLost outs data ↔ data.length ≤ 1048544 ∨ NoBlock got data.length c.acp.encode_amc := by
  have htab := defaultTables_of_run h
  have houts := outs_of_send hstep hopen hworks
  by_cases hblock : NoBlock got data.length c.acp.encode_amc
  · obtain ⟨p', henc⟩ := encodeMsg_of_noBlock rand hblock
    refine iff_of_true ?_ (Or.inr hblock)
    rcases houts with ⟨_, rfl⟩ | ⟨acp, buf, henc', _⟩
    · exact Or.inl List.mem_cons_self
    · cases henc.symm.trans henc'
  by_cases hsmall : data.length ≤ 1048544
  · obtain ⟨p', f, henc, hdata⟩ := encodeMsg_small rand htab hsmall hblock
    refine iff_of_true ?_ (Or.inl hsmall)
    rcases houts with ⟨⟨acp, henc'⟩, _⟩ | ⟨acp, buf, henc', htaken⟩
    · cases henc.symm.trans henc'
    · cases henc.symm.trans henc'
      have hle := f.total_le
      have hlen := f.length_bytes
      rw [i32_of_range (by omega) (by omega), Int.toNat_natCast, List.take_length] at htaken
      rw [htaken (by omega), notLost_taken, ← hdata]
      exact delivered_frame f
  · obtain ⟨p', buf, henc, hlen, hhead⟩ := encodeMsg_head rand (by omega) hblock
    refine iff_of_false ?_ (not_or.mpr ⟨hsmall, hblock⟩)
    rcases houts with ⟨⟨acp, henc'⟩, _⟩ | ⟨acp, buf', henc', htaken⟩
    · cases henc.symm.trans henc'
    · cases henc.symm.trans henc'
      rw [htaken (by rw [hlen]; exact msgLen_lt _), notLost_taken]
      exact not_delivered rfl (by omega) hlt hlen hhead

/-- An empty payload goes out in two pieces. -/
theorem an_empty_payload_is_not_lost :
    ∃ c', handle (opened (some fun _ => 0) (some fun _ => 0)) (sendEmpty [5, 7]) =
      .ok (c', [.taken emptyFrame]) ∧
      NotLost [.taken emptyFrame] [] := by
  have h0 : Run handle Any (opened (some fun _ => 0) (some fun _ => 0)) [] _ := .start
  have hworks : ∀ n ∈ [(5 : Int), 7], 1 ≤ n := by decide
  obtain ⟨c', hstep⟩ : ∃ c', handle (opened (some fun _ => 0) (some fun _ => 0))
      (.send (some fun _ => 0) (fun _ => 0) [] [5, 7]) = .ok (c', [.taken emptyFrame]) := ⟨_, rfl⟩
  have hlaw := nothing_is_lost_just_when_the_payload_fits h0 (by decide) rfl hworks hstep
  exact ⟨c', hstep, hlaw.mpr (Or.inl (by decide))⟩

/-- One byte more than fits: all of the frame goes out, and no peer takes it. -/
theorem one_byte_more_is_lost :
    ∃ c' outs, handle (opened (some fun _ => 0) (some fun _ => 0))
        (.send (some fun _ => 0) (fun _ => 0) (List.replicate 1048545 0) [1048577]) =
          .ok (c', outs) ∧
      ¬ NotLost outs (List.replicate 1048545 0) := by
  obtain ⟨data, hdata⟩ : ∃ data : Bytes, List.replicate 1048545 0 = data := ⟨_, rfl⟩
  have hdatalen : data.length = 1048545 := by rw [← hdata, List.length_replicate]
  have hmsg : msgLen 1048545 = 1048577 := by decide
  have hblock : ¬ NoBlock (some fun _ => 0) data.length
      (opened (some fun _ => 0) (some fun _ => 0)).acp.encode_amc := by
    rintro (⟨h, _⟩ | ⟨h, _⟩)
    · cases h
    · cases h
  obtain ⟨p', buf, henc, hlen, hhead⟩ := encodeMsg_head (fun _ => 0) (by omega) hblock
  have hbuf : buf.length = 1048577 := by rw [hlen, hdatalen, hmsg]
  have hloop : sendLoop buf [1048577] 0 = some (1048577, true) := by
    simp only [sendLoop, hbuf]
    decide
  rw [hdata]
  refine ⟨⟨p', false, [(buf, 1048577)]⟩, [.taken (buf.take 1048577)], ?_, ?_⟩
  · unfold handle
    simp only [henc, answersOf]
    rw [show (opened (some fun _ => 0) (some fun _ => 0)).closed = false from rfl,
      if_neg Bool.false_ne_true, hloop]
    rfl
  · rw [notLost_taken]
    refine not_delivered ?_ (by omega) (by omega) hlen hhead
    rw [hbuf]
    rfl

end util.large_payloads
