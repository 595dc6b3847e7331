-- `CAoChannel` and the buffer in which it assembles its messages: the name of the channel with its
-- NUL stands at the front, and each payload is copied behind it. The law says when the three fields
-- that describe the buffer agree after a call, and what is posted.
import Aods.FlatMemory
import Aods.Machine
import Aods.Runs

open flat_memory machine runs

namespace util.channel_messages

/-! ## The model -/

/-- The channel, and the memory of the process by address. Of that memory the program may touch the
`allocated` bytes from `m_puc_temp_buf` on. -/
structure CAoChannel where
  m_p_ob : Bool
  m_puc_temp_buf : Option Int
  m_puc_offset_buf : Int
  m_un_fixed_off_len : Nat
  m_un_temp_buf_len : Nat
  allocated : Nat
  mem : Mem UInt8

namespace CAoChannel

/-- Some bytes from an address on lie within the block. -/
def within (c : CAoChannel) (p : Int) (n : Nat) : Bool :=
  match c.m_puc_temp_buf with
  | none => false
  | some t => decide (t ≤ p) && decide (p + (n : Int) ≤ t + (c.allocated : Int))

/-- `memcpy` to an address. -/
def memcpy (c : CAoChannel) (p : Int) (bs : Bytes) : Except Fault CAoChannel :=
  if c.within p bs.length then .ok { c with mem := write c.mem p bs } else .error .overrun

/-- The bytes that are posted: so many from an address on. -/
def span (c : CAoChannel) (p : Int) (n : Nat) : Except Fault Bytes :=
  if c.within p n then .ok (read c.mem p n) else .error .overrun

/-- The constructor. `got` is what `MALLOC` answers: an address, and what lies in memory. -/
def new (got : Option (Int × Mem UInt8)) (p_ob : Bool) (psz_name : Bytes) :
    Except Fault CAoChannel :=
  let un_fixed_off_len := u32 (i32 psz_name.length + 1)
  let un_temp_buf_len := if un_fixed_off_len < 256 then 10240 else u32 (un_fixed_off_len + 10240)
  match got with
  | none => .error .null_pointer
  | some (p, mem) =>
    CAoChannel.memcpy
      { m_p_ob := p_ob
        m_puc_temp_buf := some p
        m_puc_offset_buf := p + un_fixed_off_len
        m_un_fixed_off_len := un_fixed_off_len
        m_un_temp_buf_len := un_temp_buf_len
        allocated := un_temp_buf_len
        mem := mem } p ((psz_name ++ [0]).take un_fixed_off_len)

/-- `REALLOC` of the buffer: the bytes that fit, at the address that it answers. -/
def realloc (got : Option (Int × Mem UInt8)) (size : Nat) (c : CAoChannel) : CAoChannel :=
  match got, c.m_puc_temp_buf with
  | none, _ => { c with m_puc_temp_buf := none }
  | some (p, mem), none => { c with m_puc_temp_buf := some p, allocated := size, mem := mem }
  | some (p, mem), some t =>
    { c with
      m_puc_temp_buf := some p
      allocated := size
      mem := write mem p (read c.mem t (min c.allocated size)) }

/-- What `m_pOb` gets to send: the bytes at the address, and their number. -/
def post (c : CAoChannel) (un_len : Nat) : Except Fault (CAoChannel × List (Option Bytes × Nat)) :=
  let un_len := u32 (un_len + c.m_un_fixed_off_len)
  match c.m_puc_temp_buf with
  | none => .ok (c, [(none, un_len)])
  | some t => do
    let msg ← c.span t un_len
    .ok (c, [(some msg, un_len)])

/-- `SendOutMsg` with a payload, or with the null pointer. -/
def sendOutMsg (got : Option (Int × Mem UInt8)) (puc_data : Option Bytes) (c : CAoChannel) :
    Except Fault (CAoChannel × List (Option Bytes × Nat)) :=
  if ¬ c.m_p_ob then .ok (c, [])
  else
    match puc_data with
    | none => c.post 0
    | some data =>
      if data.length > 0 then
        let c := if c.m_un_temp_buf_len < u32 (c.m_un_fixed_off_len + data.length) then
            -- neither the length nor the address behind the name is set anew
            c.realloc got (u32 (c.m_un_fixed_off_len + data.length + 1024))
          else c
        if c.m_puc_temp_buf.isNone then .ok (c, [])
        else do
          let c ← c.memcpy c.m_puc_offset_buf data
          c.post data.length
      else c.post 0

end CAoChannel

/-- A call of `SendOutMsg`, with what `REALLOC` would answer. The length is an `unsigned int`. -/
structure Call where
  got : Option (Int × Mem UInt8)
  puc_data : Option Bytes
  length_lt : ∀ data, puc_data = some data → data.length < 4294967296

def handle : Handler CAoChannel Call (Option Bytes × Nat) Fault :=
  fun c e => c.sendOutMsg e.got e.puc_data

/-- The bytes behind the name. -/
def Call.payload (e : Call) : Bytes := e.puc_data.getD []

/-- The message of a payload. -/
def message (name payload : Bytes) : Bytes := name ++ 0 :: payload

/-- The three fields describe one buffer. -/
def Agrees (c : CAoChannel) : Prop :=
  ∃ t, c.m_puc_temp_buf = some t ∧ c.m_puc_offset_buf = t + c.m_un_fixed_off_len ∧
    c.m_un_temp_buf_len = c.allocated

/-- What a call should do: leave the fields agreeing, and post the message, when there is a
module. -/
def Assembles (name : Bytes) (c : CAoChannel) (e : Call) : Prop :=
  ∃ c', handle c e =
    .ok (c', if c.m_p_ob then [(some (message name e.payload), (message name e.payload).length)]
      else []) ∧ Agrees c'

/-- The name and the payload fit in the buffer as it was made. -/
def Fits (c : CAoChannel) (e : Call) : Prop :=
  c.m_un_fixed_off_len + e.payload.length ≤ c.m_un_temp_buf_len

/-- The channel of a name, as the constructor makes it and fitting calls leave it. -/
structure Named (name : Bytes) (c : CAoChannel) : Prop where
  agrees : Agrees c
  fixed : c.m_un_fixed_off_len = name.length + 1
  front : ∀ t, c.m_puc_temp_buf = some t → read c.mem t (name.length + 1) = name ++ [0]
  roomy : 10240 ≤ c.m_un_temp_buf_len
  room_lt : c.m_un_temp_buf_len < 4294967296
  name_le : name.length + 1 ≤ c.m_un_temp_buf_len

namespace CAoChannel

theorem within_of_le {c : CAoChannel} {t : Int} (ht : c.m_puc_temp_buf = some t) {a n : Nat}
    (h : a + n ≤ c.allocated) : c.within (t + a) n = true := by
  unfold within
  rw [ht]
  simp only [Bool.and_eq_true, decide_eq_true_eq]
  omega

theorem span_of_le {c : CAoChannel} {t : Int} (ht : c.m_puc_temp_buf = some t) {n : Nat}
    (h : n ≤ c.allocated) :
    c.span t n = .ok (read c.mem t n) := by
  have hw := within_of_le ht (a := 0) (n := n) (by omega)
  rw [show t + ((0 : Nat) : Int) = t by omega] at hw
  unfold span
  rw [if_pos hw]

theorem memcpy_ok {c d : CAoChannel} {p : Int} {bs : Bytes} (h : c.memcpy p bs = .ok d) :
    c.within p bs.length = true ∧ ∃ m, d = { c with mem := m } := by
  unfold memcpy at h
  split at h
  · rename_i hin
    cases h
    exact ⟨hin, _, rfl⟩
  · cases h

/-- A block that moves takes its length with it, and no other field. -/
theorem realloc_some {c : CAoChannel} {t : Int} (ht : c.m_puc_temp_buf = some t) (p : Int)
    (mem : Mem UInt8) (size : Nat) :
    ∃ m, c.realloc (some (p, mem)) size =
      { c with m_puc_temp_buf := some p, allocated := size, mem := m } := by
  unfold realloc
  rw [ht]
  exact ⟨_, rfl⟩

theorem post_ok {c d : CAoChannel} {n : Nat} {os : List (Option Bytes × Nat)}
    (h : c.post n = .ok (d, os)) :
    d = c := by
  unfold post at h
  dsimp only at h
  split at h
  · cases h
    rfl
  · obtain ⟨msg, _, hend⟩ := bind_ok h
    cases hend
    rfl

theorem post_of_le {c : CAoChannel} {t : Int} (ht : c.m_puc_temp_buf = some t) {n : Nat}
    (h : n + c.m_un_fixed_off_len ≤ c.allocated) (hlt : n + c.m_un_fixed_off_len < 4294967296) :
    c.post n =
      .ok (c, [(some (read c.mem t (n + c.m_un_fixed_off_len)), n + c.m_un_fixed_off_len)]) := by
  have hsum : u32 ((n : Int) + c.m_un_fixed_off_len) = n + c.m_un_fixed_off_len := by
    unfold u32
    omega
  unfold post
  dsimp only
  rw [hsum, ht]
  dsimp only
  rw [span_of_le ht h]
  rfl

end CAoChannel

/-! ## One call -/

theorem post_name {name : Bytes} {c : CAoChannel} (h : Named name c) :
    c.post 0 = .ok (c, [(some (message name []), (message name []).length)]) := by
  obtain ⟨t, ht, _, hlen⟩ := h.agrees
  have hle : 0 + c.m_un_fixed_off_len ≤ c.allocated := by
    rw [h.fixed, ← hlen]
    have := h.name_le
    omega
  have hlt := h.room_lt
  have hmsg : (message name []).length = 0 + c.m_un_fixed_off_len := by
    rw [h.fixed]
    simp [message]
  rw [CAoChannel.post_of_le ht hle (by omega), hmsg, Nat.zero_add, h.fixed, h.front t ht]
  rfl

theorem Named.copied {name : Bytes} {c : CAoChannel} (h : Named name c) {t : Int}
    (ht : c.m_puc_temp_buf = some t) (data : Bytes) :
    Named name { c with mem := write c.mem (t + c.m_un_fixed_off_len) data } := by
  refine ⟨h.agrees, h.fixed, fun t' ht' => ?_, h.roomy, h.room_lt, h.name_le⟩
  have hsame : t = t' := Option.some.inj (ht.symm.trans ht')
  subst hsame
  have hfixed := h.fixed
  dsimp only
  rw [read_write_of_disjoint _ _ (Or.inl (by omega))]
  exact h.front t ht

theorem Named.posted {name : Bytes} {c : CAoChannel} (h : Named name c) {t : Int}
    (ht : c.m_puc_temp_buf = some t) {data : Bytes}
    (hlen : c.m_un_fixed_off_len + data.length ≤ c.allocated)
    (hlt : c.m_un_fixed_off_len + data.length < 4294967296) :
    CAoChannel.post { c with mem := write c.mem (t + c.m_un_fixed_off_len) data } data.length =
      .ok ({ c with mem := write c.mem (t + c.m_un_fixed_off_len) data },
        [(some (message name data), (message name data).length)]) := by
  have hread : read (write c.mem (t + c.m_un_fixed_off_len) data) t
      (data.length + c.m_un_fixed_off_len) =
      message name data := by
    rw [Nat.add_comm, read_write_append, h.fixed, h.front t ht]
    simp [message]
  have hmsg : data.length + c.m_un_fixed_off_len = (message name data).length := by
    rw [h.fixed]
    simp [message]
    omega
  have hpost :=
    CAoChannel.post_of_le (c := { c with mem := write c.mem (t + c.m_un_fixed_off_len) data }) ht
    (n := data.length) (by dsimp only; omega) (by dsimp only; omega)
  dsimp only at hpost
  rw [hread, hmsg] at hpost
  exact hpost

/-- A payload that fits is copied behind the name, and both are posted. -/
theorem send_fits {name : Bytes} {c : CAoChannel} (h : Named name c) (e : Call)
    (hfits : c.m_p_ob = true → Fits c e) :
    ∃ c', handle c e =
        .ok (c', if c.m_p_ob then [(some (message name e.payload), (message name e.payload).length)]
          else []) ∧
      Named name c' ∧ c'.m_p_ob = c.m_p_ob := by
  obtain ⟨got, puc_data, hdata⟩ := e
  unfold handle CAoChannel.sendOutMsg Call.payload
  cases hob : c.m_p_ob with
  | false => exact ⟨c, rfl, h, hob⟩
  | true =>
    cases puc_data with
    | none => exact ⟨c, post_name h, h, hob⟩
    | some data =>
      by_cases hpos : data.length > 0
      · obtain ⟨t, ht, hoff, hlen⟩ := h.agrees
        have hsum : c.m_un_fixed_off_len + data.length ≤ c.m_un_temp_buf_len := hfits hob
        have hlt := h.room_lt
        have hwrap : u32 ((c.m_un_fixed_off_len : Int) + data.length) =
            c.m_un_fixed_off_len + data.length := by
          unfold u32
          omega
        have hgrow : ¬ c.m_un_temp_buf_len < c.m_un_fixed_off_len + data.length := by omega
        have hcopy : c.memcpy c.m_puc_offset_buf data =
            .ok { c with mem := write c.mem (t + c.m_un_fixed_off_len) data } := by
          unfold CAoChannel.memcpy
          rw [hoff, if_pos (CAoChannel.within_of_le ht (by omega))]
        have hblock : c.m_puc_temp_buf.isNone = false := by rw [ht]; rfl
        refine ⟨{ c with mem := write c.mem (t + c.m_un_fixed_off_len) data }, ?_,
          h.copied ht data, hob⟩
        simp only [not_true_eq_false, if_false, if_true, hpos, hwrap, hgrow, hblock,
          Bool.false_eq_true, hcopy, Option.getD_some]
        exact h.posted ht (by omega) (by omega)
      · have hnil : data = [] := List.eq_nil_of_length_eq_zero (by omega)
        subst hnil
        exact ⟨c, post_name h, h, hob⟩

/-- A payload that does not fit leaves another length noted than was allocated, is copied past the
end of the block, or is not posted. -/
theorem fits_of_assembles {name : Bytes} {c : CAoChannel} (h : Named name c) (hob : c.m_p_ob = true)
    {e : Call} (hasm : Assembles name c e) : Fits c e := by
  by_contra hover
  obtain ⟨c', hok, t', ht', _, hlen'⟩ := hasm
  obtain ⟨got, puc_data, hdata⟩ := e
  obtain ⟨t, ht, hoff, hlen⟩ := h.agrees
  have hname := h.name_le
  have hroomy := h.roomy
  have hlt := h.room_lt
  have hfixed := h.fixed
  cases puc_data with
  | none =>
    apply hover
    unfold Fits Call.payload
    simp only [Option.getD_none, List.length_nil]
    omega
  | some data =>
    have hdlt := hdata data rfl
    have hsum : c.m_un_temp_buf_len < c.m_un_fixed_off_len + data.length := by
      unfold Fits Call.payload at hover
      simpa using hover
    have hpos : data.length > 0 := by omega
    simp only [handle, CAoChannel.sendOutMsg, hob, not_true_eq_false, if_false, if_true,
      hpos] at hok
    by_cases hgrow : c.m_un_temp_buf_len < u32 ((c.m_un_fixed_off_len : Int) + data.length)
    · rw [if_pos hgrow] at hok
      cases got with
      | none =>
        have hnull :
            (c.realloc none (u32 (c.m_un_fixed_off_len + data.length + 1024))).m_puc_temp_buf =
              none := rfl
        rw [hnull] at hok
        cases hok
      | some pm =>
        obtain ⟨p, mem⟩ := pm
        obtain ⟨m, hm⟩ :=
          CAoChannel.realloc_some ht p mem (u32 (c.m_un_fixed_off_len + data.length + 1024))
        rw [hm] at hok
        simp only [Option.isNone_some, Bool.false_eq_true, if_false] at hok
        obtain ⟨d, hd, hpost⟩ := bind_ok hok
        obtain ⟨_, m', rfl⟩ := CAoChannel.memcpy_ok hd
        rw [CAoChannel.post_ok hpost] at hlen'
        dsimp only at hlen'
        unfold u32 at hgrow hlen'
        omega
    · rw [if_neg hgrow, ht] at hok
      simp only [Option.isNone_some, Bool.false_eq_true, if_false] at hok
      obtain ⟨d, hd, _⟩ := bind_ok hok
      have hout : c.within c.m_puc_offset_buf data.length = false := by
        unfold CAoChannel.within
        rw [ht, hoff]
        simp only [Bool.and_eq_false_iff, decide_eq_false_iff_not]
        omega
      rw [(CAoChannel.memcpy_ok hd).1] at hout
      cases hout

/-! ## The constructor -/

theorem new_eq (p : Int) (mem : Mem UInt8) (p_ob : Bool) {name : Bytes}
    (h : name.length + 10241 < 4294967296) :
    ∃ c, CAoChannel.new (some (p, mem)) p_ob name = .ok c ∧ Named name c ∧ c.m_p_ob = p_ob := by
  have hfixed : u32 (i32 name.length + 1) = name.length + 1 := by
    unfold i32 u32
    omega
  have hlen : ∃ n,
      (if name.length + 1 < 256 then 10240 else u32 (((name.length + 1 : Nat) : Int) + 10240)) = n ∧
      10240 ≤ n ∧ n < 4294967296 ∧ name.length + 1 ≤ n := by
    refine ⟨_, rfl, ?_⟩
    unfold u32
    split <;> omega
  obtain ⟨n, hn, hroomy, hlt, hle⟩ := hlen
  have hall : (name ++ [0]).take (name.length + 1) = name ++ [0] := by
    rw [List.take_of_length_le (by simp)]
  have hfront : read (write mem p (name ++ [0])) p (name.length + 1) = name ++ [0] := by
    have := read_write_self mem p (name ++ [0])
    rwa [List.length_append, List.length_singleton] at this
  unfold CAoChannel.new
  dsimp only
  rw [hfixed, hn, hall]
  unfold CAoChannel.memcpy
  have hin := CAoChannel.within_of_le
    (c := ⟨p_ob, some p, p + (name.length + 1 : Nat), name.length + 1, n, n, mem⟩)
      (t := p) rfl (a := 0)
    (n := (name ++ [0]).length) (by simp only [List.length_append, List.length_singleton]; omega)
  rw [show p + ((0 : Nat) : Int) = p by omega] at hin
  rw [if_pos hin]
  refine ⟨_, rfl, ⟨⟨p, rfl, rfl, rfl⟩, rfl, fun t ht => ?_, hroomy, hlt, hle⟩, rfl⟩
  cases ht
  exact hfront

/-- A call without a payload. -/
def silent : Call := ⟨none, none, fun _ h => by cases h⟩

/-- A name whose message is posted as it should be did not make the lengths wrap. -/
theorem name_of_new {p : Int} {mem : Mem UInt8} {name : Bytes} {c : CAoChannel}
    (h : CAoChannel.new (some (p, mem)) true name = .ok c) (hasm : Assembles name c silent) :
    name.length + 10241 < 4294967296 := by
  have hfixedlt : u32 (i32 name.length + 1) < 4294967296 := by
    unfold u32
    omega
  unfold CAoChannel.new at h
  dsimp only at h
  obtain ⟨hin, m, rfl⟩ := CAoChannel.memcpy_ok h
  obtain ⟨c', hok, _⟩ := hasm
  simp only [handle, CAoChannel.sendOutMsg, silent, not_true_eq_false, if_false, if_true] at hok
  obtain ⟨msg, _, hend⟩ := bind_ok hok
  simp only [Except.ok.injEq, Prod.mk.injEq, List.cons.injEq, and_true] at hend
  have hposted := hend.2.2
  have hmsg : (message name (Call.payload ⟨none, none, silent.length_lt⟩)).length =
      name.length + 1 := by
    simp [message, Call.payload]
  rw [hmsg] at hposted
  have hfixed : u32 (i32 name.length + 1) = name.length + 1 := by
    unfold u32 at hposted hfixedlt ⊢
    omega
  rw [hfixed] at hin
  simp only [CAoChannel.within, Bool.and_eq_true, decide_eq_true_eq, List.length_take,
    List.length_append, List.length_singleton, Nat.min_self] at hin
  have hle := hin.2
  unfold u32 at hle
  split at hle <;> omega

/-- A channel whose name leaves room for the lengths assembles every message that fits in the buffer
as it was made, call after call, and no other. -/
theorem messages_are_assembled_while_they_fit (p : Int) (mem : Mem UInt8) (name : Bytes)
    (p_ob : Bool) :
    ((∃ c, CAoChannel.new (some (p, mem)) true name = .ok c ∧ Assembles name c silent) ↔
        name.length + 10241 < 4294967296) ∧
      (name.length + 10241 < 4294967296 → ∃ c, CAoChannel.new (some (p, mem)) p_ob name = .ok c ∧
        ∀ es s, Run handle (fun _ c e => c.m_p_ob = true → Fits c e) c es s →
          Agrees s ∧
          (∀ x ∈ es, x.2 =
            if p_ob then [(some (message name x.1.payload), (message name x.1.payload).length)]
            else []) ∧
          ∀ e, Assembles name s e ↔ (p_ob = true → Fits s e)) := by
  refine ⟨⟨fun ⟨c, hnew, hasm⟩ => name_of_new hnew hasm, fun hname => ?_⟩, fun hname => ?_⟩
  · obtain ⟨c, hnew, hnamed, hob⟩ := new_eq p mem true hname
    have hfits : Fits c silent := by
      have hle := hnamed.name_le
      have hfixed := hnamed.fixed
      unfold Fits silent Call.payload
      simp only [Option.getD_none, List.length_nil]
      omega
    obtain ⟨c', hok, hnamed', _⟩ := send_fits hnamed silent (fun _ => hfits)
    exact ⟨c, hnew, c', hok, hnamed'.agrees⟩
  · obtain ⟨c, hnew, hnamed, hob⟩ := new_eq p mem p_ob hname
    refine ⟨c, hnew, fun es s hrun => ?_⟩
    have hinv : Named name s ∧ s.m_p_ob = p_ob ∧ ∀ x ∈ es, x.2 =
        if p_ob then [(some (message name x.1.payload), (message name x.1.payload).length)]
        else [] := by
      refine Run.invariant (I := fun es s => Named name s ∧ s.m_p_ob = p_ob ∧ ∀ x ∈ es, x.2 =
        if p_ob then [(some (message name x.1.payload), (message name x.1.payload).length)] else [])
        ⟨hnamed, hob, fun x hx => absurd hx List.not_mem_nil⟩ ?_ hrun
      rintro es c e c' os ⟨hnamed, hob, hall⟩ hfits hok
      obtain ⟨d, hd, hnamed', hob'⟩ := send_fits hnamed e hfits
      rw [hd] at hok
      cases hok
      refine ⟨hnamed', hob'.trans hob, fun x hx => ?_⟩
      rcases List.mem_cons.mp hx with rfl | hx
      · dsimp only
        rw [hob]
      · exact hall x hx
    obtain ⟨hnamed, hob, hall⟩ := hinv
    refine ⟨hnamed.agrees, hall,
      fun e => ⟨fun hasm ht => fits_of_assembles hnamed (hob.trans ht) hasm, fun hfits => ?_⟩⟩
    obtain ⟨c', hok, hnamed', _⟩ := send_fits hnamed e (fun ht => hfits (hob.symm.trans ht))
    exact ⟨c', hok, hnamed'.agrees⟩

theorem a_short_message_is_assembled :
    ∃ c, CAoChannel.new (some (4096, fun _ => 0)) true [116] = .ok c ∧
      Assembles [116] c ⟨none, some [1, 2], fun data h => by cases h; decide⟩ := by
  obtain ⟨c, hnew, hall⟩ :=
    (messages_are_assembled_while_they_fit 4096 (fun _ => 0) [116] true).2 (by decide)
  obtain ⟨_, _, hiff⟩ := hall [] c .start
  refine ⟨c, hnew, (hiff _).mpr (fun _ => ?_)⟩
  cases hnew
  unfold Fits
  decide

/-- A payload of 10300 bytes makes the buffer grow behind the back of its length. -/
theorem a_long_message_is_not_assembled :
    ¬ ∀ (c : CAoChannel) (e : Call), CAoChannel.new (some (4096, fun _ => 0)) true [116] = .ok c →
      Assembles [116] c e := by
  intro hall
  have hshort : ([116] : Bytes).length + 10241 < 4294967296 := by decide
  obtain ⟨c, hnew, hnamed, hob⟩ := new_eq 4096 (fun _ => 0) true hshort
  have hlt : ∀ data, some (List.replicate 10300 (0 : UInt8)) = some data →
      data.length < 4294967296 := by
    intro data hdata
    rw [← Option.some.inj hdata, List.length_replicate]
    decide
  have hfits := fits_of_assembles hnamed hob
    (hall c ⟨some (8192, fun _ => 0), some (List.replicate 10300 0), hlt⟩ hnew)
  have hlen : c.m_un_temp_buf_len = 10240 := by
    cases hnew
    rfl
  unfold Fits Call.payload at hfits
  rw [Option.getD_some, List.length_replicate, hlen] at hfits
  omega

end util.channel_messages
