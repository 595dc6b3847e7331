-- The queue of `CModule`: any number of senders append under the lock to one buffer while
-- the module's thread reads the other, and the two change places when a round begins.
-- The laws say that messages are handed out in the order of the lock, each once, and just
-- when a post leaves the buffer in whole records.
import Aods.ModuleData
import Aods.Runs

open machine runs
open util.module_data

namespace util.module_queue

/-- The arguments of a call of `PostMsg`. The bytes are as many as the length says, and
four bytes of the head are what lies on the stack. -/
structure Post where
  un_msg_code : UInt32
  /-- `none` is the null pointer. -/
  puc_data : Option Bytes
  un_len : UInt32
  p_recver : Option UInt64
  p_sender : UInt64
  un_smi : UInt32
  unset : Arr 4
  readable : ∀ b, puc_data = some b → b.length = un_len.toNat

/-- The head of a post to the module at an address. -/
def Post.head (self : UInt64) (p : Post) : MtMsgHead :=
  ⟨p.un_smi, p.un_msg_code, p.un_len, p.p_recver.getD self, p.p_sender⟩

/-- The message that a call posts. -/
def Post.msg (self : UInt64) (p : Post) : MtMsg := msgOf (p.head self) (p.puc_data.getD [])

/-- `PostMsg`, with what it reads of `m_bRun`: what it returns, and the buffer. -/
def postMsg (self : UInt64) (b_run : Bool) (d : CModuleData) (p : Post) :
    Except Fault (Bool × CModuleData) :=
  if ¬ b_run then .ok (false, d)
  else do
    let (b_ret, d) ← d.appendData ((p.head self).bytes p.unset)
    match p.puc_data with
    | some puc_data => if b_ret ∧ p.un_len > 0 then d.appendData puc_data else .ok (b_ret, d)
    | none => .ok (b_ret, d)

/-- The two buffers, how far the thread has read, and whether it runs. -/
structure Queue where
  p_cus_md : CModuleData
  p_product_md : CModuleData
  un_offset : Nat
  b_run : Bool

/-- A post of any sender, or the next thing that the thread does; with a message that it hands
out comes whether its handler ends the module. The posts of a handler are posts like others. -/
inductive Event where
  | post (b_run : Bool) (p : Post)
  | run (stops : Bool)

inductive Out where
  | ret (b_ret : Bool)
  | do_msg (pmm : MtMsg)

/-- The module after `Start`: both buffers are empty. -/
def Queue.start (cus product : CModuleData) : Queue := ⟨cus.reset, product.reset, 0, true⟩

def step (self : UInt64) : Handler Queue Event Out Fault
  | n, .post b_run p => do
    let (b_ret, d) ← postMsg self b_run n.p_product_md p
    .ok ({ n with p_product_md := d }, [.ret b_ret])
  | n, .run stops =>
    if ¬ n.b_run then .ok (n, [])
    else if n.un_offset < n.p_cus_md.m_un_len then
      -- past the data the thread reads what lies in the memory
      match nextMsg (n.p_cus_md.m_puc_data.drop n.un_offset) with
      | none => .error .overrun
      | some (pmm, _) =>
        .ok ({ n with
          un_offset := u32 (n.un_offset + (pmm.uc_data.length + enMtMsgHeadSize))
          b_run := !stops }, [.do_msg pmm])
    else
      .ok ({ n with p_cus_md := n.p_product_md, p_product_md := n.p_cus_md.reset, un_offset := 0 },
        [])

/-! ## Histories -/

/-- What an entry of a history posted. -/
def postOf (self : UInt64) : Event × List Out → Option MtMsg
  | (.post _ p, [.ret true]) => some (p.msg self)
  | _ => none

/-- What an entry of a history handed to `DoMsg`. -/
def handOf : Event × List Out → Option MtMsg
  | (_, [.do_msg pmm]) => some pmm
  | _ => none

/-- The messages that were posted, in the order of the lock. -/
def posted (self : UInt64) (es : List (Event × List Out)) : List MtMsg :=
  es.reverse.filterMap (postOf self)

/-- The messages that were handed to `DoMsg`, in this order. -/
def handed (es : List (Event × List Out)) : List MtMsg := es.reverse.filterMap handOf

variable {self : UInt64}

/-- Every post returns true, and it has its data where it has a length. -/
def Accepted (self : UInt64) (_ : List (Event × List Out)) (n : Queue) (e : Event) : Prop :=
  ∀ b_run p, e = .post b_run p →
    (p.puc_data = none → p.un_len = 0) ∧ ∃ d, postMsg self b_run n.p_product_md p = .ok (true, d)

/-- A post has room for all of its record, or for nothing of it. -/
def Room (d : CModuleData) (b_run : Bool) (p : Post) : Prop :=
  b_run = true → d.m_un_len + enMtMsgHeadSize ≤ d.capacity →
    p.un_len = 0 ∨ p.puc_data ≠ none ∧ d.m_un_len + enMtMsgHeadSize + p.un_len.toNat ≤ d.capacity

/-- Every post has room for all of its record or for nothing of it. -/
def Roomy (_ : List (Event × List Out)) (n : Queue) (e : Event) : Prop :=
  ∀ b_run p, e = .post b_run p → Room n.p_product_md b_run p

/-- The buffer after a post holds whole records, those before it when the post was refused. -/
def Intact (d d' : CModuleData) (b_ret : Bool) : Prop :=
  (∃ ms, parse d'.data = some ms) ∧ (b_ret = false → parse d'.data = parse d.data)

/-! ## One post -/

/-- What a post can do to the buffer. -/
theorem postMsg_cases {b_run ok : Bool} {d d' : CModuleData} {p : Post}
    (h : postMsg self b_run d p = .ok (ok, d')) :
    (ok = false ∧ d' = d ∧ (b_run = false ∨ d.capacity < d.m_un_len + enMtMsgHeadSize)) ∨
    (b_run = true ∧ d.m_un_len + enMtMsgHeadSize ≤ d.capacity ∧
      ((ok = true ∧ (p.un_len = 0 ∨ p.puc_data ≠ none ∧
          d.m_un_len + enMtMsgHeadSize + p.un_len.toNat ≤ d.capacity) ∧
        d'.data = d.data ++ ((p.head self).bytes p.unset ++ p.puc_data.getD [])) ∨
      (p.un_len ≠ 0 ∧ (ok = true ∧ p.puc_data = none ∨ ok = false ∧
          d.capacity < d.m_un_len + enMtMsgHeadSize + p.un_len.toNat) ∧
        d'.data = d.data ++ (p.head self).bytes p.unset))) := by
  unfold postMsg at h
  cases b_run with
  | false =>
    cases h
    exact Or.inl ⟨rfl, rfl, Or.inl rfl⟩
  | true =>
    rw [if_neg (by simp)] at h
    obtain ⟨⟨b_ret, d₁⟩, happ, hs⟩ := bind_ok h
    rcases CModuleData.appendData_cases happ with ⟨rfl, rfl, hfull⟩ |
      ⟨rfl, hdata, hlen, hcap, hroom⟩
    · rw [MtMsgHead.length_bytes] at hfull
      left
      cases hp : p.puc_data with
      | none =>
        simp only [hp] at hs
        cases hs
        exact ⟨rfl, rfl, Or.inr hfull⟩
      | some b =>
        simp only [hp, Bool.false_eq_true, false_and, if_false] at hs
        cases hs
        exact ⟨rfl, rfl, Or.inr hfull⟩
    · rw [MtMsgHead.length_bytes] at hlen hroom
      right
      refine ⟨rfl, hroom, ?_⟩
      cases hp : p.puc_data with
      | none =>
        simp only [hp] at hs
        cases hs
        by_cases hzero : p.un_len = 0
        · left
          exact ⟨rfl, Or.inl hzero, by rw [hdata, Option.getD_none, List.append_nil]⟩
        · right
          exact ⟨hzero, Or.inl ⟨rfl, rfl⟩, hdata⟩
      | some b =>
        have hb := p.readable b hp
        simp only [hp] at hs
        by_cases hzero : p.un_len = 0
        · left
          rw [hzero] at hb
          have hnil : b = [] := List.eq_nil_of_length_eq_zero hb
          rw [if_neg (by rw [hzero]; decide)] at hs
          cases hs
          exact ⟨rfl, Or.inl hzero, by rw [hdata, hnil, Option.getD_some, List.append_nil]⟩
        · have hpos : p.un_len > 0 := UInt32.pos_iff_ne_zero.mpr hzero
          rw [if_pos ⟨trivial, hpos⟩] at hs
          rcases CModuleData.appendData_cases hs with ⟨rfl, rfl, hfull⟩ |
            ⟨rfl, hdata', _, _, hroom'⟩
          · rw [hlen, hcap, hb] at hfull
            exact Or.inr ⟨hzero, Or.inr ⟨rfl, hfull⟩, hdata⟩
          · rw [hlen, hcap, hb] at hroom'
            left
            refine ⟨rfl, Or.inr ⟨Option.some_ne_none b, hroom'⟩, ?_⟩
            rw [hdata', hdata, Option.getD_some, List.append_assoc]

theorem step_post {n : Queue} {b_run b_ret : Bool} {d : CModuleData} {p : Post}
    (h : postMsg self b_run n.p_product_md p = .ok (b_ret, d)) :
    step self n (.post b_run p) = .ok ({ n with p_product_md := d }, [.ret b_ret]) := by
  simp only [step, h, bind, Except.bind]

theorem posted_cons (x : Event × List Out) (es : List (Event × List Out)) :
    posted self (x :: es) = posted self es ++ (postOf self x).toList := by
  unfold posted
  rw [List.reverse_cons, List.filterMap_append]
  cases h : postOf self x with
  | none => simp [h]
  | some m => simp [h]

theorem handed_cons (x : Event × List Out) (es : List (Event × List Out)) :
    handed (x :: es) = handed es ++ (handOf x).toList := by
  unfold handed
  rw [List.reverse_cons, List.filterMap_append]
  cases h : handOf x with
  | none => simp [h]
  | some m => simp [h]

/-! ## Messages in order -/

/-- What waits: some messages in the buffer that is read, and some in the other. -/
structure Waits (n : Queue) (now later : List MtMsg) : Prop where
  in_cus : parse (n.p_cus_md.data.drop n.un_offset) = some now
  in_product : parse n.p_product_md.data = some later
  offset_le : n.un_offset ≤ n.p_cus_md.m_un_len

/-- What was posted is what was handed out and what waits. -/
def InOrder (self : UInt64) (es : List (Event × List Out)) (n : Queue) : Prop :=
  ∃ now later, Waits n now later ∧ posted self es = handed es ++ (now ++ later)

theorem Waits.start (cus product : CModuleData) : Waits (.start cus product) [] [] where
  in_cus := parse_nil
  in_product := parse_nil
  offset_le := Nat.zero_le _

theorem parse_post {d d' : CModuleData} {p : Post} {later : List MtMsg}
    (h : parse d.data = some later)
    (hdata : d'.data = d.data ++ ((p.head self).bytes p.unset ++ p.puc_data.getD []))
    (hwhole : p.puc_data = none → p.un_len = 0) : parse d'.data = some (later ++ [p.msg self]) := by
  have hlen : (p.puc_data.getD []).length = (p.head self).un_data_len.toNat := by
    cases hp : p.puc_data with
    | none =>
      rw [Post.head, hwhole hp]
      rfl
    | some b => exact p.readable b hp
  rw [hdata, parse_append h, parse_record p.unset hlen]
  rfl

/-- The thread hands out the first message that waits in its buffer. -/
theorem Waits.hand {n : Queue} {m : MtMsg} {now later : List MtMsg} (h : Waits n (m :: now) later)
    (self : UInt64) (hrun : n.b_run = true) (stops : Bool) :
    ∃ offset, step self n (.run stops) =
        .ok ({ n with un_offset := offset, b_run := !stops }, [.do_msg m]) ∧
      Waits { n with un_offset := offset, b_run := !stops } now later := by
  have hne : n.p_cus_md.data.drop n.un_offset ≠ [] := by
    intro hnil
    have hnow := h.in_cus
    rw [hnil, parse_nil] at hnow
    cases hnow
  have hlt : n.un_offset < n.p_cus_md.m_un_len := by
    rcases Nat.lt_or_ge n.un_offset n.p_cus_md.m_un_len with hlt | hge
    · exact hlt
    · exact absurd (List.drop_of_length_le (by rw [CModuleData.length_data]; exact hge)) hne
  obtain ⟨m', r, now', hnext, hnow, hr⟩ := parse_cons h.in_cus hne
  cases hnow
  -- what lies behind the data does not matter
  have hmem : nextMsg (n.p_cus_md.m_puc_data.drop n.un_offset) =
      some (m, r ++ n.p_cus_md.m_puc_data.drop n.p_cus_md.m_un_len) := by
    rw [CModuleData.drop_data h.offset_le]
    exact records.stable _ hnext
  obtain ⟨hlen, hm, hrest⟩ := nextMsg_some hnext
  rw [List.length_drop, CModuleData.length_data] at hlen
  have hdata : m.uc_data.length =
      (MtMsgHead.over (n.p_cus_md.data.drop n.un_offset)).un_data_len.toNat := by
    rw [hm, msgOf, List.length_take, List.length_drop, List.length_drop, CModuleData.length_data]
    omega
  have hoffset : u32 (n.un_offset + (m.uc_data.length + enMtMsgHeadSize)) =
      n.un_offset + (m.uc_data.length + enMtMsgHeadSize) := by
    have hcap := n.p_cus_md.capacity_lt
    have hle := n.p_cus_md.len_le
    exact u32_of_lt (n := n.un_offset + (m.uc_data.length + enMtMsgHeadSize)) (by omega)
  refine ⟨n.un_offset + (m.uc_data.length + enMtMsgHeadSize), ?_, ?_,
    h.in_product, by dsimp only; omega⟩
  · simp only [step, hrun, not_true_eq_false, if_false, hlt, if_true, hmem, hoffset]
  · rw [hrest, List.drop_drop, ← hdata] at hr
    dsimp only
    rw [Nat.add_comm m.uc_data.length]
    exact hr

/-- With nothing left to read the buffers change places. -/
theorem Waits.swap {n : Queue} {later : List MtMsg} (h : Waits n [] later) (self : UInt64)
    (hrun : n.b_run = true) (stops : Bool) :
    ∃ n', step self n (.run stops) = .ok (n', []) ∧ n'.b_run = true ∧ Waits n' later [] := by
  have hge : ¬ n.un_offset < n.p_cus_md.m_un_len := by
    intro hlt
    have hne : n.p_cus_md.data.drop n.un_offset ≠ [] := by
      intro hnil
      have := congrArg List.length hnil
      rw [List.length_drop, CModuleData.length_data, List.length_nil] at this
      omega
    obtain ⟨_, _, _, _, hnow, _⟩ := parse_cons h.in_cus hne
    cases hnow
  refine ⟨{ n with p_cus_md := n.p_product_md, p_product_md := n.p_cus_md.reset, un_offset := 0 },
    ?_,
    hrun, h.in_product, parse_nil, Nat.zero_le _⟩
  simp only [step, hrun, not_true_eq_false, if_false, hge]

/-- The thread keeps the order, whatever waits. -/
theorem InOrder.run {es : List (Event × List Out)} {n n' : Queue} {stops : Bool} {os : List Out}
    (h : InOrder self es n) (hs : step self n (.run stops) = .ok (n', os)) :
    InOrder self ((.run stops, os) :: es) n' := by
  obtain ⟨now, later, hw, hsum⟩ := h
  have hpost : posted self ((.run stops, os) :: es) = posted self es := by
    rw [posted_cons]
    exact List.append_nil _
  rw [InOrder, hpost, handed_cons]
  by_cases hrun : n.b_run = true
  · cases now with
    | nil =>
      obtain ⟨n₁, hs₁, _, hw₁⟩ := hw.swap self hrun stops
      rw [hs] at hs₁
      cases hs₁
      exact ⟨later, [], hw₁, by rw [hsum]; simp [handOf]⟩
    | cons m now =>
      obtain ⟨offset, hs₁, hw₁⟩ := hw.hand self hrun stops
      rw [hs] at hs₁
      cases hs₁
      exact ⟨now, later, hw₁, by rw [hsum]; simp [handOf]⟩
  · simp only [step, hrun, Bool.false_eq_true] at hs
    cases hs
    exact ⟨now, later, hw, by rw [hsum]; simp [handOf]⟩

theorem InOrder.post {es : List (Event × List Out)} {n n' : Queue} {b_run : Bool} {p : Post}
    {os : List Out} (h : InOrder self es n) (hok : Accepted self es n (.post b_run p))
    (hs : step self n (.post b_run p) = .ok (n', os)) :
    InOrder self ((.post b_run p, os) :: es) n' := by
  obtain ⟨now, later, hw, hsum⟩ := h
  obtain ⟨hwhole, d, hpost⟩ := hok b_run p rfl
  rw [step_post hpost] at hs
  cases hs
  have hdata : d.data =
      n.p_product_md.data ++ ((p.head self).bytes p.unset ++ p.puc_data.getD []) := by
    rcases postMsg_cases hpost with ⟨hok, _⟩ | ⟨_, _, ⟨_, _, hdata⟩ | ⟨hlen, hhalf, hdata⟩⟩
    · cases hok
    · exact hdata
    · rcases hhalf with ⟨_, hnull⟩ | ⟨hfalse, _⟩
      · exact absurd (hwhole hnull) hlen
      · cases hfalse
  refine ⟨now, later ++ [p.msg self],
    ⟨hw.in_cus, parse_post hw.in_product hdata hwhole, hw.offset_le⟩, ?_⟩
  rw [posted_cons, handed_cons, hsum]
  simp [postOf, handOf]

theorem InOrder.of_run {cus product : CModuleData} {es : List (Event × List Out)} {n : Queue}
    (h : Run (step self) (Accepted self) (.start cus product) es n) : InOrder self es n := by
  apply h.invariant (I := InOrder self) ⟨[], [], Waits.start cus product, rfl⟩
  intro es n e n' os horder hok hs
  cases e with
  | post b_run p => exact horder.post hok hs
  | run stops => exact horder.run hs

theorem accepted_run (es : List (Event × List Out)) (n : Queue) (stops : Bool) :
    Accepted self es n (.run stops) := by
  intro b_run p he
  cases he

/-- The thread goes on until its buffer is read. -/
theorem hands_now {init : Queue} {now later : List MtMsg} {es : List (Event × List Out)} {n : Queue}
    (h : Run (step self) (Accepted self) init es n) (hw : Waits n now later)
    (hrun : n.b_run = true) :
    ∃ more n', Run (step self) (Accepted self) init (more ++ es) n' ∧
      (∀ x ∈ more, x.1 = .run false) ∧ Waits n' [] later ∧ n'.b_run = true ∧
      handed (more ++ es) = handed es ++ now := by
  induction now generalizing es n with
  | nil => exact ⟨[], n, h, by simp, hw, hrun, by simp⟩
  | cons m now ih =>
    obtain ⟨offset, hs, hw₁⟩ := hw.hand self hrun false
    obtain ⟨more, n', hrun', hmore, hw', hb', hhanded⟩ :=
      ih (h.next (e := Event.run false) (accepted_run es n false) hs) hw₁ rfl
    refine ⟨more ++ [(.run false, [.do_msg m])],
      n', by simpa using hrun', fun x hx => ?_, hw', hb', ?_⟩
    · rcases List.mem_append.mp hx with hx | hx
      · exact hmore x hx
      · rw [List.mem_singleton.mp hx]
    · rw [handed_cons] at hhanded
      simpa [handOf] using hhanded

/-- The thread can go on until all that was posted is handed out. -/
theorem hands_all {init : Queue} {now later : List MtMsg} {es : List (Event × List Out)} {n : Queue}
    (h : Run (step self) (Accepted self) init es n) (hw : Waits n now later)
    (hrun : n.b_run = true) :
    ∃ more n', Run (step self) (Accepted self) init (more ++ es) n' ∧
      (∀ x ∈ more, x.1 = .run false) ∧ handed (more ++ es) = handed es ++ (now ++ later) := by
  obtain ⟨first, n₁, hrun₁, hfirst, hw₁, hb₁, hhanded₁⟩ := hands_now h hw hrun
  obtain ⟨n₂, hswap, hb₂, hw₂⟩ := hw₁.swap self hb₁ false
  have hrun₂ := hrun₁.next (e := Event.run false) (accepted_run _ _ false) hswap
  obtain ⟨second, n₃, hrun₃, hsecond, _, _, hhanded₃⟩ := hands_now hrun₂ hw₂ hb₂
  refine ⟨second ++ (.run false, []) :: first, n₃, by simpa using hrun₃, fun x hx => ?_, ?_⟩
  · rcases List.mem_append.mp hx with hx | hx
    · exact hsecond x hx
    · rcases List.mem_cons.mp hx with rfl | hx
      · rfl
      · exact hfirst x hx
  · rw [handed_cons, hhanded₁] at hhanded₃
    simpa [handOf, List.append_assoc] using hhanded₃

/-- The thread stops at the message whose handler ends it, and hands out none after it. -/
def StopsAt (es : List (Event × List Out)) (n : Queue) : Prop :=
  n.b_run = false → ∃ newer m older, es = newer ++ (.run true, [.do_msg m]) :: older ∧
    handed es = handed older ++ [m]

theorem StopsAt.step {es : List (Event × List Out)} {n n' : Queue} {e : Event} {os : List Out}
    (h : StopsAt es n) (hs : step self n e = .ok (n', os)) : StopsAt ((e, os) :: es) n' := by
  -- an entry that hands out nothing moves the end no further
  have hquiet : handOf (e, os) = none → n'.b_run = n.b_run → StopsAt ((e, os) :: es) n' := by
    intro hnone hsame hb
    obtain ⟨newer, m, older, hes, hhanded⟩ := h (hsame ▸ hb)
    refine ⟨(e, os) :: newer, m, older, by rw [hes]; rfl, ?_⟩
    rw [handed_cons, hnone, hhanded]
    exact List.append_nil _
  cases e with
  | post b_run p =>
    obtain ⟨⟨b_ret, d⟩, _, hs⟩ := bind_ok hs
    cases hs
    exact hquiet rfl rfl
  | run stops =>
    simp only [module_queue.step] at hs
    split at hs
    · cases hs
      exact hquiet rfl rfl
    split at hs
    · split at hs
      · cases hs
      · rename_i m r _
        cases hs
        intro hb
        have hstops : stops = true := by simpa using hb
        subst hstops
        refine ⟨[], m, es, rfl, ?_⟩
        rw [handed_cons]
        rfl
    · cases hs
      exact hquiet rfl rfl

theorem StopsAt.of_run {cus product : CModuleData} {es : List (Event × List Out)} {n : Queue}
    {Ok : List (Event × List Out) → Queue → Event → Prop}
    (h : Run (module_queue.step self) Ok (.start cus product) es n) : StopsAt es n := by
  apply h.invariant (I := StopsAt)
  · intro hb
    cases hb
  · intro es n e n' os hstops _ hs
    exact hstops.step hs

/-! ## Whole records -/

/-- A post leaves whole records, and a refused one those that were there, just when it has room
for all of its record or for nothing of it. -/
theorem intact_iff_room {d d' : CModuleData} {ms : List MtMsg} {b_run b_ret : Bool} {p : Post}
    (hd : parse d.data = some ms) (hs : postMsg self b_run d p = .ok (b_ret, d')) :
    Intact d d' b_ret ↔ Room d b_run p := by
  rcases postMsg_cases hs with ⟨rfl, rfl, hrefused⟩ | ⟨rfl, hroom, ⟨rfl, hwhole, hdata⟩ |
    ⟨hlen, hhalf, hdata⟩⟩
  · refine iff_of_true ⟨⟨ms, hd⟩, fun _ => rfl⟩ (fun hb hfits => ?_)
    rcases hrefused with hfalse | hfull
    · rw [hb] at hfalse
      cases hfalse
    · omega
  · refine iff_of_true ⟨⟨_, parse_post hd hdata (fun hnull => ?_)⟩, fun hfalse => by cases hfalse⟩
      (fun _ _ => hwhole)
    rcases hwhole with hzero | ⟨hdata', _⟩
    · exact hzero
    · exact absurd hnull hdata'
  · refine iff_of_false ?_ ?_
    · rintro ⟨⟨ms', hms'⟩, _⟩
      have hhead : parse ((p.head self).bytes p.unset ++ []) = none := by
        apply parse_half
        have hpos : p.un_len.toNat ≠ 0 := fun hz => hlen (UInt32.toNat_inj.mp hz)
        exact Nat.pos_of_ne_zero hpos
      rw [List.append_nil] at hhead
      rw [hdata, parse_append hd, hhead] at hms'
      cases hms'
    · intro hroom'
      rcases hroom' rfl hroom with hzero | ⟨hnn, hfits⟩
      · exact hlen hzero
      · rcases hhalf with ⟨_, hnull⟩ | ⟨_, hfull⟩
        · exact hnn hnull
        · omega

theorem whole_of_run {cus product : CModuleData} {es : List (Event × List Out)} {n : Queue}
    (h : Run (step self) Roomy (.start cus product) es n) :
    ∃ ms, parse n.p_product_md.data = some ms := by
  apply h.invariant (I := fun _ n => ∃ ms, parse n.p_product_md.data = some ms)
  · exact ⟨[], parse_nil⟩
  · rintro es n e n' os ⟨ms, hms⟩ hok hs
    cases e with
    | post b_run p =>
      obtain ⟨⟨b_ret, d⟩, hpost, hs⟩ := bind_ok hs
      cases hs
      exact ((intact_iff_room hms hpost).mpr (hok b_run p rfl)).1
    | run stops =>
      simp only [step] at hs
      split at hs
      · cases hs
        exact ⟨ms, hms⟩
      split at hs
      · split at hs
        · cases hs
        · cases hs
          exact ⟨ms, hms⟩
      · cases hs
        exact ⟨[], parse_nil⟩

/-! ## Posts that fit and a post that does not -/

/-- A post of a running module that fits is taken in. -/
theorem postMsg_fits {d : CModuleData} {p : Post}
    (h : d.m_un_len + enMtMsgHeadSize + p.un_len.toNat ≤ d.capacity) :
    ∃ d', postMsg self true d p = .ok (true, d') := by
  obtain ⟨d₁, happ, _, hlen, hcap⟩ := CModuleData.appendData_room (d := d)
    (b := (p.head self).bytes p.unset) (by rw [MtMsgHead.length_bytes]; omega)
  rw [MtMsgHead.length_bytes] at hlen
  cases hp : p.puc_data with
  | none =>
    refine ⟨d₁, ?_⟩
    simp [postMsg, happ, hp, bind, Except.bind]
  | some b =>
    have hb := p.readable b hp
    by_cases hpos : p.un_len > 0
    · obtain ⟨d₂, happ₂, _⟩ := CModuleData.appendData_room (d := d₁) (b := b) (by omega)
      refine ⟨d₂, ?_⟩
      simp [postMsg, happ, hp, hpos, happ₂, bind, Except.bind]
    · refine ⟨d₁, ?_⟩
      simp [postMsg, happ, hp, hpos, bind, Except.bind]

/-- A post whose head fits and whose data do not is refused, and its head stays. -/
theorem postMsg_half (self : UInt64) {d : CModuleData} {p : Post} {b : Bytes}
    (hp : p.puc_data = some b) (hhead : d.m_un_len + enMtMsgHeadSize ≤ d.capacity)
    (hfull : d.capacity < d.m_un_len + enMtMsgHeadSize + p.un_len.toNat)
    (hsum : d.m_un_len + enMtMsgHeadSize + p.un_len.toNat < 4294967296) :
    ∃ d', postMsg self true d p = .ok (false, d') ∧
      d'.data = d.data ++ (p.head self).bytes p.unset := by
  have hb := p.readable b hp
  obtain ⟨d₁, happ, hdata, hlen, hcap⟩ := CModuleData.appendData_room (d := d)
    (b := (p.head self).bytes p.unset) (by rw [MtMsgHead.length_bytes]; exact hhead)
  rw [MtMsgHead.length_bytes] at hlen
  have hpos : p.un_len > 0 := by
    rw [gt_iff_lt, UInt32.lt_iff_toNat_lt]
    have : (0 : UInt32).toNat = 0 := rfl
    omega
  have happ₂ : d₁.appendData b = .ok (false, d₁) :=
    CModuleData.appendData_full (by omega) (by omega)
  refine ⟨d₁, ?_, hdata⟩
  simp [postMsg, happ, hp, hpos, happ₂, bind, Except.bind]

/-- Memory of some size with no data. -/
def emptyData (n : Nat) (h : n < 4294967296) : CModuleData where
  m_puc_data := List.replicate n 0
  m_un_len := 0
  len_le := Nat.zero_le _
  capacity_lt := by simpa using h

theorem capacity_emptyData (n : Nat) (h : n < 4294967296) : (emptyData n h).reset.capacity = n :=
  List.length_replicate

/-- A message without data, to the module itself. -/
def bare : Post where
  un_msg_code := 1
  puc_data := none
  un_len := 0
  p_recver := none
  p_sender := 0
  un_smi := 0xFFFFFFFF
  unset := ⟨[0, 0, 0, 0], rfl⟩
  readable := by simp

/-- Data of a channel that fill the queue of a module to its last bytes. -/
def frame : Post where
  un_msg_code := 1
  puc_data := some (List.replicate 1048550 1)
  un_len := 1048550
  p_recver := none
  p_sender := 0
  un_smi := 0xFFFFFFFF
  unset := ⟨[0, 0, 0, 0], rfl⟩
  readable := by
    intro b hb
    rw [← Option.some.inj hb, List.length_replicate]
    rfl

theorem frame_data : frame.puc_data = some (List.replicate 1048550 1) := rfl

theorem frame_len : frame.un_len.toNat = 1048550 := rfl

/-- The queue of a module of one megabyte. -/
def megabyte : Queue := .start (emptyData 1048576 (by decide)) (emptyData 1048576 (by decide))

theorem megabyte_len : megabyte.p_product_md.m_un_len = 0 := rfl

theorem megabyte_capacity : megabyte.p_product_md.capacity = 1048576 := capacity_emptyData _ _

theorem bare_fits : ∃ d', postMsg 0 true megabyte.p_product_md bare = .ok (true, d') := by
  have hlen : bare.un_len.toNat = 0 := rfl
  apply postMsg_fits
  rw [megabyte_len, megabyte_capacity, hlen]
  decide

/-! ## The laws -/

/-- While every post returns true and has its data, what is handed to `DoMsg` is the front of
what was posted, in the order of the lock. A thread that runs can go on to hand out the
rest; one that has stopped did so at the last message that it handed out. -/
theorem every_message_is_handed_out_once_in_the_order_of_the_lock {cus product : CModuleData}
    {es : List (Event × List Out)} {n : Queue}
    (h : Run (step self) (Accepted self) (.start cus product) es n) :
    handed es <+: posted self es ∧
    (n.b_run = true → ∃ more n', Run (step self) (Accepted self) (.start cus product)
      (more ++ es) n' ∧
      (∀ x ∈ more, x.1 = .run false) ∧ handed (more ++ es) = posted self es) ∧
    StopsAt es n := by
  obtain ⟨now, later, hw, hsum⟩ := InOrder.of_run h
  refine ⟨⟨now ++ later, hsum.symm⟩, fun hrun => ?_, StopsAt.of_run h⟩
  obtain ⟨more, n', hrun', hmore, hhanded⟩ := hands_all h hw hrun
  exact ⟨more, n', hrun', hmore, by rw [hhanded, hsum]⟩

theorem a_message_without_data_is_handed_out : ∃ es n, Run (step 0) (Accepted 0) megabyte es n ∧
    handed es = [bare.msg 0] := by
  obtain ⟨d, hpost⟩ := bare_fits
  have hs := step_post hpost
  have hok : Accepted 0 [] megabyte (.post true bare) := by
    intro b_run p he
    cases he
    exact ⟨fun _ => rfl, d, hpost⟩
  have hrun : Run (step 0) (Accepted 0) megabyte [] megabyte := .start
  obtain ⟨more, n', hrun', _, hhanded⟩ :=
    (every_message_is_handed_out_once_in_the_order_of_the_lock (hrun.next hok hs)).2.1 rfl
  exact ⟨_, n', hrun', hhanded⟩

/-- While every post has room for all of its record or for nothing, the buffer holds whole
records, and a further post leaves it so, a refused one with the messages that it had,
just when it has such room. -/
theorem the_queue_holds_whole_records_while_each_post_has_room_for_all_or_nothing
    {cus product : CModuleData} {es : List (Event × List Out)} {n : Queue}
    (h : Run (step self) Roomy (.start cus product) es n) :
    (∃ ms, parse n.p_product_md.data = some ms) ∧
    ∀ b_run p b_ret d, postMsg self b_run n.p_product_md p = .ok (b_ret, d) →
      (Intact n.p_product_md d b_ret ↔ Room n.p_product_md b_run p) := by
  obtain ⟨ms, hms⟩ := whole_of_run h
  exact ⟨⟨ms, hms⟩, fun b_run p b_ret d hs => intact_iff_room hms hs⟩

theorem a_message_without_data_leaves_whole_records : ∃ es n, Run (step 0) Roomy megabyte es n ∧
    posted 0 es = [bare.msg 0] ∧ ∃ ms, parse n.p_product_md.data = some ms := by
  obtain ⟨d, hpost⟩ := bare_fits
  have hs := step_post hpost
  have hok : Roomy [] megabyte (.post true bare) := by
    intro b_run p he
    cases he
    exact fun _ _ => Or.inl rfl
  have hrun : Run (step 0) Roomy megabyte [] megabyte := .start
  have hwhole :=
    (the_queue_holds_whole_records_while_each_post_has_room_for_all_or_nothing (hrun.next hok hs)).1
  exact ⟨_, _, hrun.next hok hs, rfl, hwhole⟩

/-- The data of a large frame do not fit behind their head in the empty queue of one megabyte.
The post is refused, and the head stays in the queue as the front of a record. -/
theorem a_refused_post_leaves_its_head : ∃ d, Run (step 0) Any megabyte [] megabyte ∧
    postMsg 0 true megabyte.p_product_md frame = .ok (false, d) ∧
    parse megabyte.p_product_md.data = some [] ∧ parse d.data = none := by
  have hhead : megabyte.p_product_md.m_un_len + enMtMsgHeadSize ≤
      megabyte.p_product_md.capacity := by
    rw [megabyte_len, megabyte_capacity]
    decide
  have hfull : megabyte.p_product_md.capacity <
      megabyte.p_product_md.m_un_len + enMtMsgHeadSize + frame.un_len.toNat := by
    rw [megabyte_len, megabyte_capacity, frame_len]
    decide
  have hsum : megabyte.p_product_md.m_un_len + enMtMsgHeadSize + frame.un_len.toNat <
      4294967296 := by
    rw [megabyte_len, frame_len]
    decide
  obtain ⟨d, hpost, hdata⟩ := postMsg_half 0 frame_data hhead hfull hsum
  have hhalf : parse ((frame.head 0).bytes frame.unset ++ []) = none := by
    apply parse_half
    have hpos : 0 < frame.un_len.toNat := by
      rw [frame_len]
      decide
    exact hpos
  refine ⟨d, .start, hpost, parse_nil, ?_⟩
  rw [List.append_nil] at hhalf
  rw [hdata]
  exact hhalf

end util.module_queue
