-- The thread of a module with its waits: `CModule::Run` sleeps at a `CAoEvent` that the senders
-- signal behind their posts. The module is a mailbox, whichever of the two events it is built with,
-- and the law says that no message that was posted needs a timer, or another message, to be handed
-- out.
import Aods.AoEvent
import Aods.ModuleQueue

open machine runs mailboxes
open util.ao_event util.module_data util.module_queue

namespace util.module_waits

/-! ## The model -/

/-- Where the thread is: at `Wait`, before the lock, in the loop over its buffer, or behind its
loop. -/
inductive Place where
  | wait
  | swap
  | read
  | gone
  deriving DecidableEq

/-- The module with its event, and the senders between `Unlock` and `Signal`. -/
structure Module where
  queue : Queue
  ev_wait : CAoEvent
  unsignalled : Nat
  place : Place

/-- A post up to `Unlock`, a `Signal` behind one, a wait that ends without a signal, or the next
thing that the thread does; with a message that it hands out comes whether its handler ends the
module. -/
inductive Event where
  | post (b_run : Bool) (p : Post)
  | signal
  | timeout
  | thread (stops : Bool)

def Module.start (cus product : CModuleData) (ev_wait : CAoEvent) : Module :=
  ⟨.start cus product, ev_wait, 0, .wait⟩

/-- The part of a round under the lock. -/
def Module.swap (n : Module) : Module :=
  { n with
    queue := { n.queue with
      p_cus_md := n.queue.p_product_md
      p_product_md := n.queue.p_cus_md.reset
      un_offset := 0 }
    place := .read }

def Module.thread (self : UInt64) (n : Module) (stops : Bool) : Except Fault (Module × List Out) :=
  match n.place with
  | .wait =>
    match n.ev_wait.wait with
    | none => .ok (n, [])
    | some ev_wait => .ok ({ n with ev_wait, place := .swap }, [])
  | .swap => .ok (n.swap, [])
  | .read =>
    if n.queue.un_offset < n.queue.p_cus_md.m_un_len ∧ n.queue.b_run then do
      let (queue, os) ← module_queue.step self n.queue (.run stops)
      .ok ({ n with queue }, os)
    else
      -- the timers, and the head of the loop
      .ok ({ n with place := if n.queue.b_run then .wait else .gone }, [])
  | .gone => .ok (n, [])

def step (self : UInt64) : Handler Module Event Out Fault
  | n, .post b_run p => do
    let (b_ret, d) ← postMsg self b_run n.queue.p_product_md p
    .ok ({ n with
      queue := { n.queue with p_product_md := d }
      unsignalled := if b_run then n.unsignalled + 1 else n.unsignalled }, [.ret b_ret])
  | n, .signal =>
    if n.unsignalled = 0 then .ok (n, [])
    else .ok ({ n with ev_wait := n.ev_wait.signal, unsignalled := n.unsignalled - 1 }, [])
  | n, .timeout => .ok (if n.place = .wait then { n with place := .swap } else n, [])
  | n, .thread stops => n.thread self stops

/-! ## Histories -/

def postOf (self : UInt64) : Event × List Out → Option MtMsg
  | (.post _ p, [.ret true]) => some (p.msg self)
  | _ => none

def handOf : Event × List Out → Option MtMsg
  | (_, [.do_msg pmm]) => some pmm
  | _ => none

/-- The messages of the posts that returned true, in the order of the lock. -/
def posted (self : UInt64) (es : List (Event × List Out)) : List MtMsg :=
  es.reverse.filterMap (postOf self)

/-- The messages that were handed to `DoMsg`, in this order. -/
def handed (es : List (Event × List Out)) : List MtMsg := es.reverse.filterMap handOf

/-- Every post has room for all of its record or for nothing of it. -/
def Roomy (_ : List (Event × List Out)) (n : Module) (e : Event) : Prop :=
  ∀ b_run p, e = .post b_run p → Room n.queue.p_product_md b_run p

/-- The thread is in its wait, and no signal lets it go on. -/
def Sleeps (n : Module) : Prop := n.place = .wait ∧ n.ev_wait.wait = none

variable {self : UInt64} {es : List (Event × List Out)} {n n' : Module} {e : Event} {os : List Out}
  {x x' : Box MtMsg CAoEvent}

theorem posted_cons (y : Event × List Out) (es : List (Event × List Out)) :
    posted self (y :: es) = posted self es ++ (postOf self y).toList := by
  unfold posted
  rw [List.reverse_cons, List.filterMap_append]
  cases h : postOf self y with
  | none => simp [h]
  | some m => simp [h]

theorem handed_cons (y : Event × List Out) (es : List (Event × List Out)) :
    handed (y :: es) = handed es ++ (handOf y).toList := by
  unfold handed
  rw [List.reverse_cons, List.filterMap_append]
  cases h : handOf y with
  | none => simp [h]
  | some m => simp [h]

/-! ## The mailbox -/

def Place.pc : Place → Pc
  | .wait => .sleep
  | .swap => .fetch
  | .read => .handle
  | .gone => .handle

/-- A module that runs is a mailbox of messages. -/
structure Refines (me : UInt64) (es : List (Event × List Out)) (n : Module)
    (x : Box MtMsg CAoEvent) : Prop where
  waits : Waits n.queue x.now x.later
  running : n.queue.b_run = true
  bell : x.bell = n.ev_wait
  unrung : x.unrung = n.unsignalled
  pc : x.pc = n.place.pc
  here : n.place ≠ .gone
  came : x.came = posted me es
  handled : x.handled = handed es

theorem postMsg_puts {b_run b_ret : Bool} {d d' : CModuleData} {p : Post} {later : List MtMsg}
    (hroom : Room d b_run p) (h : postMsg self b_run d p = .ok (b_ret, d'))
    (hlater : parse d.data = some later) :
    (b_ret = true → b_run = true) ∧
      parse d'.data = some (later ++ (postOf self (.post b_run p, [.ret b_ret])).toList) := by
  rcases postMsg_cases h with ⟨rfl, rfl, _⟩ | ⟨hrun, hhead, ⟨rfl, hwhole, hdata⟩ | ⟨hlen, hhalf, _⟩⟩
  · refine ⟨Bool.noConfusion, ?_⟩
    rw [hlater]
    exact congrArg some (List.append_nil later).symm
  · refine ⟨fun _ => hrun, parse_post hlater hdata (fun hnull => ?_)⟩
    rcases hwhole with hzero | ⟨hsome, _⟩
    · exact hzero
    · exact absurd hnull hsome
  · rcases hroom hrun hhead with hzero | ⟨hsome, hfits⟩
    · exact absurd hzero hlen
    · rcases hhalf with ⟨_, hnull⟩ | ⟨_, hfull⟩
      · exact absurd hnull hsome
      · omega

theorem Refines.quiet (h : Refines self es n x) (hpost : postOf self (e, os) = none)
    (hhand : handOf (e, os) = none) :
    Refines self ((e, os) :: es) n x where
  waits := h.waits
  running := h.running
  bell := h.bell
  unrung := h.unrung
  pc := h.pc
  here := h.here
  came := by
    rw [posted_cons, hpost]
    exact h.came.trans (List.append_nil _).symm
  handled := by
    rw [handed_cons, hhand]
    exact h.handled.trans (List.append_nil _).symm

/-- A post is a put, unless the sender saw that the module does not run. -/
theorem Refines.post (h : Refines self es n x) {b_run b_ret : Bool} {p : Post} {d : CModuleData}
    (hroom : Room n.queue.p_product_md b_run p)
    (hpost : postMsg self b_run n.queue.p_product_md p = .ok (b_ret, d)) :
    Refines self ((.post b_run p, [.ret b_ret]) :: es)
      { n with
        queue := { n.queue with p_product_md := d }
        unsignalled := if b_run then n.unsignalled + 1 else n.unsignalled }
      (if b_run then x.put (postOf self (.post b_run p, [.ret b_ret])) else x) := by
  obtain ⟨hret, hparse⟩ := postMsg_puts hroom hpost h.waits.in_product
  cases b_run with
  | false =>
    have hnone : postOf self (.post false p, [.ret b_ret]) = none := by
      cases b_ret with
      | false => rfl
      | true => cases hret rfl
    rw [hnone, Option.toList_none, List.append_nil] at hparse
    have hquiet := h.quiet hnone rfl
    exact ⟨⟨h.waits.in_cus, hparse, h.waits.offset_le⟩, h.running, h.bell, h.unrung, h.pc,
      h.here, hquiet.came,
      hquiet.handled⟩
  | true =>
    refine ⟨⟨h.waits.in_cus, hparse, h.waits.offset_le⟩, h.running, h.bell,
      congrArg Nat.succ h.unrung, h.pc, h.here,
      ?_, ?_⟩
    · rw [posted_cons, ← h.came]
      rfl
    · rw [handed_cons]
      exact h.handled.trans (List.append_nil _).symm

theorem Refines.reads (h : Refines self es n x) : n.queue.un_offset < n.queue.p_cus_md.m_un_len ↔
    x.now ≠ [] := by
  have hwaits := h.waits.in_cus
  constructor
  · intro hlt hnil
    rw [hnil] at hwaits
    have hne : n.queue.p_cus_md.data.drop n.queue.un_offset ≠ [] := by
      intro hdrop
      have hlen := congrArg List.length hdrop
      rw [List.length_drop, CModuleData.length_data, List.length_nil] at hlen
      omega
    obtain ⟨_, _, _, _, hnow, _⟩ := parse_cons hwaits hne
    cases hnow
  · intro hne
    by_contra hge
    have hdrop : n.queue.p_cus_md.data.drop n.queue.un_offset = [] :=
      List.drop_of_length_le (by rw [CModuleData.length_data]; omega)
    rw [hdrop, parse_nil] at hwaits
    exact hne (Option.some.inj hwaits).symm

/-- What the thread does is the next step of the receiver, as long as no handler ends the module. -/
theorem Refines.thread (h : Refines self es n x) (stops : Bool) :
    ∃ n' os, step self n (.thread stops) = .ok (n', os) ∧
      (n'.queue.b_run = true ∨ stops = true ∧ n'.queue.b_run = false ∧ n'.place = .read) ∧
      (n'.queue.b_run = true → match x.next CAoEvent.bell false with
        | none => n' = n ∧ os = []
        | some x' => Refines self ((.thread stops, os) :: es) n' x') := by
  have hquiet : Refines self ((.thread stops, []) :: es) n x := h.quiet rfl rfl
  have hpc := h.pc
  simp only [module_waits.step, Module.thread, Box.next]
  cases hplace : n.place with
  | gone => exact absurd hplace h.here
  | wait =>
    rw [hplace] at hpc
    rw [hpc, h.bell]
    have hanswer : CAoEvent.bell.answer n.ev_wait = n.ev_wait.wait := rfl
    simp only [Place.pc, hanswer]
    cases hwait : n.ev_wait.wait with
    | none => exact ⟨n, [], rfl, Or.inl h.running, fun _ => ⟨rfl, rfl⟩⟩
    | some ev_wait =>
      exact ⟨_, _, rfl, Or.inl h.running,
        fun _ => ⟨h.waits, h.running, rfl, h.unrung, rfl, Place.noConfusion, hquiet.came,
        hquiet.handled⟩⟩
  | swap =>
    rw [hplace] at hpc
    rw [hpc]
    simp only [Place.pc, Bool.false_eq_true, false_and, if_false]
    exact ⟨_, _, rfl, Or.inl h.running,
      fun _ => ⟨⟨h.waits.in_product, parse_nil, Nat.zero_le _⟩, h.running, h.bell,
      h.unrung, rfl, Place.noConfusion, hquiet.came, hquiet.handled⟩⟩
  | read =>
    rw [hplace] at hpc
    rw [hpc]
    simp only [Place.pc]
    have hwaits := h.waits
    cases hnow : x.now with
    | nil =>
      have hge : ¬ (n.queue.un_offset < n.queue.p_cus_md.m_un_len ∧ n.queue.b_run = true) :=
        fun hread => h.reads.mp hread.1 hnow
      rw [hnow] at hwaits
      rw [if_neg hge, h.running]
      exact ⟨_, _, rfl, Or.inl h.running,
        fun _ => ⟨hwaits, h.running, h.bell, h.unrung, rfl, Place.noConfusion, hquiet.came,
        hquiet.handled⟩⟩
    | cons m now =>
      have hread : n.queue.un_offset < n.queue.p_cus_md.m_un_len ∧ n.queue.b_run = true :=
        ⟨h.reads.mpr (by rw [hnow]; exact List.cons_ne_nil m now), h.running⟩
      rw [hnow] at hwaits
      obtain ⟨offset, hs, hwaits'⟩ := hwaits.hand self h.running stops
      rw [if_pos hread, hs]
      refine ⟨_, _, rfl, ?_,
        fun hrun => ⟨hwaits', hrun, h.bell, h.unrung, rfl, Place.noConfusion, ?_, ?_⟩⟩
      · cases stops with
        | false => exact Or.inl rfl
        | true => exact Or.inr ⟨rfl, rfl, rfl⟩
      · rw [posted_cons]
        exact h.came.trans (List.append_nil _).symm
      · rw [handed_cons, ← h.handled]
        rfl

/-! ## Runs -/

/-- A module is a sound mailbox, or a handler has ended it. -/
def Kept (self : UInt64) (es : List (Event × List Out)) (n : Module) : Prop :=
  (∃ x, Refines self es n x ∧ Sound CAoEvent.bell x) ∨
    n.queue.b_run = false ∧ (n.place = .read ∨ n.place = .gone)

theorem kept_start (self : UInt64) (cus product : CModuleData) (ev_wait : CAoEvent) :
    Kept self [] (Module.start cus product ev_wait) :=
  Or.inl ⟨Box.start ev_wait .sleep,
    ⟨Waits.start cus product, rfl, rfl, rfl, rfl, Place.noConfusion, rfl, rfl⟩,
    sound_start CAoEvent.bell ev_wait .sleep⟩

theorem ended_step (hrun : n.queue.b_run = false) (hplace : n.place = .read ∨ n.place = .gone)
    (hstep : step self n e = .ok (n', os)) :
    n'.queue.b_run = false ∧ (n'.place = .read ∨ n'.place = .gone) := by
  cases e with
  | post b_run p =>
    obtain ⟨⟨b_ret, d⟩, _, hstep⟩ := bind_ok hstep
    cases hstep
    exact ⟨hrun, hplace⟩
  | signal =>
    simp only [step] at hstep
    split at hstep
    · cases hstep
      exact ⟨hrun, hplace⟩
    · cases hstep
      exact ⟨hrun, hplace⟩
  | timeout =>
    cases hstep
    rw [if_neg]
    · exact ⟨hrun, hplace⟩
    · intro hwait
      rw [hwait] at hplace
      rcases hplace with hplace | hplace
      · cases hplace
      · cases hplace
  | thread stops =>
    simp only [step, Module.thread] at hstep
    rcases hplace with hplace | hplace
    · rw [hplace] at hstep
      simp only [hrun, Bool.false_eq_true, and_false, if_false] at hstep
      cases hstep
      exact ⟨hrun, Or.inr rfl⟩
    · rw [hplace] at hstep
      cases hstep
      exact ⟨hrun, Or.inr hplace⟩

theorem kept_step (h : Kept self es n) (hok : Roomy es n e) (hstep : step self n e = .ok (n', os)) :
    Kept self ((e, os) :: es) n' := by
  rcases h with ⟨x, href, hsound⟩ | ⟨hrun, hplace⟩
  · cases e with
    | post b_run p =>
      obtain ⟨⟨b_ret, d⟩, hpost, hstep⟩ := bind_ok hstep
      cases hstep
      refine Or.inl ⟨_, href.post (hok b_run p rfl) hpost, ?_⟩
      split
      · exact hsound.put _
      · exact hsound
    | signal =>
      have hquiet : Refines self ((.signal, []) :: es) n x := href.quiet rfl rfl
      simp only [step] at hstep
      split at hstep
      · cases hstep
        exact Or.inl ⟨x, hquiet, hsound⟩
      · rename_i hne
        cases hstep
        have hpos : 0 < x.unrung := by
          rw [href.unrung]
          omega
        have hring : Step CAoEvent.bell false x
            { x with bell := x.bell.signal, unrung := x.unrung - 1 } := .ring hpos
        refine Or.inl ⟨{ x with bell := x.bell.signal, unrung := x.unrung - 1 },
          ⟨href.waits, href.running, ?_, ?_, href.pc, href.here,
          hquiet.came, hquiet.handled⟩, hsound.step hring⟩
        · exact congrArg CAoEvent.signal href.bell
        · exact congrArg (· - 1) href.unrung
    | timeout =>
      have hquiet : Refines self ((.timeout, []) :: es) n x := href.quiet rfl rfl
      cases hstep
      by_cases hwait : n.place = .wait
      · have hpc : x.pc = .sleep := by
          rw [href.pc, hwait]
          rfl
        have hend : Step CAoEvent.bell false x { x with pc := .fetch } := .timeout hpc
        rw [if_pos hwait]
        exact Or.inl ⟨{ x with pc := .fetch },
          ⟨href.waits, href.running, href.bell, href.unrung, rfl, Place.noConfusion,
          hquiet.came, hquiet.handled⟩, hsound.step hend⟩
      · rw [if_neg hwait]
        exact Or.inl ⟨x, hquiet, hsound⟩
    | thread stops =>
      obtain ⟨n₁, os₁, hstep₁, hends, hnext⟩ := href.thread stops
      rw [hstep] at hstep₁
      cases hstep₁
      rcases hends with hrun | ⟨_, hrun, hplace⟩
      · have hnext := hnext hrun
        cases hx : x.next CAoEvent.bell false with
        | none =>
          rw [hx] at hnext
          obtain ⟨rfl, rfl⟩ := hnext
          exact Or.inl ⟨x, href.quiet rfl rfl, hsound⟩
        | some x' =>
          rw [hx] at hnext
          exact Or.inl ⟨x', hnext, hsound.next hx⟩
      · exact Or.inr ⟨hrun, Or.inl hplace⟩
  · exact Or.inr (ended_step hrun hplace hstep)

theorem Kept.of_run {cus product : CModuleData} {ev_wait : CAoEvent}
    (h : Run (step self) Roomy (.start cus product ev_wait) es n) : Kept self es n := by
  apply h.invariant (I := Kept self) (kept_start self cus product ev_wait)
  intro es n e n' os hkept hok hstep
  exact kept_step hkept hok hstep

/-- The thread has gone on by steps of its own behind a history, and the module is a mailbox. -/
def Follows (self : UInt64) (init : Module) (es : List (Event × List Out)) (k : Nat)
    (n : List (Event × List Out) × Module) (x : Box MtMsg CAoEvent) : Prop :=
  Run (step self) Roomy init (n.1 ++ es) n.2 ∧ (∀ y ∈ n.1, y.1 = .thread false) ∧ n.1.length = k ∧
    Refines self (n.1 ++ es) n.2 x

theorem Follows.next {init : Module} {k : Nat} {m : List (Event × List Out) × Module}
    (h : Follows self init es k m x) (hx : x.next CAoEvent.bell false = some x') :
    ∃ m', Follows self init es (k + 1) m' x' := by
  obtain ⟨hrun, hown, hlen, href⟩ := h
  obtain ⟨n₁, os₁, hstep, hends, hnext⟩ := href.thread false
  have hruns : n₁.queue.b_run = true := by
    rcases hends with hruns | ⟨hfalse, _⟩
    · exact hruns
    · cases hfalse
  have href₁ := hnext hruns
  rw [hx] at href₁
  have hroomy : Roomy (m.1 ++ es) m.2 (.thread false) := by
    intro b_run p he
    cases he
  refine ⟨((.thread false, os₁) :: m.1, n₁), hrun.next hroomy hstep, ?_,
    congrArg Nat.succ hlen, href₁⟩
  intro y hy
  rcases List.mem_cons.mp hy with rfl | hy
  · rfl
  · exact hown y hy

/-! ## The law -/

/-- In any order of posts, signals, timeouts and steps of the thread: a thread that sleeps, when
every sender has signalled, has handed out all that was posted. From any other place of its loop it
comes to this by steps of its own, no more than three for each message and each signal that it has
not taken, and two. -/
theorem no_message_needs_a_timer {cus product : CModuleData} {ev_wait : CAoEvent}
    (h : Run (step self) Roomy (.start cus product ev_wait) es n) (hsignalled : n.unsignalled = 0) :
    (Sleeps n → handed es = posted self es) ∧
    (n.queue.b_run = true → ∃ more n', Run (step self) Roomy (.start cus product ev_wait)
      (more ++ es) n' ∧
      (∀ y ∈ more, y.1 = .thread false) ∧
      more.length ≤ 3 * (n.ev_wait.waits + ((posted self es).length - (handed es).length)) + 2 ∧
      Sleeps n' ∧ handed (more ++ es) = posted self es) := by
  rcases Kept.of_run h with ⟨x, href, hsound⟩ | ⟨hended, hplace⟩
  · have hunrung : x.unrung = 0 := href.unrung.trans hsignalled
    constructor
    · rintro ⟨hplace, hwait⟩
      have hasleep : Asleep CAoEvent.bell x := by
        unfold Asleep
        rw [href.pc, hplace, href.bell]
        exact ⟨rfl, hwait⟩
      rw [← href.handled, ← href.came]
      exact hsound.asleep hasleep hunrung
    · intro _
      have hfollows : Follows self (.start cus product ev_wait) es 0 ([], n) x :=
        ⟨h, fun y hy => absurd hy List.not_mem_nil, rfl, href⟩
      obtain ⟨k, ⟨more, n'⟩, x', hle, ⟨hrun', hmore, hlen, href'⟩, hsound', ⟨hpc, hanswer⟩,
          hunrung', hcame⟩ :=
        hsound.comes_to_sleep (fun _ _ _ _ => Follows.next) hfollows
      rw [Nat.zero_add, ← hlen] at hle
      refine ⟨more, n', hrun', hmore, Nat.le_trans hle ?_, ⟨?_, ?_⟩, ?_⟩
      · have hlen := congrArg List.length hsound.order
        rw [List.length_append, List.length_append] at hlen
        have hrings : CAoEvent.bell.rings x.bell = n.ev_wait.waits :=
          congrArg CAoEvent.waits href.bell
        have hweight : x.pc.weight false ≤ 2 := by
          cases x.pc <;> decide
        unfold Box.work
        rw [hrings, ← href.came, ← href.handled]
        omega
      · have hplace := href'.pc
        have hhere := href'.here
        rw [hpc] at hplace
        cases hn : n'.place with
        | wait => rfl
        | swap => rw [hn] at hplace; cases hplace
        | read => rw [hn] at hplace; cases hplace
        | gone => exact absurd hn hhere
      · rw [← href'.bell]
        exact hanswer
      · rw [← href'.handled, ← href.came, ← hcame]
        exact hsound'.asleep ⟨hpc, hanswer⟩ (hunrung'.trans hunrung)
  · constructor
    · rintro ⟨hwait, _⟩
      rw [hwait] at hplace
      rcases hplace with hplace | hplace
      · cases hplace
      · cases hplace
    · intro hrun
      rw [hended] at hrun
      cases hrun

/-- A module of one megabyte, with its thread at the event of Windows. -/
def idle : Module := ⟨megabyte, .createEvent, 0, .wait⟩

theorem a_message_without_data_needs_no_timer :
    ∃ es n, Run (step 0) Roomy idle es n ∧ Sleeps n ∧ handed es = [bare.msg 0] := by
  obtain ⟨d, hpost⟩ := bare_fits
  have hstep : step 0 idle (.post true bare) = .ok ({ idle with
      queue := { idle.queue with p_product_md := d }
      unsignalled := 1 }, [.ret true]) := by
    have hqueue : idle.queue.p_product_md = megabyte.p_product_md := rfl
    simp only [step]
    rw [hqueue, hpost]
    rfl
  have hroomy : Roomy [] idle (.post true bare) := by
    intro b_run p he
    cases he
    exact fun _ _ => Or.inl rfl
  have hsignal : Roomy [(.post true bare, [.ret true])] { idle with
      queue := { idle.queue with p_product_md := d }
      unsignalled := 1 } .signal := by
    intro b_run p he
    cases he
  have h0 : Run (step 0) Roomy idle [] idle := .start
  obtain ⟨more, n, hrun, _, _, hsleeps, hhanded⟩ :=
    (no_message_needs_a_timer ((h0.next hroomy hstep).next hsignal rfl) rfl).2 rfl
  exact ⟨_, n, hrun, hsleeps, hhanded⟩

end util.module_waits
