-- `CAoSockChannel::SendMsg`, which sends a frame piece by piece and stops at a piece that the
-- socket does not take. The channel stays open then, and the next call sends the next frame. The
-- law says when the bytes that the socket took are frames one after another, with a part of one at
-- most at the end.
import Aods.RoundTrip
import Aods.Runs
import Mathlib.Data.Set.List

open flat_memory machine runs
open util.mem_cache util.encrypt util.commu_protocol util.commu_protocol.CAoCommuProtocol
open util.frame util.round_trip

namespace util.send_msg

/-! ## The model -/

/-- The loop of `SendMsg`, from `n_offset` on: where it ends, and whether no `Send` has failed. The
list has what `Send` answers, call by call. There is no result when it is too short. -/
def sendLoop (buf : Bytes) : List Int → Nat → Option (Nat × Bool)
  | [], n_offset => if (n_offset : Int) < i32 buf.length then none else some (n_offset, true)
  | n :: ns, n_offset =>
    if (n_offset : Int) < i32 buf.length then
      if n < 1 then some (n_offset, false) else sendLoop buf ns (n_offset + n.toNat)
    else some (n_offset, true)

/-- What a call of `SendMsg` sends out: bytes to the socket, and the failure to all modules. -/
inductive Out where
  | taken (bs : Bytes)
  | send_data_fail
  deriving DecidableEq

/-- A connection: the protocol, whether `OnFree` has closed the socket, and the frames that
`EncodeMsg` has made for it, each with the number of its bytes that the socket took. -/
structure Conn where
  acp : CAoCommuProtocol
  closed : Bool
  frames : List (Bytes × Nat)

/-- A call of `SendMsg` by `SendData2Channel`, and one of `OnFree` by `OnFreeChannel`. -/
inductive Event where
  | send (got : Option (Mem UInt8)) (rand : Nat → Nat) (data : Bytes) (answers : List Int)
  | free

def opened (a b : Option (Mem UInt8)) : Conn := ⟨new a b 10240, false, []⟩

/-- Behind `Close` every `Send` answers -1. -/
def answersOf (c : Conn) (answers : List Int) : List Int := if c.closed then [-1] else answers

def handle : Handler Conn Event Out (Option Fault)
  | c, .free => .ok ({ c with closed := true }, [])
  | c, .send got rand data answers =>
    match c.acp.encodeMsg got rand data with
    | .error f => .error (some f)
    | .ok (acp, none) => .ok ({ c with acp := acp }, [.send_data_fail])
    | .ok (acp, some buf) =>
      match sendLoop buf (answersOf c answers) 0 with
      | none => .error none
      | some (n, all) =>
        .ok ({ c with acp := acp, frames := c.frames ++ [(buf, n)] },
          .taken (buf.take n) :: if all then [] else [.send_data_fail])

/-- The bytes that the socket took. -/
def Conn.sent (c : Conn) : Bytes := (c.frames.map (fun t => t.1.take t.2)).flatten

/-- The socket took a part of the frame only. -/
def IsCut (t : Bytes × Nat) : Prop := 0 < t.2 ∧ t.2 < t.1.length

instance (t : Bytes × Nat) : Decidable (IsCut t) := inferInstanceAs (Decidable (_ ∧ _))

/-- Behind a part of a frame nothing is sent. -/
def Intact (c : Conn) : Prop := c.frames.Pairwise (fun older newer => IsCut older → newer.2 = 0)

/-- Frames one after another, and a part of one at most at the end. -/
def Framed (c : Conn) : Prop :=
  ∃ (fs : List Bytes) (part : Bytes), c.sent = fs.flatten ++ part ∧
    (∀ f ∈ fs, f ∈ c.frames.map Prod.fst) ∧
    (part = [] ∨ ∃ f ∈ c.frames.map Prod.fst, part <+: f)

/-- A call has bytes to send. -/
def Sends (c : Conn) (got : Option (Mem UInt8)) (rand : Nat → Nat) (data : Bytes) : Prop :=
  ∃ acp buf, c.acp.encodeMsg got rand data = .ok (acp, some buf) ∧ 0 < i32 buf.length

/-- Behind a part of a frame the socket is closed, or takes nothing of the next. -/
def GivesUp (_ : List (Event × List Out)) (c : Conn) : Event → Prop
  | .free => True
  | .send got rand data answers => (∃ t ∈ c.frames, IsCut t) → Sends c got rand data →
      c.closed = true ∨ ∀ n, answers.head? = some n → n < 1

/-- The allocator has a block for the frame of a call, which is no longer than a frame may be. -/
def Fits : Event → Prop
  | .free => True
  | .send got _ data _ => got.isSome ∧ 12 + keyLenOf data.length + data.length ≤ 1048576

/-! ## The loop -/

theorem sendLoop_le {buf : Bytes} {ns : List Int} {o n : Nat} {all : Bool}
    (h : sendLoop buf ns o = some (n, all)) : o ≤ n := by
  induction ns generalizing o with
  | nil =>
    unfold sendLoop at h
    split at h
    · cases h
    · cases h
      exact Nat.le_refl _
  | cons k ns ih =>
    unfold sendLoop at h
    split at h
    · split at h
      · cases h
        exact Nat.le_refl _
      · have := ih h
        omega
    · cases h
      exact Nat.le_refl _

/-- When the first `Send` fails, or there is none, nothing is taken. -/
theorem sendLoop_refused {buf : Bytes} {ns : List Int} {n : Nat} {all : Bool}
    (hfirst : 0 < i32 buf.length → ∀ k, ns.head? = some k → k < 1)
    (h : sendLoop buf ns 0 = some (n, all)) : n = 0 := by
  cases ns with
  | nil =>
    unfold sendLoop at h
    split at h
    · cases h
    · cases h
      rfl
  | cons k ns =>
    unfold sendLoop at h
    split at h
    · rename_i hpos
      rw [if_pos (hfirst hpos k rfl)] at h
      cases h
      rfl
    · cases h
      rfl

/-- A first `Send` that takes something takes it of the first bytes. -/
theorem sendLoop_taken {buf : Bytes} {n : Nat} {k : Int} {ns : List Int} {all : Bool}
    (hpos : 0 < i32 buf.length) (hk : 1 ≤ k) (h : sendLoop buf (k :: ns) 0 = some (n, all)) :
    0 < n := by
  have hgo : ((0 : Nat) : Int) < i32 buf.length := hpos
  unfold sendLoop at h
  rw [if_pos hgo, if_neg (by omega)] at h
  have hle := sendLoop_le h
  omega

/-! ## One event -/

/-- What an event leaves: `OnFree` and a call without a frame change no frame, and a call with a
frame has it behind the others. -/
inductive Step (c c' : Conn) : Event → Prop
  | freed (same : c'.frames = c.frames) (tables : c'.acp = c.acp) : Step c c' .free
  | none {got rand data answers acp} (encoded : c.acp.encodeMsg got rand data = .ok (acp, none))
      (same : c'.frames = c.frames) (kept : c'.acp = acp) : Step c c' (.send got rand data answers)
  | some {got rand data answers acp buf n all}
      (encoded : c.acp.encodeMsg got rand data = .ok (acp, some buf))
      (sent : sendLoop buf (answersOf c answers) 0 = some (n, all))
        (more : c'.frames = c.frames ++ [(buf, n)])
      (kept : c'.acp = acp) : Step c c' (.send got rand data answers)

theorem handle_step {c c' : Conn} {e : Event} {os : List Out} (h : handle c e = .ok (c', os)) :
    Step c c' e := by
  cases e with
  | free =>
    cases h
    exact .freed rfl rfl
  | send got rand data answers =>
    unfold handle at h
    dsimp only at h
    split at h
    · cases h
    · rename_i acp he
      cases h
      exact .none he rfl rfl
    · rename_i acp buf he
      split at h
      · cases h
      · rename_i n all hl
        cases h
        exact .some he hl rfl rfl

/-! ## When nothing follows a part of a frame -/

theorem intact_step {es : List (Event × List Out)} {c c' : Conn} {e : Event} (h : Intact c)
    (hok : GivesUp es c e) (hs : Step c c' e) : Intact c' := by
  unfold Intact at h ⊢
  cases hs with
  | freed same =>
    rw [same]
    exact h
  | none encoded same =>
    rw [same]
    exact h
  | @some got rand data answers acp buf n all encoded sent more =>
    rw [more, List.pairwise_append]
    refine ⟨h, List.pairwise_singleton _ _, ?_⟩
    intro t ht u hu hcut
    cases List.mem_singleton.mp hu
    apply sendLoop_refused _ sent
    intro hpos
    unfold answersOf
    rcases hok ⟨t, ht, hcut⟩ ⟨acp, buf, encoded, hpos⟩ with hclosed | hfirst
    · rw [if_pos hclosed]
      intro k hk
      cases hk
      decide
    · split
      · intro k hk
        cases hk
        decide
      · exact hfirst

/-- Where nothing follows, the event has met the condition. -/
theorem givesUp_of_intact {es : List (Event × List Out)} {c c' : Conn} {e : Event} (h : Intact c')
    (hs : Step c c' e) :
    GivesUp es c e := by
  cases hs with
  | freed => trivial
  | none encoded =>
    rintro _ ⟨acp, buf, hmade, _⟩
    cases encoded.symm.trans hmade
  | @some got rand data answers acp buf n all encoded sent more =>
    rintro ⟨t, ht, hcut⟩ ⟨acp', buf', hmade, hpos⟩
    cases encoded.symm.trans hmade
    unfold Intact at h
    rw [more, List.pairwise_append] at h
    have hzero : n = 0 := h.2.2 t ht (buf, n) List.mem_cons_self hcut
    by_cases hclosed : c.closed = true
    · exact Or.inl hclosed
    · right
      intro k hk
      unfold answersOf at sent
      rw [if_neg hclosed] at sent
      cases answers with
      | nil => cases hk
      | cons k' ns =>
        cases hk
        by_contra hge
        have hpos' := sendLoop_taken hpos (by omega) sent
        omega

theorem intact_of_more {c c' : Conn} {e : Event} (h : Intact c') (hs : Step c c' e) : Intact c := by
  unfold Intact at h ⊢
  cases hs with
  | freed same =>
    rw [same] at h
    exact h
  | none encoded same =>
    rw [same] at h
    exact h
  | some encoded sent more =>
    rw [more, List.pairwise_append] at h
    exact h.1

/-! ## The bytes that the socket took -/

theorem framed_of_pairwise {ts : List (Bytes × Nat)}
    (h : ts.Pairwise (fun older newer => IsCut older → newer.2 = 0)) :
    ∃ (fs : List Bytes) (part : Bytes), (ts.map (fun t => t.1.take t.2)).flatten =
      fs.flatten ++ part ∧
      (∀ f ∈ fs, f ∈ ts.map Prod.fst) ∧ (part = [] ∨ ∃ f ∈ ts.map Prod.fst, part <+: f) := by
  induction ts with
  | nil => exact ⟨[], [], rfl, by simp, Or.inl rfl⟩
  | cons t ts ih =>
    obtain ⟨hall, hrest⟩ := List.pairwise_cons.mp h
    by_cases hcut : IsCut t
    · -- nothing follows
      have hnil : (ts.map (fun t => t.1.take t.2)).flatten = [] := by
        rw [List.flatten_eq_nil_iff]
        intro bs hbs
        obtain ⟨u, hu, rfl⟩ := List.mem_map.mp hbs
        rw [hall u hu hcut, List.take_zero]
      refine ⟨[], t.1.take t.2, ?_, by simp, Or.inr ⟨t.1, by simp, List.take_prefix _ _⟩⟩
      rw [List.map_cons, List.flatten_cons, hnil]
      simp
    · obtain ⟨fs, part, hsent, hfs, hpart⟩ := ih hrest
      have hmem : ∀ f ∈ ts.map Prod.fst, f ∈ (t :: ts).map Prod.fst := by
        intro f hf
        exact List.mem_cons_of_mem _ hf
      have hpart' : part = [] ∨ ∃ f ∈ (t :: ts).map Prod.fst, part <+: f := by
        rcases hpart with hnil | ⟨f, hf, hpre⟩
        · exact Or.inl hnil
        · exact Or.inr ⟨f, hmem f hf, hpre⟩
      by_cases hzero : t.2 = 0
      · refine ⟨fs, part, ?_, fun f hf => hmem f (hfs f hf), hpart'⟩
        rw [List.map_cons, List.flatten_cons, hzero, List.take_zero, List.nil_append]
        exact hsent
      · have hwhole : t.1.take t.2 = t.1 := by
          apply List.take_of_length_le
          unfold IsCut at hcut
          omega
        refine ⟨t.1 :: fs, part, ?_, ?_, hpart'⟩
        · rw [List.map_cons, List.flatten_cons, hwhole, hsent, List.flatten_cons, List.append_assoc]
        · intro f hf
          rcases List.mem_cons.mp hf with rfl | hf
          · exact List.mem_cons_self
          · exact hmem f (hfs f hf)

/-- Every frame is one that the peer takes as a whole. -/
def Made (c : Conn) : Prop :=
  DefaultTables c.acp.ae ∧ ∀ f ∈ c.frames.map Prod.fst, f ∈ Set.range Frame.bytes

theorem made_step {c c' : Conn} {e : Event} (h : Made c) (hfits : Fits e) (hs : Step c c' e) :
    Made c' := by
  unfold Made at h ⊢
  cases hs with
  | freed same tables =>
    rw [same, tables]
    exact h
  | @none got rand data answers acp encoded same kept =>
    obtain ⟨hgot, hlen⟩ := hfits
    obtain ⟨g, rfl⟩ := Option.isSome_iff_exists.mp hgot
    obtain ⟨p', henc, _⟩ := encodeMsg_frame h.1 ⟨g, rand, data, hlen⟩
    cases encoded.symm.trans henc
  | @some got rand data answers acp buf n all encoded sent more kept =>
    obtain ⟨hgot, hlen⟩ := hfits
    obtain ⟨g, rfl⟩ := Option.isSome_iff_exists.mp hgot
    obtain ⟨p', henc, htab⟩ := encodeMsg_frame h.1 ⟨g, rand, data, hlen⟩
    cases encoded.symm.trans henc
    refine ⟨kept ▸ htab, ?_⟩
    intro f hf
    rw [more, List.map_append, List.mem_append] at hf
    rcases hf with hf | hf
    · exact h.2 f hf
    · cases List.mem_singleton.mp hf
      exact ⟨_, rfl⟩

theorem aligned_of_framed {c : Conn} (hmade : Made c) (h : Framed c) : Aligned c.sent := by
  obtain ⟨fs, part, hsent, hfs, hpart⟩ := h
  have hrange : fs ∈ Set.range (List.map Frame.bytes) := by
    rw [Set.range_list_map]
    intro f hf
    exact hmade.2 f (hfs f hf)
  obtain ⟨gs, rfl⟩ := hrange
  rcases hpart with rfl | ⟨f, hf, r, hr⟩
  · refine ⟨[], gs, ?_⟩
    rw [hsent, List.append_nil, List.append_nil]
    rfl
  · obtain ⟨g, rfl⟩ := hmade.2 f hf
    refine ⟨r, gs ++ [g], ?_⟩
    rw [hsent, List.append_assoc, hr, stream, List.map_append, List.flatten_append]
    simp

/-! ## The law -/

/-- Nothing follows a part of a frame just when, behind one, the socket is closed or takes nothing.
Then the bytes that it took are frames and a part of one at the end, and the peer's decoder finds
frame after frame in them. -/
theorem the_stream_stays_framed_just_when_a_part_is_the_last {a b : Option (Mem UInt8)}
    {es : List (Event × List Out)} {c : Conn} (h : Run handle Any (opened a b) es c) :
    (Intact c ↔ Run handle GivesUp (opened a b) es c) ∧
      (Intact c → Framed c ∧ ((∀ e ∈ es, Fits e.1) → Aligned c.sent)) := by
  refine ⟨⟨?_, ?_⟩, ?_⟩
  · intro hintact
    induction h with
    | start => exact .start
    | next _ _ hstep ih =>
      have hs := handle_step hstep
      exact .next (ih (intact_of_more hintact hs)) (givesUp_of_intact hintact hs) hstep
  · intro hrun
    refine Run.invariant (I := fun _ c => Intact c) ?_ ?_ hrun
    · exact List.Pairwise.nil
    · intro es c e c' os hintact hok hstep
      exact intact_step hintact hok (handle_step hstep)
  · intro hintact
    have hframed : Framed c := framed_of_pairwise hintact
    refine ⟨hframed, fun hfits => ?_⟩
    have hmade : (∀ e ∈ es, Fits e.1) → Made c := by
      refine Run.invariant (I := fun es c => (∀ e ∈ es, Fits e.1) → Made c) ?_ ?_ h
      · intro _
        exact ⟨defaultTables_new _ _ _, by simp [opened]⟩
      · intro es c e c' os ih _ hstep hfits
        have hmade := ih (fun x hx => hfits x (List.mem_cons_of_mem _ hx))
        exact made_step hmade (hfits _ List.mem_cons_self) (handle_step hstep)
    exact aligned_of_framed (hmade hfits) hframed

/-- A call for an empty payload. -/
def sendEmpty (answers : List Int) : Event := .send (some fun _ => 0) (fun _ => 0) [] answers

/-- The frame of an empty payload. -/
def emptyFrame : Bytes := [12, 0, 0, 0, 175, 0, 0, 0, 0, 0, 0, 0]

/-- A frame goes out in two pieces, the next one stops behind five bytes, and the channel is freed
before a third. -/
theorem a_freed_channel_sends_no_more :
    ∃ es c, Run handle Any (opened (some fun _ => 0) (some fun _ => 0)) es c ∧
      c.frames = [(emptyFrame, 12), (emptyFrame, 5), (emptyFrame, 0)] ∧ Framed c ∧
        Aligned c.sent := by
  have h0 : Run handle Any (opened (some fun _ => 0) (some fun _ => 0)) [] _ := .start
  have h1 := Run.next (e := sendEmpty [7, 5]) h0 trivial rfl
  have h2 := Run.next (e := sendEmpty [5, -1]) h1 trivial rfl
  have h3 := Run.next (e := Event.free) h2 trivial rfl
  have h4 := Run.next (e := sendEmpty [12]) h3 trivial rfl
  obtain ⟨hframed, haligned⟩ := (the_stream_stays_framed_just_when_a_part_is_the_last h4).2 (by
    show List.Pairwise _ [(emptyFrame, 12), (emptyFrame, 5), (emptyFrame, 0)]
    decide)
  refine ⟨_, _, h4, rfl, hframed, haligned ?_⟩
  intro e he
  simp only [List.mem_cons, List.not_mem_nil, or_false] at he
  rcases he with rfl | rfl | rfl | rfl
  · exact ⟨rfl, by decide⟩
  · trivial
  · exact ⟨rfl, by decide⟩
  · exact ⟨rfl, by decide⟩

/-- A frame stops behind five bytes, and the next call sends the next frame all the same. -/
theorem a_part_is_followed_by_a_frame :
    ∃ es c, Run handle Any (opened (some fun _ => 0) (some fun _ => 0)) es c ∧
      es.map Prod.fst = [sendEmpty [12], sendEmpty [5, -1]] ∧
        c.frames = [(emptyFrame, 5), (emptyFrame, 12)] ∧
      ¬ Intact c ∧ ¬ Framed c := by
  have h0 : Run handle Any (opened (some fun _ => 0) (some fun _ => 0)) [] _ := .start
  have h1 := Run.next (e := sendEmpty [5, -1]) h0 trivial rfl
  have h2 := Run.next (e := sendEmpty [12]) h1 trivial rfl
  refine ⟨_, _, h2, rfl, rfl, ?_, ?_⟩
  · show ¬ List.Pairwise _ [(emptyFrame, 5), (emptyFrame, 12)]
    decide
  · rintro ⟨fs, part, hsent, hfs, hpart⟩
    have hone : ∀ f ∈ [emptyFrame, emptyFrame], f = emptyFrame := by simp
    have hbytes : emptyFrame.take 5 ++ emptyFrame = fs.flatten ++ part := hsent
    cases fs with
    | nil =>
      -- seventeen bytes are no part of a frame of twelve
      rw [List.flatten_nil, List.nil_append] at hbytes
      rcases hpart with rfl | ⟨f, hf, hpre⟩
      · exact absurd hbytes (by decide)
      · have hlen := hpre.length_le
        rw [← hbytes, hone f hf] at hlen
        exact absurd hlen (by decide)
    | cons f fs =>
      have hfirst : f = emptyFrame := hone f (hfs f List.mem_cons_self)
      rw [hfirst, List.flatten_cons, List.append_assoc] at hbytes
      have hleft : (emptyFrame ++ (fs.flatten ++ part)).take 12 = emptyFrame := List.take_left' rfl
      have htake := congrArg (List.take 12) hbytes
      rw [hleft] at htake
      exact absurd htake (by decide)

end util.send_msg
