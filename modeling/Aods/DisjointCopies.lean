-- The `memcpy` by which `Remove` brings what stands behind a frame to the front of the decode
-- buffer. It may not write what it reads. The law says for which frames and which cuts of their
-- stream no copy of the receive loop does.
import Aods.RoundTrip

open flat_memory fuel_loop segmentation machine
open util.mem_cache util.commu_protocol util.commu_protocol.CAoCommuProtocol
open util.sock_channel util.frame util.round_trip

namespace util.disjoint_copies

/-! ## Copies -/

/-- The copy of `MoveNext` in a turn of the receive loop. -/
def turnCopy (p : CAoCommuProtocol) : Option Copy :=
  match p.getContent with
  | .error _ => none
  | .ok g =>
    match g.content, g.acp.decode_amc.cache with
    | some _, some m => copyOf g.acp.decode_amc 0 (u32 (aoMsg m).n_data_len)
    | _, _ => none

/-- The loops of `ReadData` for chunk after chunk come by a state. -/
def ReadsBy (fuel : Nat) : List Chunk → CAoCommuProtocol → CAoCommuProtocol → Prop
  | [], _, _ => False
  | c :: cs, p, t =>
    ComesBy (some c.got) (.ok c.bytes) p t ∨
      ∃ r, readData fuel (some c.got) (.ok c.bytes) p = some (.ok r) ∧ ReadsBy fuel cs r.acp t

/-- Each of their copies is apart. -/
def CopiesApart (fuel : Nat) (cs : List Chunk) (p : CAoCommuProtocol) : Prop :=
  ∀ t, ReadsBy fuel cs p t → ∀ c ∈ turnCopy t, c.Apart

/-! ## Frames and cuts -/

/-- Where each frame of a stream ends, with its length. -/
def ends : Nat → List Frame → List (Nat × Nat)
  | _, [] => []
  | o, f :: fs => (o + f.total, f.total) :: ends (o + f.total) fs

/-- Where each chunk of it begins and ends. -/
def cuts : Nat → List Chunk → List (Nat × Nat)
  | _, [] => []
  | o, c :: cs => (o, o + c.bytes.length) :: cuts (o + c.bytes.length) cs

/-- Behind a frame, the chunk that completes it has no more than the frame is long. -/
def LittleBehind (fs : List Frame) (cs : List Chunk) : Prop :=
  ∀ x ∈ cuts 0 cs, ∀ y ∈ ends 0 fs, x.1 < y.1 → y.1 ≤ x.2 → x.2 ≤ y.1 + y.2

instance (fs : List Frame) (cs : List Chunk) : Decidable (LittleBehind fs cs) := by
  unfold LittleBehind
  infer_instance

variable {p : CAoCommuProtocol} {f : Frame} {fs gs : List Frame} {cs : List Chunk}
  {s t u buf : Bytes} {o : Nat}

/-! ## One turn -/

theorem turnCopy_of_stop {w : Stop} (h : turn p = .stop w) : turnCopy p = none := by
  unfold turn at h
  unfold turnCopy
  cases hg : p.getContent with
  | error f => rfl
  | ok g =>
    rw [hg] at h
    dsimp only at h ⊢
    cases hc : g.content with
    | none => rfl
    | some c =>
      rw [hc] at h
      dsimp only at h ⊢
      cases hm : g.acp.decode_amc.cache with
      | none => rfl
      | some m =>
        rw [moveNext, hm] at h
        cases h

theorem turnCopy_frame (h : Holds p (f.bytes ++ t)) :
    turnCopy p = if 0 < t.length then some ⟨0, f.total, t.length⟩ else none := by
  obtain ⟨m, hm, _⟩ := h.block
  obtain ⟨hacc, hre⟩ := reread_frame h hm
  have hoff := h.off
  rw [List.length_append, f.length_bytes] at hoff
  have hcopy : turnCopy p =
      copyOf (p.withDecoded (decoded f.head m p.ae)).decode_amc 0 (u32 (reread p f.head m)) := by
    unfold turnCopy
    rw [getContent_of_accepts hacc hm, if_neg (not_dividesByZero_frame f)]
    rfl
  have hsame : (p.withDecoded (decoded f.head m p.ae)).decode_amc.cache_off = f.total + t.length :=
    hoff
  rw [hcopy, hre, copyOf, hsame]
  by_cases ht : 0 < t.length
  · rw [if_pos ht, if_pos (by omega), Nat.add_sub_cancel_left]
  · rw [if_neg ht, if_neg (by omega)]

theorem apart_frame (h : Holds p (f.bytes ++ t)) : (∀ c ∈ turnCopy p, c.Apart) ↔
    t.length ≤ f.total := by
  rw [turnCopy_frame h]
  split
  · simp only [Option.mem_def, Option.some.injEq, forall_eq', Copy.apart_iff]
    omega
  · simp only [Option.not_mem_none, false_implies, implies_true, true_iff]
    omega

/-! ## One read -/

theorem lt_of_mem_ends {y : Nat × Nat} (h : y ∈ ends o (f :: fs)) : o + f.total ≤ y.1 := by
  induction fs generalizing f o with
  | nil =>
    simp only [ends, List.mem_singleton] at h
    rw [h]
  | cons g fs ih =>
    rcases List.mem_cons.mp h with rfl | h
    · exact le_refl _
    · have hle := ih h
      omega

/-- The loop over the front of a stream, of which the frames end at some places, makes its copies
apart just when little stands behind each frame that has arrived. -/
theorem loop_apart (hholds : Holds p s) (hstream : s ++ u = stream fs) (o : Nat) :
    (∀ t, Visits turn p t → ∀ c ∈ turnCopy t, c.Apart) ↔
      ∀ y ∈ ends o fs, y.1 ≤ o + s.length → o + s.length ≤ y.1 + y.2 := by
  induction fs generalizing p s o with
  | nil =>
    have hnil : s = [] := (List.append_eq_nil_iff.mp hstream).1
    subst hnil
    have hstop := turn_empty hholds
    simp only [visits_of_stop hstop, forall_eq, turnCopy_of_stop hstop]
    simp [ends]
  | cons f fs ih =>
    rcases front_cases hstream with ⟨hlt, v, hv⟩ | ⟨v, rfl, hrest⟩
    · -- no frame has arrived
      have hstop := turn_part hholds hlt hv
      simp only [visits_of_stop hstop, forall_eq, turnCopy_of_stop hstop]
      refine iff_of_true (by simp) (fun y hy hle => ?_)
      have hbegin := lt_of_mem_ends hy
      omega
    · obtain ⟨p', hnext, hholds'⟩ := turn_frame hholds
      simp only [visits_of_next hnext, or_imp, forall_and, forall_eq]
      rw [apart_frame hholds, ih hholds' hrest (o + f.total), ends, List.forall_mem_cons,
        List.length_append, f.length_bytes, ← Nat.add_assoc]
      dsimp only
      constructor
      · rintro ⟨hfirst, hall⟩
        exact ⟨fun _ => by omega, hall⟩
      · rintro ⟨hfirst, hall⟩
        have hle := hfirst (by omega)
        exact ⟨by omega, hall⟩

/-! ## Read after read -/

theorem ends_append (o : Nat) (fs gs : List Frame) :
    ends o (fs ++ gs) = ends o fs ++ ends (o + (stream fs).length) gs := by
  induction fs generalizing o with
  | nil => rfl
  | cons f fs ih =>
    rw [List.cons_append, ends, ends, ih, length_stream_cons, Nat.add_assoc]
    rfl

theorem ends_le {y : Nat × Nat} (h : y ∈ ends o fs) : y.1 ≤ o + (stream fs).length := by
  induction fs generalizing o with
  | nil => cases h
  | cons f fs ih =>
    rw [length_stream_cons]
    rcases List.mem_cons.mp h with rfl | h
    · dsimp only
      omega
    · have hle := ih h
      omega

theorem le_of_mem_cuts {x : Nat × Nat} (h : x ∈ cuts o cs) : o ≤ x.1 := by
  induction cs generalizing o with
  | nil => cases h
  | cons c cs ih =>
    rcases List.mem_cons.mp h with rfl | h
    · exact le_refl _
    · have hle := ih h
      omega

/-- What the decoder takes off the front of a stream are its first frames. -/
theorem drain_front (h : s ++ u = stream fs) : ∃ done todo, fs = done ++ todo ∧
    s = stream done ++ (frameDecoder.drain s).2 ∧ (frameDecoder.drain s).2 ++ u = stream todo := by
  induction fs generalizing s with
  | nil =>
    have hnil : s = [] := (List.append_eq_nil_iff.mp h).1
    subst hnil
    rw [drain_none frameDecoder (show frameDecoder.next [] = none from nextFrame_nil)]
    exact ⟨[], [], rfl, rfl, h⟩
  | cons f fs ih =>
    rcases front_cases h with ⟨hlt, v, hv⟩ | ⟨v, rfl, hrest⟩
    · rw [drain_none frameDecoder (nextFrame_part hlt hv)]
      exact ⟨[], f :: fs, rfl, rfl, h⟩
    · obtain ⟨done, todo, hfs, hs, htodo⟩ := ih hrest
      rw [drain_some frameDecoder (nextFrame_bytes f v)]
      refine ⟨f :: done, todo, by rw [hfs, List.cons_append], ?_, htodo⟩
      rw [stream_cons, List.append_assoc]
      exact congrArg (f.bytes ++ ·) hs

theorem lt_ends_of_none (h : s ++ u = stream fs) (hnone : nextFrame s = none) {y : Nat × Nat}
    (hy : y ∈ ends o fs) :
    o + s.length < y.1 := by
  cases fs with
  | nil => cases hy
  | cons f fs =>
    rcases front_cases h with ⟨hlt, _⟩ | ⟨v, rfl, _⟩
    · have hbegin := lt_of_mem_ends hy
      omega
    · rw [nextFrame_bytes] at hnone
      cases hnone

theorem copiesApart_cons {c : Chunk} {q : CAoCommuProtocol} {fuel : Nat} (r : Readed)
    (hq : p.appendDecodeData (some c.got) c.bytes = (true, q))
    (hread : readData fuel (some c.got) (.ok c.bytes) p = some (.ok r)) :
    CopiesApart fuel (c :: cs) p ↔
      (∀ t, Visits turn q t → ∀ k ∈ turnCopy t, k.Apart) ∧ CopiesApart fuel cs r.acp := by
  unfold CopiesApart
  simp only [ReadsBy, or_imp, forall_and]
  apply and_congr
  · constructor
    · intro h t hv
      exact h t ⟨c.bytes, rfl, c.some_arrived, by rw [hq], by rw [hq]; exact hv⟩
    · rintro h t ⟨bs, he, _, _, hv⟩
      cases he
      rw [hq] at hv
      exact h t hv
  · constructor
    · intro h t ht
      exact h t ⟨_, hread, ht⟩
    · rintro h t ⟨r', hr, ht⟩
      rw [hread] at hr
      cases hr
      exact h t ht

/-- Reads of the front of a stream make their copies apart just when little stands behind each frame
in the chunk that completes it. -/
theorem reads_apart {fuel : Nat} (hholds : Holds p buf) (hnone : nextFrame buf = none)
    (hstream : buf ++ (cs.map Chunk.bytes).flatten ++ u = stream fs)
    (hfuel : (buf ++ (cs.map Chunk.bytes).flatten).length < fuel) (o : Nat) :
    CopiesApart fuel cs p ↔
      ∀ x ∈ cuts (o + buf.length) cs, ∀ y ∈ ends o fs, x.1 < y.1 → y.1 ≤ x.2 → x.2 ≤ y.1 + y.2 := by
  induction cs generalizing p buf fs o with
  | nil =>
    unfold CopiesApart
    simp [ReadsBy, cuts]
  | cons c cs ih =>
    rw [List.map_cons, List.flatten_cons, ← List.append_assoc] at hstream hfuel
    have haligned : Aligned (buf ++ c.bytes) :=
      ⟨(cs.map Chunk.bytes).flatten ++ u, fs, by rw [← List.append_assoc, hstream]⟩
    have hshort := short_of_none haligned.left hnone
    have hcounted := c.counted
    rw [List.length_append] at hfuel
    obtain ⟨q, hq, hqholds⟩ := hholds.append c (by rw [List.length_append]; omega)
    obtain ⟨p', hread, hp', _⟩ := @readData_holds p buf c hholds hnone haligned fuel (by omega)
    rw [List.append_assoc] at hstream
    obtain ⟨done, todo, rfl, hs, htodo⟩ := drain_front hstream
    have hlen := congrArg List.length hs
    rw [List.length_append, List.length_append] at hlen
    have hleft := drain_length_le frameDecoder (buf ++ c.bytes)
    rw [copiesApart_cons _ hq hread, loop_apart hqholds hstream o,
      ih hp' (next_drain frameDecoder _) (by rw [List.append_assoc]; exact htodo)
        (by rw [List.length_append]; omega) (o + (stream done).length)]
    have hplace : o + (stream done).length + (frameDecoder.drain (buf ++ c.bytes)).2.length =
        o + buf.length + c.bytes.length := by omega
    rw [hplace, cuts, List.forall_mem_cons, List.length_append, ← Nat.add_assoc]
    apply and_congr
    · constructor
      · exact fun h y hy _ => h y hy
      · exact fun h y hy =>
          h y hy (lt_ends_of_none (by rw [← List.append_assoc]; exact hstream) hnone hy)
    · -- no frame that is done ends in a later chunk
      constructor
      · intro h x hx y hy hlt
        rw [ends_append] at hy
        rcases List.mem_append.mp hy with hy | hy
        · have hend := ends_le hy
          have hbegin := le_of_mem_cuts hx
          omega
        · exact h x hx y hy hlt
      · intro h x hx y hy
        exact h x hx y (by rw [ends_append]; exact List.mem_append_right _ hy)

/-! ## The law -/

/-- The copies of the receive loops over the front of a stream of frames are apart just when each
chunk has, behind a frame that it completes, no more bytes than the frame. -/
theorem copies_are_apart_just_when_little_stands_behind {fs : List Frame} {cs : List Chunk}
    {u : Bytes} {fuel : Nat} (a : Mem UInt8) (b : Option (Mem UInt8))
    (h : (cs.map Chunk.bytes).flatten ++ u = stream fs)
    (hfuel : (cs.map Chunk.bytes).flatten.length < fuel) :
    CopiesApart fuel cs (new (some a) b 10240) ↔ LittleBehind fs cs :=
  reads_apart (holds_new a b) nextFrame_nil h hfuel 0

/-- The frame of an empty message. -/
def emptyFrame : Frame := ⟨175, [], [], by decide, by decide, by decide, by decide⟩

theorem length_emptyFrames (n : Nat) : (stream (List.replicate n emptyFrame)).length = 12 * n := by
  induction n with
  | zero => rfl
  | succ n ih =>
    have htotal : emptyFrame.total = 12 := rfl
    rw [List.replicate_succ, length_stream_cons, ih, htotal]
    omega

/-- Some empty messages that arrive in one read. -/
def together (n : Nat) (hpos : 0 < n) (hsmall : n < 1000) : Chunk where
  got := fun _ => 0
  bytes := stream (List.replicate n emptyFrame)
  some_arrived := by
    intro hnil
    have hlen := length_emptyFrames n
    rw [hnil, List.length_nil] at hlen
    omega
  counted := by
    rw [length_emptyFrames]
    omega

theorem cuts_together {n : Nat} (hpos : 0 < n) (hsmall : n < 1000) :
    cuts 0 [together n hpos hsmall] = [(0, 12 * n)] := by
  have hlen : (together n hpos hsmall).bytes.length = 12 * n := length_emptyFrames n
  rw [cuts, cuts, hlen, Nat.zero_add]

theorem two_empty_messages_are_copied_apart :
    CopiesApart 25 [together 2 (by decide) (by decide)] (new (some fun _ => 0) none 10240) := by
  have hbytes : ([together 2 (by decide) (by decide)].map Chunk.bytes).flatten ++ [] =
      stream (List.replicate 2 emptyFrame) := by
    simp [together]
  rw [copies_are_apart_just_when_little_stands_behind _ _ hbytes (by
    rw [← List.append_nil (List.flatten _), hbytes, length_emptyFrames]
    decide)]
  unfold LittleBehind
  rw [cuts_together]
  decide

/-- With three, the second and the third are brought to the front over themselves. -/
theorem three_empty_messages_are_copied_over_themselves :
    ¬ CopiesApart 37 [together 3 (by decide) (by decide)] (new (some fun _ => 0) none 10240) := by
  have hbytes : [] ++ ([together 3 (by decide) (by decide)].map Chunk.bytes).flatten ++ [] =
      stream (List.replicate 3 emptyFrame) := by
    simp [together]
  rw [reads_apart (holds_new _ _) nextFrame_nil hbytes (by
    rw [← List.append_nil ([] ++ List.flatten _), hbytes, length_emptyFrames]
    decide) 0, List.length_nil, cuts_together]
  decide

end util.disjoint_copies
