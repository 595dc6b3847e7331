-- `ReadData` and a head that the guards of `GetContent` refuse. `GetContent` says so in `nIsErr`,
-- and `ReadData` answers with the number of bytes all the same. The laws: while no such head comes
-- the buffer stays below the longest frame, and behind one every byte that arrives is held.
import Aods.RoundTrip
import Aods.Runs

open flat_memory fuel_loop machine runs
open util.mem_cache util.commu_protocol util.commu_protocol.CAoCommuProtocol
open util.sock_channel util.frame util.round_trip

namespace util.read_errors

/-! ## The model -/

/-- A call of `ReadData`: what the allocator answers, what `Recv` gives, and how many turns the loop
may take. -/
structure Call where
  got : Option (Mem UInt8)
  recv : Except Int Bytes
  fuel : Nat

/-- A call that does not come back is no step. -/
def handle : Handler CAoCommuProtocol Call Readed (Option Fault)
  | p, c =>
    match readData c.fuel c.got c.recv p with
    | none => .error none
    | some (.error f) => .error (some f)
    | some (.ok r) => .ok (r.acp, [r])

/-- No call has reported the end of the connection yet, and a chunk has 10240 bytes at most. -/
def Receives (es : List (Call × List Readed)) (_ : CAoCommuProtocol) (c : Call) : Prop :=
  (∀ x ∈ es, ∀ r ∈ x.2, 1 ≤ r.n_readed_len) ∧ ∀ bs, c.recv = .ok bs → bs.length ≤ 10240

/-- The guards of `GetContent` refuse the head at the front of the bytes. -/
def Refused (s : Bytes) : Prop :=
  enAoMsgSize ≤ s.length ∧ (enMaxProtocolLen < (headOf s).n_data_len ∨
    (headOf s).n_data_len < i32 ((headOf s).n_key_len + enAoMsgSize))

instance (s : Bytes) : Decidable (Refused s) := inferInstanceAs (Decidable (_ ∧ _))

/-- The loop of a call comes by no head that the guards refuse. -/
def HeadsHold (es : List (Call × List Readed)) (p : CAoCommuProtocol) (c : Call) : Prop :=
  Receives es p c ∧ ∀ t, ComesBy c.got c.recv p t → ¬ Refused t.decode_amc.content

/-- Behind a call that goes on, the buffer is shorter than the longest frame. -/
def Bounded (r : Readed) : Prop :=
  1 ≤ r.n_readed_len → (r.acp.decode_amc.cache_off : Int) < enMaxProtocolLen

/-- A call whose loop set `nIsErr` reports the end of the connection. -/
def Reported (r : Readed) : Prop := r.n_is_err ≠ 0 → r.n_readed_len < 1

/-! ## The last turn -/

theorem head_of_content {p : CAoCommuProtocol} {m : Mem UInt8} (hm : p.decode_amc.cache = some m)
    (hlen : enAoMsgSize ≤ p.decode_amc.cache_off) :
    p.decode_amc.content.length = p.decode_amc.cache_off ∧
      aoMsg m = headOf p.decode_amc.content := by
  rw [CAoMemCache.content_some hm, length_read]
  exact ⟨rfl, aoMsg_of_read rfl hlen⟩

theorem getContent_of_refused {p : CAoCommuProtocol} (h : Refused p.decode_amc.content) :
    p.getContent = .ok ⟨p, none, 1⟩ := by
  obtain ⟨hlen, hguard⟩ := h
  cases hm : p.decode_amc.cache with
  | none =>
    rw [CAoMemCache.content, hm] at hlen
    exact absurd hlen (Nat.not_succ_le_zero _)
  | some m =>
    rw [CAoMemCache.content_some hm, length_read] at hlen
    rw [← (head_of_content hm hlen).2] at hguard
    have hshort : ¬ p.decode_amc.cache_off < enAoMsgSize := Nat.not_lt.mpr hlen
    simp only [getContent, hshort, if_false, hm, hguard, if_true]

theorem turn_of_refused {p : CAoCommuProtocol} (h : Refused p.decode_amc.content) :
    turn p = .stop (.ok (p, 1)) := by
  rw [turn, getContent_of_refused h]

/-- A loop that stops at a head which is not refused waits for the rest of a frame. -/
theorem wait_of_stop {p q : CAoCommuProtocol} {e : Int} (h : turn p = .stop (.ok (q, e)))
    (hr : ¬ Refused p.decode_amc.content) (hcount : p.decode_amc.cache_off < 2147483648) :
    q = p ∧ e = 0 ∧ (p.decode_amc.cache_off : Int) < enMaxProtocolLen := by
  by_cases hshort : p.decode_amc.cache_off < enAoMsgSize
  · rw [turn, getContent_of_short hshort] at h
    cases h
    refine ⟨rfl, rfl, ?_⟩
    have hsmall : (p.decode_amc.cache_off : Int) < 12 := Int.ofNat_lt.mpr hshort
    exact Int.lt_trans hsmall (by decide)
  have hlen := Nat.not_lt.mp hshort
  cases hm : p.decode_amc.cache with
  | none =>
    simp only [turn, getContent, hshort, if_false, hm] at h
    cases h
  | some m =>
    obtain ⟨hcontent, hhead⟩ := head_of_content hm hlen
    have hguard : ¬ (enMaxProtocolLen < (aoMsg m).n_data_len ∨
        (aoMsg m).n_data_len < i32 ((aoMsg m).n_key_len + enAoMsgSize)) := by
      intro hg
      exact hr ⟨hcontent ▸ hlen, hhead ▸ hg⟩
    obtain ⟨hmax, hfit⟩ := not_or.mp hguard
    by_cases hpart : i32 p.decode_amc.cache_off < (aoMsg m).n_data_len
    · rw [turn, getContent_of_partial hlen hm (Int.not_lt.mp hmax) (Int.not_lt.mp hfit) hpart] at h
      cases h
      rw [i32_of_range (by omega) (by omega)] at hpart
      exact ⟨rfl, rfl, Int.lt_of_lt_of_le hpart (Int.not_lt.mp hmax)⟩
    · -- the guards let the head through, so the loop goes on
      have hacc : p.Accepts (aoMsg m) :=
        ⟨hlen, by simp [head, hm], Int.not_lt.mp hmax, Int.not_lt.mp hfit, Int.not_lt.mp hpart⟩
      by_cases hz : DividesByZero (aoMsg m)
      · rw [turn_of_dividesByZero hacc hz] at h
        cases h
      · rw [turn_of_accepts hacc hz hm] at h
        cases h

/-- No turn makes the buffer longer. -/
theorem visits_shrinks {p t : CAoCommuProtocol} (hv : Visits turn p t) :
    t.decode_amc.cache_off ≤ p.decode_amc.cache_off := by
  induction hv with
  | refl => exact Nat.le_refl _
  | tail _ hf ih =>
    obtain ⟨b, hb⟩ := hf
    obtain ⟨am, m, _, _, _, rfl⟩ := next_of_turn hb
    rw [advance_amc]
    exact Nat.le_trans (CAoMemCache.remove_le _ _ _) ih

/-! ## One call -/

theorem readData_cases {c : Call} {p : CAoCommuProtocol} {r : Readed}
    (h : readData c.fuel c.got c.recv p = some (.ok r)) :
    ((∀ t, ¬ ComesBy c.got c.recv p t) ∧ r.n_is_err = 0 ∧ (1 ≤ r.n_readed_len → r.acp = p)) ∨
      ∃ (bs : Bytes) (t : CAoCommuProtocol), c.recv = .ok bs ∧ bs ≠ [] ∧
        (p.appendDecodeData c.got bs).1 = true ∧
        Visits turn (p.appendDecodeData c.got bs).2 t ∧ turn t = .stop (.ok (r.acp, r.n_is_err)) ∧
        r.n_readed_len = bs.length := by
  cases hrecv : c.recv with
  | error n =>
    rw [hrecv] at h
    cases h
    refine Or.inl ⟨?_, rfl, fun _ => rfl⟩
    rintro t ⟨bs, he, _⟩
    cases he
  | ok bs =>
    rw [hrecv] at h
    by_cases hnil : bs = []
    · subst hnil
      cases h
      refine Or.inl ⟨?_, rfl, fun _ => rfl⟩
      rintro t ⟨bs, he, hne, _⟩
      cases he
      exact hne rfl
    cases happ : (p.appendDecodeData c.got bs).1 with
    | false =>
      have hlen : ¬ bs.length < 1 := by
        have := List.length_pos_of_ne_nil hnil
        omega
      simp only [readData, readBy, hlen, if_false, happ, if_true] at h
      cases h
      refine Or.inl ⟨?_, rfl, fun hpos => absurd hpos (by simp)⟩
      rintro t ⟨bs, he, _, happ', _⟩
      cases he
      rw [happ] at happ'
      cases happ'
    | true =>
      rw [readData_loop hnil happ] at h
      obtain ⟨⟨w, ms⟩, hl, hw⟩ := Option.map_eq_some_iff.mp h
      obtain ⟨t, hv, ht⟩ := visits_of_loop hl
      cases w with
      | error f => cases hw
      | ok s =>
        cases hw
        exact Or.inr ⟨bs, t, rfl, hnil, happ, hv, ht, rfl⟩

/-- A call that comes by a refused head sets `nIsErr` and reports the bytes. -/
theorem unreported_of_refused {c : Call} {p t : CAoCommuProtocol} {r : Readed}
    (h : readData c.fuel c.got c.recv p = some (.ok r)) (hv : ComesBy c.got c.recv p t)
    (hr : Refused t.decode_amc.content) : ¬ Reported r := by
  intro hrep
  rcases readData_cases h with ⟨hnone, _⟩ | ⟨bs, u, hrecv, hne, _, hu, hstop, hlen⟩
  · exact hnone t hv
  · obtain ⟨bs', hrecv', _, _, ht⟩ := hv
    rw [hrecv] at hrecv'
    cases hrecv'
    -- there is one place where the loop stops
    have hends : EndsIn turn (fun w => w = .ok (r.acp, r.n_is_err))
        (p.appendDecodeData c.got bs).2 :=
      endsIn_of_stop hu hstop rfl
    have hlast := (endsIn_stop (turn_of_refused hr)).mp (endsIn_of_visits ht hends)
    have herr : (1 : Int) = r.n_is_err := congrArg Prod.snd (Except.ok.inj hlast)
    have hpos := List.length_pos_of_ne_nil hne
    have hend := hrep (by omega)
    omega

/-- A call that comes by no refused head sets no error, and what it leaves is bounded. -/
theorem sound_of_heads {c : Call} {p : CAoCommuProtocol} {r : Readed}
    (h : readData c.fuel c.got c.recv p = some (.ok r))
    (hoff : (p.decode_amc.cache_off : Int) < enMaxProtocolLen)
    (hchunk : ∀ bs, c.recv = .ok bs → bs.length ≤ 10240)
    (hheads : ∀ t, ComesBy c.got c.recv p t → ¬ Refused t.decode_amc.content) :
    Bounded r ∧ Reported r := by
  rcases readData_cases h with ⟨_, herr, hsame⟩ | ⟨bs, t, hrecv, hne, happ, hv, hstop, hlen⟩
  · refine ⟨fun hpos => ?_, fun hne => absurd herr hne⟩
    rw [hsame hpos]
    exact hoff
  · have hmax : enMaxProtocolLen = 1048576 := rfl
    have hbs := hchunk bs hrecv
    have hend : (p.appendDecodeData c.got bs).2.decode_amc.cache_off =
        u32 (p.decode_amc.cache_off + bs.length) :=
      CAoMemCache.off_of_append hne happ
    have hsum : u32 (p.decode_amc.cache_off + bs.length) = p.decode_amc.cache_off + bs.length := by
      exact_mod_cast u32_of_lt (n := p.decode_amc.cache_off + bs.length) (by omega)
    have hle : t.decode_amc.cache_off ≤ p.decode_amc.cache_off + bs.length := by
      rw [← hsum, ← hend]
      exact visits_shrinks hv
    obtain ⟨hacp, herr, hbound⟩ :=
      wait_of_stop hstop (hheads t ⟨bs, hrecv, hne, happ, hv⟩) (by omega)
    refine ⟨fun _ => ?_, fun hne => absurd herr hne⟩
    rw [hacp]
    exact hbound

theorem handle_ok {c : Call} {p p' : CAoCommuProtocol} {os : List Readed}
    (h : handle p c = .ok (p', os)) :
    ∃ r, readData c.fuel c.got c.recv p = some (.ok r) ∧ p' = r.acp ∧ os = [r] := by
  simp only [handle] at h
  split at h
  · cases h
  · cases h
  · rename_i r hr
    cases h
    exact ⟨r, hr, rfl, rfl⟩

/-! ## The laws -/

/-- While no call has reported the end, the buffer is shorter than the longest frame. -/
def Open (es : List (Call × List Readed)) (p : CAoCommuProtocol) : Prop :=
  (∀ x ∈ es, ∀ r ∈ x.2, 1 ≤ r.n_readed_len) → (p.decode_amc.cache_off : Int) < enMaxProtocolLen

theorem open_step {es : List (Call × List Readed)} {p p' : CAoCommuProtocol} {c : Call}
    {os : List Readed} (hstep : handle p c = .ok (p', os)) (hb : ∀ r ∈ os, Bounded r) :
    Open ((c, os) :: es) p' := by
  obtain ⟨r, _, rfl, rfl⟩ := handle_ok hstep
  intro hpos
  exact hb r List.mem_cons_self (hpos _ List.mem_cons_self r List.mem_cons_self)

/-- Every answer of a connection is bounded and reported just when no loop of it comes by a head
that the guards refuse. -/
theorem the_buffer_is_bounded_just_when_no_head_is_refused {a b : Option (Mem UInt8)}
    {es : List (Call × List Readed)} {p : CAoCommuProtocol}
    (h : Run handle Receives (new a b 10240) es p) :
    (∀ x ∈ es, ∀ r ∈ x.2, Bounded r ∧ Reported r) ↔ Run handle HeadsHold (new a b 10240) es p := by
  constructor
  · intro hall
    induction h with
    | start => exact .start
    | next _ hok hstep ih =>
      have hbefore := ih (fun x hx => hall x (List.mem_cons_of_mem _ hx))
      refine .next hbefore ⟨hok, fun t ht hr => ?_⟩ hstep
      obtain ⟨r, hread, rfl, rfl⟩ := handle_ok hstep
      exact unreported_of_refused hread ht hr (hall _ List.mem_cons_self r List.mem_cons_self).2
  · intro hrun
    have hinv : (∀ x ∈ es, ∀ r ∈ x.2, Bounded r ∧ Reported r) ∧ Open es p := by
      refine Run.invariant (I := fun es p => (∀ x ∈ es, ∀ r ∈ x.2, Bounded r ∧ Reported r) ∧
        Open es p) ?_ ?_ hrun
      · refine ⟨by simp, fun _ => ?_⟩
        show ((0 : Nat) : Int) < 1048576
        decide
      · intro es p c p' os hinv hok hstep
        obtain ⟨hall, hopen⟩ := hinv
        obtain ⟨⟨hpos, hchunk⟩, hheads⟩ := hok
        obtain ⟨r, hread, rfl, rfl⟩ := handle_ok hstep
        have hr := sound_of_heads hread (hopen hpos) hchunk hheads
        refine ⟨?_, open_step hstep (by simpa using hr.1)⟩
        intro x hx r' hr'
        rcases List.mem_cons.mp hx with rfl | hx
        · cases List.mem_singleton.mp hr'
          exact hr
        · exact hall x hx r' hr'
    exact hinv.1

/-- A head and its end come in two chunks, with a part of the next head behind. -/
theorem two_chunks_of_a_sound_stream :
    ∃ es p, Run handle HeadsHold fresh es p ∧
      (es.map Prod.snd).flatten.map Readed.msgs = [[[]], []] ∧ p.decode_amc.cache_off = 3 := by
  have h0 : Run handle Receives fresh [] _ := .start
  have h1 := Run.next (e := (⟨none, .ok [12, 0, 0, 0, 1], 3⟩ : Call)) h0 (by simp [Receives]) rfl
  have h2 := Run.next (e := (⟨none, .ok [0, 0, 0, 0, 0, 0, 0, 40, 0, 0], 3⟩ : Call)) h1
    (by simp [Receives]) rfl
  refine ⟨_, _, (the_buffer_is_bounded_just_when_no_head_is_refused h2).mp ?_, rfl, rfl⟩
  intro x hx r hr
  rcases List.mem_cons.mp hx with rfl | hx
  · cases List.mem_singleton.mp hr
    exact ⟨fun _ => by decide, fun h => absurd rfl h⟩
  · cases List.mem_singleton.mp hx
    cases List.mem_singleton.mp hr
    exact ⟨fun _ => by decide, fun h => absurd rfl h⟩

/-! ## Behind a refused head -/

/-- A refused head lies at the front of a sound buffer of `n` bytes. -/
structure Stuck (p : CAoCommuProtocol) (n : Nat) : Prop where
  sound : p.decode_amc.Sound
  step : p.decode_amc.apped_step_size = enStepAppendSize
  refused : Refused p.decode_amc.content
  off : p.decode_amc.cache_off = n

theorem refused_append {s : Bytes} (h : Refused s) (t : Bytes) : Refused (s ++ t) := by
  obtain ⟨hlen, hguard⟩ := h
  refine ⟨by rw [List.length_append]; omega, ?_⟩
  rw [headOf_append hlen]
  exact hguard

/-- The bytes of a chunk are held, and `ReadData` reports their number. -/
theorem Stuck.read {p : CAoCommuProtocol} {n : Nat} (h : Stuck p n) (g : Mem UInt8) {bs : Bytes}
    (hne : bs ≠ []) (hroom : bs.length + n + 10240 < 4294967296) (fuel : Nat) :
    ∃ p', readData (fuel + 1) (some g) (.ok bs) p = some (.ok ⟨bs.length, p', [], 1⟩) ∧
      Stuck p' (n + bs.length) := by
  obtain ⟨amc, happ, hsound, hcontent, hoff, hstep⟩ := CAoMemCache.appendBuf_content h.sound g hne
    (by rw [h.step, h.off]; exact hroom)
  have hq : p.appendDecodeData (some g) bs = (true, { p with decode_amc := amc }) := by
    rw [appendDecodeData, happ]
  have hrefused : Refused amc.content := by
    rw [hcontent]
    exact refused_append h.refused bs
  refine ⟨{ p with decode_amc := amc }, ?_,
    ⟨hsound, hstep.trans h.step, hrefused, by rw [← h.off]; exact hoff⟩⟩
  rw [readData_loop hne (by rw [hq]), hq, loop_stop (turn_of_refused hrefused)]
  rfl

/-- Every answer reports bytes, and says nothing of the error. -/
def Silent (es : List (Call × List Readed)) : Prop :=
  ∀ x ∈ es, ∀ r ∈ x.2, 1 ≤ r.n_readed_len ∧ r.n_is_err = 1

/-- Chunk after chunk of 10240 bytes is held, up to four GiB, while every call sets `nIsErr` and
reports the bytes. -/
theorem stuck_run {p q : CAoCommuProtocol} {n : Nat} {es : List (Call × List Readed)} {bs : Bytes}
    (h : Run handle Receives p es q) (hall : Silent es) (hstuck : Stuck q n)
    (hbs : bs.length = 10240) (k : Nat) (hk : n + 10240 * k + 20480 < 4294967296) :
    ∃ es' q', Run handle Receives p (es' ++ es) q' ∧ Silent (es' ++ es) ∧ Stuck q' (n + 10240 * k) ∧
      es'.length = k := by
  induction k with
  | zero => exact ⟨[], q, h, hall, hstuck, rfl⟩
  | succ k ih =>
    obtain ⟨es', q', hrun, hsilent, hstuck', hlen⟩ := ih (by omega)
    have hne : bs ≠ [] := by
      rintro rfl
      cases hbs
    obtain ⟨p', hread, hnext⟩ := hstuck'.read (fun _ => 0) hne (by omega) 0
    have hstep : handle q' ⟨some fun _ => 0, .ok bs, 1⟩ = .ok (p', [⟨bs.length, p', [], 1⟩]) := by
      simp only [handle, hread]
    have hok : Receives (es' ++ es) q' ⟨some fun _ => 0, .ok bs, 1⟩ := by
      refine ⟨fun x hx r hr => (hsilent x hx r hr).1, fun bs' he => ?_⟩
      cases he
      exact Nat.le_of_eq hbs
    have hpos : (1 : Int) ≤ bs.length := Int.ofNat_lt.mpr (List.length_pos_of_ne_nil hne)
    refine ⟨_ :: es', p', .next hrun hok hstep, ?_, ?_, by rw [List.length_cons, hlen]⟩
    · intro x hx r hr
      rcases List.mem_cons.mp hx with rfl | hx
      · cases List.mem_singleton.mp hr
        exact ⟨hpos, rfl⟩
      · exact hsilent x hx r hr
    · have hsum : n + 10240 * k + bs.length = n + 10240 * (k + 1) := by omega
      rwa [hsum] at hnext

/-- A head of a length below zero, in twelve bytes. -/
def badHead : Bytes := le32 (-1) ++ le32 0 ++ le32 0

/-- Behind such a head the buffer comes to hold more than the longest frame, and no call reports
the end. -/
theorem a_refused_head_lets_the_buffer_grow :
    ∃ es p, Run handle Receives fresh es p ∧ es.length = 104 ∧
      enMaxProtocolLen < p.decode_amc.cache_off ∧ ∀ x ∈ es, ∀ r ∈ x.2, 1 ≤ r.n_readed_len ∧
        r.n_is_err = 1 := by
  have h0 : Run handle Receives fresh [] _ := .start
  have h1 : Run handle Receives fresh
      [(⟨none, .ok badHead, 1⟩, [⟨12, (fresh.appendDecodeData none badHead).2, [], 1⟩])]
      (fresh.appendDecodeData none badHead).2 :=
    .next h0 ⟨by simp, fun bs he => by cases he; decide⟩ rfl
  have hstuck : Stuck (fresh.appendDecodeData none badHead).2 12 :=
    ⟨⟨rfl, by decide⟩, rfl, by decide, rfl⟩
  have hbs : (List.replicate 10240 (0 : UInt8)).length = 10240 := List.length_replicate
  obtain ⟨es, p, hrun, hsilent, hstuck, hlen⟩ := stuck_run h1
    (fun x hx r hr => by
      cases List.mem_singleton.mp hx
      cases List.mem_singleton.mp hr
      exact ⟨by decide, rfl⟩) hstuck hbs 103 (by decide)
  refine ⟨_, p, hrun, by rw [List.length_append, hlen]; rfl, ?_, hsilent⟩
  rw [hstuck.off]
  decide
end util.read_errors
