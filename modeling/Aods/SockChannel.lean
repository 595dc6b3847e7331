-- `CAoSockChannel::ReadData`, the receive loop: it appends what arrived and
-- hands out frame after frame. The laws say exactly when the loop comes to its
-- end, in a block that it must not leave, and when a turn makes the buffer shorter.
import Aods.FuelLoop
import Aods.CommuProtocol

open flat_memory fuel_loop machine
open util.mem_cache util.commu_protocol util.commu_protocol.CAoCommuProtocol

namespace util.sock_channel

/-- The bytes that `OnRecvedData` is handed. -/
def dataOf (p : CAoCommuProtocol) (c : Content) : Bytes :=
  match p.decode_amc.cache with
  | none => []
  | some m => read m c.psz_data c.un_data_len

/-- How the loop stops: on a fault, or with the protocol and `nIsErr` at `NULL`. -/
abbrev Stop := Except Fault (CAoCommuProtocol × Int)

/-- One turn of the loop: `GetContent`, `OnRecvedData`, `MoveNext`. -/
def turn (p : CAoCommuProtocol) : Turn CAoCommuProtocol Stop Bytes :=
  match p.getContent with
  | .error f => .stop (.error f)
  | .ok g =>
    match g.content with
    | none => .stop (.ok (g.acp, g.n_is_err))
    | some c =>
      match g.acp.moveNext with
      | .error f => .stop (.error f)
      | .ok p => .next p (dataOf g.acp c)

/-- What `ReadData` answers, and what it did meanwhile. -/
structure Readed where
  n_readed_len : Int
  acp : CAoCommuProtocol
  msgs : List Bytes
  n_is_err : Int

/-- `ReadData` with the turns of its loop. `recv` is what the socket gives: the bytes that
arrived, or a count below one. There is no result when the fuel runs out. -/
def readBy (turn : CAoCommuProtocol → Turn CAoCommuProtocol Stop Bytes) (fuel : Nat)
    (got : Option (Mem UInt8)) (recv : Except Int Bytes) (p : CAoCommuProtocol) :
    Option (Except Fault Readed) :=
  match recv with
  | .error n => some (.ok ⟨n, p, [], 0⟩)
  | .ok bs =>
    if bs.length < 1 then some (.ok ⟨bs.length, p, [], 0⟩)
    else
      let r := p.appendDecodeData got bs
      if r.1 = false then some (.ok ⟨0, r.2, [], 0⟩)
      else (loop turn fuel r.2).map
        (fun q => q.1.map (fun s => ⟨bs.length, s.1, q.2, s.2⟩))

/-- `ReadData`, over a memory that goes on around the block. -/
def readData (fuel : Nat) (got : Option (Mem UInt8)) (recv : Except Int Bytes)
    (p : CAoCommuProtocol) : Option (Except Fault Readed) := readBy turn fuel got recv p

/-! ## The end of the block -/

/-- The cells that a turn goes to for a head: those of the key when the content is decrypted,
and the content, which is decrypted where it lies and copied by `OnRecvedData`. -/
def GoesTo (am : AoMsg) (i : Int) : Prop :=
  (Decrypts am ∧ ∃ n : Nat, n < 16 ∧ i = 12 + Int.tmod n am.n_key_len) ∨
    ((contentOf am).psz_data ≤ i ∧ i < (contentOf am).psz_data + (contentOf am).un_data_len)

/-- They lie in a block of some bytes. -/
def Within (am : AoMsg) (size : Nat) : Prop :=
  (Decrypts am → ∀ n : Nat, n < 16 →
    0 ≤ 12 + Int.tmod n am.n_key_len ∧ 12 + Int.tmod n am.n_key_len < size) ∧
    ((contentOf am).un_data_len = 0 ∨
      0 ≤ (contentOf am).psz_data ∧ (contentOf am).psz_data + (contentOf am).un_data_len ≤ size)

instance (am : AoMsg) (size : Nat) : Decidable (Within am size) :=
  inferInstanceAs (Decidable ((_ → ∀ _, _) ∧ _))

theorem within_iff (am : AoMsg) (size : Nat) :
    Within am size ↔ ∀ i, GoesTo am i → 0 ≤ i ∧ i < size := by
  constructor
  · rintro ⟨hkey, hcontent⟩ i (⟨hd, n, hn, rfl⟩ | ⟨hle, hlt⟩)
    · exact hkey hd n hn
    · rcases hcontent with hnil | hin
      · omega
      · omega
  · intro hall
    refine ⟨fun hd n hn => hall _ (Or.inl ⟨hd, n, hn, rfl⟩), ?_⟩
    by_cases hnil : (contentOf am).un_data_len = 0
    · exact Or.inl hnil
    · have hfirst := hall (contentOf am).psz_data (Or.inr (by omega))
      have hlast :=
        hall ((contentOf am).psz_data + (contentOf am).un_data_len - 1) (Or.inr (by omega))
      exact Or.inr (by omega)

/-- One turn of the loop in a block of `CacheSize` bytes. A turn that leaves the block is a
fault. -/
def turnInBlock (p : CAoCommuProtocol) : Turn CAoCommuProtocol Stop Bytes :=
  match turn p, p.head with
  | .next p' b, some am =>
    if Within am p.decode_amc.cache_size then .next p' b else .stop (.error .overrun)
  | t, _ => t

/-! ## One turn -/

/-- The protocol after a turn that hands out the content of the head `am`. -/
def advance (p : CAoCommuProtocol) (am : AoMsg) (m : Mem UInt8) : CAoCommuProtocol :=
  let q := p.withDecoded (decoded am m p.ae)
  let un_to := u32 (aoMsg (decoded am m p.ae).2).n_data_len
  { q with decode_amc := q.decode_amc.remove 0 un_to }

theorem turn_of_accepts {p : CAoCommuProtocol} {am : AoMsg} {m : Mem UInt8} (h : p.Accepts am)
    (hz : ¬ DividesByZero am) (hm : p.decode_amc.cache = some m) :
    turn p = .next (advance p am m) (read (decoded am m p.ae).2
      (contentOf am).psz_data (contentOf am).un_data_len) := by
  rw [turn, getContent_of_accepts h hm, if_neg hz]
  rfl

theorem turn_of_dividesByZero {p : CAoCommuProtocol} {am : AoMsg} (h : p.Accepts am)
    (hz : DividesByZero am) : turn p = .stop (.error .divide_by_zero) := by
  obtain ⟨m, hm, _⟩ := Option.map_eq_some_iff.mp h.at_front
  rw [turn, getContent_of_accepts h hm, if_pos hz]

theorem turn_of_not_accepts {p : CAoCommuProtocol} (h : ∀ am, ¬ p.Accepts am)
    (hm : p.decode_amc.cache.isSome) : ∃ e, turn p = .stop (.ok (p, e)) := by
  rcases getContent_of_not_accepts h with ⟨hn, _⟩ | ⟨e, hg⟩
  · rw [hn] at hm
    cases hm
  · exact ⟨e, by rw [turn, hg]⟩

/-! ## When the buffer gets shorter -/

/-- The length that `MoveNext` reads, after the decryption. -/
def reread (p : CAoCommuProtocol) (am : AoMsg) (m : Mem UInt8) : Int :=
  (aoMsg (decoded am m p.ae).2).n_data_len

theorem aoMsg_n_data_len (m : Mem UInt8) : (aoMsg m).n_data_len = i32 (word (read m 0 4)) := rfl

theorem reread_eq (p : CAoCommuProtocol) (am : AoMsg) (m : Mem UInt8) :
    reread p am m = i32 (word (read (decoded am m p.ae).2 0 4)) := by
  unfold reread
  rw [aoMsg_n_data_len]

theorem reread_range (p : CAoCommuProtocol) (am : AoMsg) (m : Mem UInt8) :
    -2147483648 ≤ reread p am m ∧ reread p am m < 2147483648 := by
  rw [reread_eq]
  exact i32_range _

theorem advance_amc (p : CAoCommuProtocol) (am : AoMsg) (m : Mem UInt8) :
    (advance p am m).decode_amc =
      (p.withDecoded (decoded am m p.ae)).decode_amc.remove 0 (u32 (reread p am m)) := rfl

/-- A turn makes the buffer shorter just when the length read again is not zero. -/
theorem advance_lt_iff {p : CAoCommuProtocol} {am : AoMsg} (h : p.Accepts am) (m : Mem UInt8) :
    (advance p am m).decode_amc.cache_off < p.decode_amc.cache_off ↔ reread p am m ≠ 0 := by
  have hoff : 0 < (p.withDecoded (decoded am m p.ae)).decode_amc.cache_off :=
    Nat.lt_of_lt_of_le (by decide) h.whole_head
  have hr := reread_range p am m
  have hz : u32 (reread p am m) ≠ 0 ↔ reread p am m ≠ 0 := by
    unfold u32
    omega
  rw [advance_amc, ← hz, ← CAoMemCache.remove_lt_iff hoff]
  rfl

/-- A length of zero read again leaves the decrypted block where it lies. -/
theorem advance_of_zero {p : CAoCommuProtocol} {am : AoMsg} {m : Mem UInt8}
    (h : reread p am m = 0) : advance p am m = p.withDecoded (decoded am m p.ae) := by
  have hamc := advance_amc p am m
  rw [h, show u32 0 = 0 from rfl, CAoMemCache.remove_nothing] at hamc
  unfold advance at hamc ⊢
  dsimp only at hamc ⊢
  rw [hamc]

/-- The guards let through a frame of no byte at all. -/
def Stalled (p : CAoCommuProtocol) : Prop := ∃ am, p.Accepts am ∧ am.n_data_len = 0

/-- The guards let through a frame whose key is needed and empty. -/
def Crashes (p : CAoCommuProtocol) : Prop := ∃ am, p.Accepts am ∧ DividesByZero am

/-- The guards let through a frame that leads a turn out of the block. -/
def Strays (p : CAoCommuProtocol) : Prop :=
  ∃ am, p.Accepts am ∧ ¬ DividesByZero am ∧ ∃ i, GoesTo am i ∧ (i < 0 ∨ p.decode_amc.cache_size ≤ i)

/-- The content of a frame of no byte does not reach the head, so the decryption
leaves the head alone. -/
theorem head_of_stalled {p : CAoCommuProtocol} {am : AoMsg} {m : Mem UInt8} (h : p.Accepts am)
    (hd : am.n_data_len = 0) (hm : p.decode_amc.cache = some m) :
    aoMsg (decoded am m p.ae).2 = am := by
  have ham : aoMsg m = am := by simpa [head, hm] using h.at_front
  have hr := h.key_len_range
  have hfit : i32 (am.n_key_len + 12) ≤ am.n_data_len := h.key_fits
  have hoff : (contentOf am).psz_data = 12 + am.n_key_len := rfl
  refine (aoMsg_congr (fun i h0 h12 => decoded_outside am m p.ae ?_)).trans ham
  by_cases hw : am.n_key_len + 12 < 2147483648
  · have hlen := un_data_len_eq h hw
    exact Or.inr (by omega)
  · exact Or.inl (by omega)

/-- A stalled loop makes one more turn and is stalled again, before the same head. -/
theorem stalled_stays {p : CAoCommuProtocol} (h : Stalled p) :
    ∃ p' b, turn p = .next p' b ∧ Stalled p' ∧ p'.head = p.head ∧
      p'.decode_amc.cache_size = p.decode_amc.cache_size := by
  obtain ⟨am, ham, hd⟩ := h
  obtain ⟨m, hm, _⟩ := Option.map_eq_some_iff.mp ham.at_front
  have hhead := head_of_stalled ham hd hm
  have hz : ¬ DividesByZero am := by
    rintro ⟨_, hk⟩
    have hfit : i32 (am.n_key_len + 12) ≤ am.n_data_len := ham.key_fits
    rw [hk, hd] at hfit
    exact absurd hfit (by decide)
  have hre : reread p am m = 0 := by rw [reread, hhead, hd]
  have hfront : (p.withDecoded (decoded am m p.ae)).head = some am := by
    simp [head, withDecoded, hhead]
  refine ⟨_, _, turn_of_accepts ham hz hm, ?_⟩
  rw [advance_of_zero hre]
  exact ⟨⟨am, ⟨ham.whole_head, hfront, ham.not_too_long, ham.key_fits, ham.arrived⟩, hd⟩,
    hfront.trans ham.at_front.symm, rfl⟩

/-- What a turn outside a stall brings down: the bytes held, and among turns that
remove nothing the ones that have yet to write a length of zero. -/
def effort (p : CAoCommuProtocol) : Nat :=
  2 * p.decode_amc.cache_off + if p.head.map (·.n_data_len) = some 0 then 0 else 1

theorem next_of_turn {p p' : CAoCommuProtocol} {b : Bytes} (h : turn p = .next p' b) :
    ∃ am m, p.Accepts am ∧ ¬ DividesByZero am ∧ p.decode_amc.cache = some m ∧
      p' = advance p am m := by
  by_cases hex : ∃ am, p.Accepts am
  · obtain ⟨am, ham⟩ := hex
    obtain ⟨m, hm, _⟩ := Option.map_eq_some_iff.mp ham.at_front
    by_cases hz : DividesByZero am
    · rw [turn_of_dividesByZero ham hz] at h
      cases h
    · rw [turn_of_accepts ham hz hm] at h
      cases h
      exact ⟨am, m, ham, hz, hm, rfl⟩
  · rw [turn] at h
    rcases getContent_of_not_accepts (fun am ham => hex ⟨am, ham⟩) with ⟨_, hn⟩ | ⟨e, hn⟩
    · rw [hn] at h
      cases h
    · rw [hn] at h
      cases h

theorem effort_drops {p p' : CAoCommuProtocol} {b : Bytes} (hs : ¬ Stalled p)
    (h : turn p = .next p' b) : effort p' < effort p := by
  obtain ⟨am, m, ham, _, hm, rfl⟩ := next_of_turn h
  have hd : am.n_data_len ≠ 0 := fun hd => hs ⟨am, ham, hd⟩
  by_cases hre : reread p am m = 0
  · have hbefore : ¬ p.head.map (·.n_data_len) = some 0 := by simpa [ham.at_front] using hd
    have hafter : (p.withDecoded (decoded am m p.ae)).head.map (·.n_data_len) = some 0 :=
      congrArg some hre
    rw [advance_of_zero hre, effort, effort, if_pos hafter, if_neg hbefore]
    exact Nat.lt_succ_self _
  · have hlt := (advance_lt_iff ham m).mpr hre
    unfold effort
    split
    · split
      · omega
      · omega
    · split
      · omega
      · omega

theorem block_of_turn {p p' : CAoCommuProtocol} {b : Bytes} (h : turn p = .next p' b) :
    p'.decode_amc.cache.isSome := by
  obtain ⟨am, m, _, _, _, rfl⟩ := next_of_turn h
  rw [advance_amc]
  exact CAoMemCache.block_remove rfl _ _

theorem block_of_append {got : Option (Mem UInt8)} {bs : Bytes} {p : CAoCommuProtocol}
    (hne : bs ≠ []) (h : (p.appendDecodeData got bs).1 = true) :
    (p.appendDecodeData got bs).2.decode_amc.cache.isSome :=
  CAoMemCache.block_of_append hne h

/-! ## Turns in the block -/

theorem accepts_head {p : CAoCommuProtocol} {am am' : AoMsg} (h : p.Accepts am)
    (h' : p.head = some am') : am' = am := by
  rw [h.at_front] at h'
  exact (Option.some.inj h').symm

/-- A turn that goes on in the block is one over the memory, and does not stray. -/
theorem next_in_block {p p' : CAoCommuProtocol} {b : Bytes} :
    turnInBlock p = .next p' b ↔ turn p = .next p' b ∧ ¬ Strays p := by
  cases ht : turn p with
  | stop w =>
    unfold turnInBlock
    rw [ht]
    simp
  | next q c =>
    obtain ⟨am, m, ham, hz, _, _⟩ := next_of_turn ht
    have hstrays : Strays p ↔ ¬ Within am p.decode_amc.cache_size := by
      rw [within_iff]
      constructor
      · rintro ⟨am', ham', _, i, hi, hout⟩ hall
        cases accepts_head ham ham'.at_front
        have hin := hall i hi
        omega
      · intro hall
        simp only [not_forall, not_and_or, Int.not_le, Int.not_lt] at hall
        obtain ⟨i, hi, hout⟩ := hall
        exact ⟨am, ham, hz, i, hi, hout⟩
    unfold turnInBlock
    rw [ht, ham.at_front, hstrays]
    dsimp only
    split
    · rename_i hin
      simp [hin]
    · rename_i hout
      simp [hout]

/-- The other ones stop with the memory, or stray. -/
theorem stop_in_block {p : CAoCommuProtocol} {w : Stop} :
    turnInBlock p = .stop w ↔ turn p = .stop w ∨ Strays p ∧ w = .error .overrun := by
  cases ht : turn p with
  | stop w' =>
    have hno : ¬ Strays p := by
      rintro ⟨am, ham, hz, _⟩
      obtain ⟨m, hm, _⟩ := Option.map_eq_some_iff.mp ham.at_front
      rw [turn_of_accepts ham hz hm] at ht
      cases ht
    unfold turnInBlock
    rw [ht]
    simp [hno]
  | next q c =>
    have hnext := @next_in_block p q c
    obtain ⟨am, m, ham, _, _, _⟩ := next_of_turn ht
    by_cases hs : Strays p
    · have hstop : turnInBlock p = .stop (.error .overrun) := by
        have hne : turnInBlock p ≠ .next q c := fun h => (hnext.mp h).2 hs
        unfold turnInBlock at hne ⊢
        rw [ht, ham.at_front] at hne ⊢
        dsimp only at hne ⊢
        split
        · rename_i hin
          rw [if_pos hin] at hne
          exact absurd rfl hne
        · rfl
      rw [hstop]
      simp [hs, eq_comm]
    · rw [hnext.mpr ⟨ht, hs⟩]
      simp [hs]

/-- A stall that lies in the block lasts. -/
theorem stall_lasts {p : CAoCommuProtocol} (h : Stalled p ∧ ¬ Strays p) :
    ∃ p' b, turnInBlock p = .next p' b ∧ Stalled p' ∧ ¬ Strays p' := by
  obtain ⟨hs, hin⟩ := h
  obtain ⟨p', b, ht, hs', hhead, hsize⟩ := stalled_stays hs
  refine ⟨p', b, next_in_block.mpr ⟨ht, hin⟩, hs', ?_⟩
  rintro ⟨am', ham', hz, i, hi, hout⟩
  obtain ⟨am, ham, hd⟩ := hs
  have hsame := accepts_head ham (hhead.symm.trans ham'.at_front)
  subst hsame
  rw [hsize] at hout
  exact hin ⟨am', ham, hz, i, hi, hout⟩

/-- Every turn in the block leaves a block behind. -/
theorem block_of_visits {p t : CAoCommuProtocol} (hv : Visits turnInBlock p t)
    (h : p.decode_amc.cache.isSome) :
    t.decode_amc.cache.isSome := by
  induction hv with
  | refl => exact h
  | tail _ hf _ =>
    obtain ⟨b, hb⟩ := hf
    exact block_of_turn (next_in_block.mp hb).1

/-- A stop without a fault is all that the loop asks for. -/
def Normal (w : Stop) : Prop := ∃ s, w = .ok s

theorem stop_normal_iff {p : CAoCommuProtocol} (h : p.decode_amc.cache.isSome) :
    (∀ w, turnInBlock p = .stop w → Normal w) ↔ ¬ Crashes p ∧ ¬ Strays p := by
  constructor
  · intro hw
    constructor
    · rintro ⟨am, ham, hz⟩
      obtain ⟨s, hs⟩ := hw _ (stop_in_block.mpr (Or.inl (turn_of_dividesByZero ham hz)))
      cases hs
    · intro hs
      obtain ⟨s, hs⟩ := hw _ (stop_in_block.mpr (Or.inr ⟨hs, rfl⟩))
      cases hs
  · rintro ⟨hc, hin⟩ w hw
    have hw := (stop_in_block.mp hw).resolve_right (fun hs => hin hs.1)
    by_cases hex : ∃ am, p.Accepts am
    · obtain ⟨am, ham⟩ := hex
      obtain ⟨m, hm, _⟩ := Option.map_eq_some_iff.mp ham.at_front
      rw [turn_of_accepts ham (fun hz => hc ⟨am, ham, hz⟩) hm] at hw
      cases hw
    · obtain ⟨e, he⟩ := turn_of_not_accepts (fun am ham => hex ⟨am, ham⟩) h
      rw [he] at hw
      cases hw
      exact ⟨_, rfl⟩

/-- The loop ends just when it comes by no stall, no crash, and no way out of the block. -/
theorem loop_ends_iff {p : CAoCommuProtocol} (h : p.decode_amc.cache.isSome) :
    EndsIn turnInBlock Normal p ↔ ∀ t, Visits turnInBlock p t →
      ¬ Stalled t ∧ ¬ Crashes t ∧ ¬ Strays t := by
  have hdrop : ∀ t t' b, ¬ (Stalled t ∧ ¬ Strays t) → turnInBlock t = .next t' b →
      effort t' < effort t := by
    intro t t' b hfree hnext
    obtain ⟨ht, hin⟩ := next_in_block.mp hnext
    exact effort_drops (fun hs => hfree ⟨hs, hin⟩) ht
  rw [endsIn_iff effort (fun t ht => stall_lasts ht) hdrop p]
  constructor
  · intro hall t hv
    obtain ⟨hfree, hstop⟩ := hall t hv
    obtain ⟨hc, hin⟩ := (stop_normal_iff (block_of_visits hv h)).mp hstop
    exact ⟨fun hs => hfree ⟨hs, hin⟩, hc, hin⟩
  · intro hall t hv
    obtain ⟨hs, hends⟩ := hall t hv
    exact ⟨fun hboth => hs hboth.1, (stop_normal_iff (block_of_visits hv h)).mpr hends⟩

/-! ## The laws -/

/-- The loop of `ReadData` on what `recv` gave comes by the state `t`. -/
def ComesBy (got : Option (Mem UInt8)) (recv : Except Int Bytes) (p t : CAoCommuProtocol) : Prop :=
  ∃ bs, recv = .ok bs ∧ bs ≠ [] ∧ (p.appendDecodeData got bs).1 = true ∧
    Visits turn (p.appendDecodeData got bs).2 t

theorem readData_loop {got : Option (Mem UInt8)} {bs : Bytes} {p : CAoCommuProtocol} (hne : bs ≠ [])
    (happ : (p.appendDecodeData got bs).1 = true) (fuel : Nat) :
    readData fuel got (.ok bs) p = (loop turn fuel (p.appendDecodeData got bs).2).map
      (fun q => q.1.map (fun s => ⟨bs.length, s.1, q.2, s.2⟩)) := by
  have hlen : ¬ bs.length < 1 := by
    have := List.length_pos_of_ne_nil hne
    omega
  simp [readData, readBy, hlen, happ]

/-- What `ReadData` makes of the end of its loop is a result when the end is normal. -/
theorem normal_map {ρ : Type} (f : CAoCommuProtocol × Int → ρ) (w : Stop) :
    (∃ r, w.map f = .ok r) ↔ Normal w := by
  cases w with
  | error f' => exact iff_of_false (fun ⟨r, hr⟩ => nomatch hr) (fun ⟨s, hs⟩ => nomatch hs)
  | ok s => exact iff_of_true ⟨f s, rfl⟩ ⟨s, rfl⟩

/-- `ReadData` comes back, in its block. -/
def ReadsToEnd (got : Option (Mem UInt8)) (recv : Except Int Bytes) (p : CAoCommuProtocol) : Prop :=
  ∃ fuel r, readBy turnInBlock fuel got recv p = some (.ok r)

/-- Its loop comes by a state. -/
def StandsBy (got : Option (Mem UInt8)) (recv : Except Int Bytes) (p t : CAoCommuProtocol) : Prop :=
  ∃ bs, recv = .ok bs ∧ bs ≠ [] ∧ (p.appendDecodeData got bs).1 = true ∧
    Visits turnInBlock (p.appendDecodeData got bs).2 t

theorem readsToEnd_loop {got : Option (Mem UInt8)} {bs : Bytes} {p : CAoCommuProtocol}
    (hne : bs ≠ []) (happ : (p.appendDecodeData got bs).1 = true) :
    ReadsToEnd got (.ok bs) p ↔ EndsIn turnInBlock Normal (p.appendDecodeData got bs).2 := by
  have hrun : ∀ fuel, readBy turnInBlock fuel got (.ok bs) p =
      (loop turnInBlock fuel (p.appendDecodeData got bs).2).map
      (fun q => q.1.map (fun s => ⟨bs.length, s.1, q.2, s.2⟩)) := by
    intro fuel
    have hlen : ¬ bs.length < 1 := by
      have := List.length_pos_of_ne_nil hne
      omega
    simp [readBy, hlen, happ]
  exact endsIn_of_run hrun (fun w _ => normal_map _ w)

/-- `ReadData` comes back just when its loop comes by no frame of no byte, by none whose key is
needed and empty, and by none that leads out of the block. Each other turn makes the buffer
shorter just when the length that `MoveNext` reads again is not zero. -/
theorem the_receive_loop_ends_just_when_no_frame_is_of_no_byte (got : Option (Mem UInt8))
    (recv : Except Int Bytes) (p : CAoCommuProtocol) :
    (ReadsToEnd got recv p ↔ ∀ t, StandsBy got recv p t → ¬ Stalled t ∧ ¬ Crashes t ∧ ¬ Strays t) ∧
      ∀ t, StandsBy got recv p t → ¬ Strays t → ∀ am m, t.Accepts am → t.decode_amc.cache = some m →
        ¬ DividesByZero am → ∃ t' b, turnInBlock t = .next t' b ∧
          (t'.decode_amc.cache_off < t.decode_amc.cache_off ↔ reread t am m ≠ 0) := by
  refine ⟨?_, fun t _ hin am m ham hm hz =>
    ⟨_, _, next_in_block.mpr ⟨turn_of_accepts ham hz hm, hin⟩, advance_lt_iff ham m⟩⟩
  by_cases hrun : ∃ bs, recv = .ok bs ∧ bs ≠ [] ∧ (p.appendDecodeData got bs).1 = true
  · obtain ⟨bs, rfl, hne, happ⟩ := hrun
    have hblock := block_of_append hne happ
    rw [readsToEnd_loop hne happ, loop_ends_iff hblock]
    constructor
    · rintro h t ⟨bs', he, _, _, hv⟩
      cases he
      exact h t hv
    · intro h t hv
      exact h t ⟨bs, rfl, hne, happ, hv⟩
  · -- no turn is made: nothing arrived, or there was no room for it
    refine iff_of_true ?_ (fun t ⟨bs, hr, hne, happ, _⟩ => absurd ⟨bs, hr, hne, happ⟩ hrun)
    cases recv with
    | error n => exact ⟨0, _, rfl⟩
    | ok bs =>
      by_cases hlen : bs.length < 1
      · exact ⟨0, ⟨bs.length, p, [], 0⟩, by simp only [readBy, hlen, if_true]⟩
      · have hne : bs ≠ [] := by
          rintro rfl
          exact hlen (by decide)
        have happ : (p.appendDecodeData got bs).1 = false := by
          cases h : (p.appendDecodeData got bs).1
          · rfl
          · exact absurd ⟨bs, rfl, hne, h⟩ hrun
        exact ⟨0, ⟨0, (p.appendDecodeData got bs).2, [], 0⟩,
          by simp only [readBy, hlen, if_false, happ, if_true]⟩

/-- A head that announces no byte at all and a key of length -12. -/
def noByteHead : Bytes := le32 0 ++ le32 0 ++ le32 (-12)

/-- Twelve bytes from a peer keep the receive loop turning for ever, in its block. -/
theorem twelve_bytes_hold_the_receive_loop_for_ever :
    ¬ ReadsToEnd none (.ok noByteHead) fresh := by
  have hfront : (fresh.appendDecodeData none noByteHead).2.head = some ⟨0, 0, -12⟩ := by decide
  have hst : Stalled (fresh.appendDecodeData none noByteHead).2 :=
    ⟨⟨0, 0, -12⟩, ⟨by decide, hfront, by decide, by decide, by decide⟩, rfl⟩
  have hin : ¬ Strays (fresh.appendDecodeData none noByteHead).2 := by
    rintro ⟨am, ham, _, i, hi, hout⟩
    have hsame := accepts_head ham hfront
    subst hsame
    have hwithin := (within_iff ⟨0, 0, -12⟩ 10240).mp (by decide) i hi
    have hsize : (fresh.appendDecodeData none noByteHead).2.decode_amc.cache_size = 10240 := by
      decide
    rw [hsize] at hout
    omega
  rw [readsToEnd_loop (by decide) (by decide)]
  rintro ⟨fuel, w, ms, hl, _⟩
  rw [loop_of_trap (fun t ht => stall_lasts ht) fuel _ ⟨hst, hin⟩] at hl
  cases hl

end util.sock_channel
