-- The reads of `CUpdateModuleMgr::OnRecvUmi`: every byte of the memory from the message on that the
-- function looks at, in its order. The law says that they all lie in the message, and so do the six
-- strings that go to a download thread, whatever lies behind.
import Aods.Traced
import Aods.UpdateOrders

open machine std_map traced
open aods.update_module_mgr

namespace aods.order_reads

/-! ## The model -/

/-- One byte. Past all memory there is nothing to read. -/
def readByte (mem : Bytes) (i : Nat) : Traced Nat Fault UInt8 := do
  emit i
  match mem[i]? with
  | none => attempt (.error .overrun)
  | some b => pure b

/-- `strlen`, over the memory from a place on. -/
def strlenFrom : Bytes → Nat → Traced Nat Fault Nat
  | [], i => do
    emit i
    attempt (.error .overrun)
  | b :: bs, i => do
    emit i
    if b = 0 then pure 0
    else do
      let n ← strlenFrom bs (i + 1)
      pure (n + 1)

def strlen (mem : Bytes) (i : Nat) : Traced Nat Fault Nat := strlenFrom (mem.drop i) i

/-- The `std::string` of a pointer, which a lookup makes. -/
def strAt (mem : Bytes) (i : Nat) : Traced Nat Fault Bytes := do
  let n ← strlen mem i
  pure ((mem.drop i).take n)

/-- The offset behind the string at an offset. -/
def past (mem : Bytes) (un_offset : Nat) : Traced Nat Fault Nat := do
  let n ← strlen mem un_offset
  pure (u32 (un_offset + (u32 n + 1)))

/-- The offset behind a string, and the guard that follows: `none` is a return. -/
def pastGuarded (mem : Bytes) (un_msg_len un_offset : Nat) : Traced Nat Fault (Option Nat) := do
  let un_offset ← past mem un_offset
  pure (if u32 (un_offset + 1) ≥ un_msg_len then none else some un_offset)

/-- A part behind one that may return. -/
def andThen {α β : Type} (x : Traced Nat Fault (Option α)) (f : α → Traced Nat Fault (Option β)) :
    Traced Nat Fault (Option β) := do
  match ← x with
  | none => pure none
  | some a => f a

/-- The strings of an order by their offsets, and the last byte. -/
structure Pointers where
  psz_prj_name : Nat
  psz_module_name : Nat
  psz_file_version : Nat
  psz_file_hash : Nat
  psz_download_url : Nat
  psz_password : Nat
  c_force_update : UInt8

/-- The six strings. -/
def Pointers.strings (p : Pointers) : List Nat :=
  [p.psz_prj_name, p.psz_module_name, p.psz_file_version, p.psz_file_hash, p.psz_download_url,
    p.psz_password]

/-- From the module on: `mm` are the modules of the project. -/
def onModule (mem : Bytes) (un_msg_len : Nat) (mm : StdMap ModuleInfo) (psz_module_name : Nat) :
    Traced Nat Fault (Option Pointers) := do
  let module_name ← strAt mem psz_module_name
  match mm.lookup module_name with
  | none => pure none
  | some _ =>
    andThen (pastGuarded mem un_msg_len psz_module_name) fun psz_file_version =>
    andThen (pastGuarded mem un_msg_len psz_file_version) fun psz_file_hash =>
    andThen (pastGuarded mem un_msg_len psz_file_hash) fun psz_download_url =>
    andThen (pastGuarded mem un_msg_len psz_download_url) fun psz_password => do
      let un_offset ← past mem psz_password
      if u32 (un_offset + 1) > un_msg_len then pure none
      else do
        let c_force_update ← readByte mem un_offset
        pure (some ⟨0, psz_module_name, psz_file_version, psz_file_hash,
          psz_download_url, psz_password,
          c_force_update⟩)

/-- `OnRecvUmi`, over a message and what lies behind it in memory. -/
def onRecvUmi (s : State) (sz_msg behind : Bytes) : Traced Nat Fault (Option Pointers) :=
  let mem := sz_msg ++ behind
  let un_msg_len := sz_msg.length
  if un_msg_len < 2 then pure none
  else do
    let last ← readByte mem (un_msg_len - 2)
    if last ≠ 0 then pure none
    else do
      let prj_name ← strAt mem 0
      match s.map_pm.lookup prj_name with
      | none => pure none
      | some mm => andThen (pastGuarded mem un_msg_len 0) (onModule mem un_msg_len mm)

/-! ## Reads below a bound -/

/-- All reads lie below the bound, and the value is `a`. -/
structure Reads {α : Type} (bound : Nat) (x : Traced Nat Fault α) (a : α) : Prop where
  below : Leaves (· < bound) x
  result : x.result = .ok a

theorem Reads.pure {α : Type} (bound : Nat) (a : α) :
    Reads bound (Pure.pure a : Traced Nat Fault α) a :=
  ⟨.pure a, rfl⟩

theorem Reads.bind {α β : Type} {bound : Nat} {x : Traced Nat Fault α} {f : α → Traced Nat Fault β}
    {a : α} {b : β} (hx : Reads bound x a) (hf : Reads bound (f a) b) :
    Reads bound (x >>= f) b := by
  refine ⟨hx.below.bind (fun a' ha' => ?_), ?_⟩
  · rw [hx.result] at ha'
    cases ha'
    exact hf.below
  · rw [(bind_result_ok hx.result).2]
    exact hf.result

theorem Reads.andThen_none {α β : Type} {bound : Nat} {x : Traced Nat Fault (Option α)}
    (f : α → Traced Nat Fault (Option β)) (hx : Reads bound x none) :
    Reads bound (andThen x f) none :=
  hx.bind (.pure bound none)

theorem Reads.andThen_some {α β : Type} {bound : Nat} {x : Traced Nat Fault (Option α)}
    {f : α → Traced Nat Fault (Option β)} {a : α} {b : Option β} (hx : Reads bound x (some a))
    (hf : Reads bound (f a) b) : Reads bound (andThen x f) b :=
  hx.bind hf

theorem reads_byte {mem : Bytes} {i bound : Nat} {b : UInt8} (hi : i < bound)
    (hb : mem[i]? = some b) :
    Reads bound (readByte mem i) b := by
  refine Reads.bind ⟨.emit hi, rfl⟩ ?_
  rw [hb]
  exact .pure bound b

theorem reads_strlenFrom {bs : Bytes} {i k bound : Nat} (hk : bs[k]? = some 0)
    (hbound : i + k < bound) :
    Reads bound (strlenFrom bs i) (cstr bs).length ∧ (cstr bs).length ≤ k := by
  induction bs generalizing i k with
  | nil => cases hk
  | cons b bs ih =>
    have hemit : Reads bound (emit i : Traced Nat Fault Unit) () := ⟨.emit (by omega), rfl⟩
    by_cases hb : b = 0
    · subst hb
      refine ⟨?_, Nat.zero_le k⟩
      exact hemit.bind (.pure bound 0)
    · obtain ⟨k, rfl⟩ : ∃ k', k = k' + 1 := by
        cases k with
        | zero => exact absurd (Option.some.inj hk) hb
        | succ k => exact ⟨k, rfl⟩
      obtain ⟨hreads, hle⟩ := ih (i := i + 1) (k := k) hk (by omega)
      have hcstr : cstr (b :: bs) = b :: cstr bs := by simp [cstr, hb]
      rw [hcstr, List.length_cons]
      refine ⟨hemit.bind ?_, by omega⟩
      rw [if_neg hb]
      exact hreads.bind (.pure bound _)

/-! ## Strings of a message -/

theorem cstr_append_of_mem {a : Bytes} (h : 0 ∈ a) (b : Bytes) : cstr (a ++ b) = cstr a := by
  have hsplit := cstr_pastCstr h
  calc cstr (a ++ b) = cstr (cstr a ++ 0 :: (pastCstr a ++ b)) := by
        rw [← List.cons_append, ← List.append_assoc, ← hsplit]
    _ = cstr a := cstr_append (zero_notMem_cstr a) _

theorem take_cstr (bs : Bytes) : bs.take (cstr bs).length = cstr bs :=
  (List.prefix_iff_eq_take.mp (List.takeWhile_prefix _)).symm

theorem getElem?_cstr {bs : Bytes} (h : 0 ∈ bs) : bs[(cstr bs).length]? = some 0 := by
  have hsplit := cstr_pastCstr h
  calc bs[(cstr bs).length]? = (cstr bs ++ 0 :: pastCstr bs)[(cstr bs).length]? := by rw [← hsplit]
    _ = some 0 := by rw [List.getElem?_append_right (Nat.le_refl _), Nat.sub_self]; rfl

section Message

variable {sz_msg : Bytes}

/-- A message whose second last byte is NUL. -/
structure Ended (sz_msg : Bytes) : Prop where
  two_le : 2 ≤ sz_msg.length
  length_lt : sz_msg.length < 4294967296
  nul : sz_msg[sz_msg.length - 2]? = some 0

theorem nul_of_drop (h : Ended sz_msg) {o : Nat} (ho : o + 1 < sz_msg.length) :
    (sz_msg.drop o)[sz_msg.length - 2 - o]? = some 0 := by
  rw [List.getElem?_drop, show o + (sz_msg.length - 2 - o) = sz_msg.length - 2 by omega]
  exact h.nul

theorem zero_mem_drop (h : Ended sz_msg) {o : Nat} (ho : o + 1 < sz_msg.length) :
    0 ∈ sz_msg.drop o :=
  List.mem_of_getElem? (nul_of_drop h ho)

/-- The string at an offset before the end has its NUL in the message. -/
theorem reads_strlen (behind : Bytes) (h : Ended sz_msg) {o : Nat} (ho : o + 1 < sz_msg.length) :
    Reads sz_msg.length (strlen (sz_msg ++ behind) o) (cstr (sz_msg.drop o)).length ∧
      o + (cstr (sz_msg.drop o)).length + 2 ≤ sz_msg.length := by
  have hdrop : (sz_msg ++ behind).drop o = sz_msg.drop o ++ behind :=
    List.drop_append_of_le_length (by omega)
  have hk : (sz_msg.drop o ++ behind)[sz_msg.length - 2 - o]? = some 0 := by
    rw [List.getElem?_append_left (by rw [List.length_drop]; omega)]
    exact nul_of_drop h ho
  have hbound : o + (sz_msg.length - 2 - o) < sz_msg.length := by omega
  obtain ⟨hreads, hle⟩ := reads_strlenFrom hk hbound
  rw [cstr_append_of_mem (zero_mem_drop h ho)] at hreads hle
  unfold strlen
  rw [hdrop]
  exact ⟨hreads, by omega⟩

/-- And the NUL is that of a string that ends in the message. -/
theorem nul_of_string (h : Ended sz_msg) {o : Nat} (ho : o + 1 < sz_msg.length) :
    sz_msg[o + (cstr (sz_msg.drop o)).length]? = some 0 := by
  rw [← List.getElem?_drop]
  exact getElem?_cstr (zero_mem_drop h ho)

theorem field_le (h : Ended sz_msg) {o : Nat} (ho : o + 1 < sz_msg.length) :
    (field sz_msg o).2 + 1 ≤ sz_msg.length := by
  have hle := (reads_strlen [] h ho).2
  unfold field
  dsimp only
  omega

theorem reads_strAt (behind : Bytes) (h : Ended sz_msg) {o : Nat} (ho : o + 1 < sz_msg.length) :
    Reads sz_msg.length (strAt (sz_msg ++ behind) o) (field sz_msg o).1 := by
  obtain ⟨hreads, hle⟩ := reads_strlen behind h ho
  have htake : ((sz_msg ++ behind).drop o).take (cstr (sz_msg.drop o)).length =
      cstr (sz_msg.drop o) := by
    rw [List.drop_append_of_le_length (by omega),
      List.take_append_of_le_length (by rw [List.length_drop]; omega), take_cstr]
  refine hreads.bind ?_
  rw [htake]
  exact .pure _ _

theorem reads_past (behind : Bytes) (h : Ended sz_msg) {o : Nat} (ho : o + 1 < sz_msg.length) :
    Reads sz_msg.length (past (sz_msg ++ behind) o) (field sz_msg o).2 := by
  obtain ⟨hreads, hle⟩ := reads_strlen behind h ho
  have hlt := h.length_lt
  have hsum : u32 (o + (u32 (cstr (sz_msg.drop o)).length + 1)) = (field sz_msg o).2 := by
    unfold field u32
    dsimp only
    omega
  refine hreads.bind ?_
  rw [hsum]
  exact .pure _ _

/-- A part behind a string and its guard. -/
theorem reads_next {β : Type} (behind : Bytes) (h : Ended sz_msg) {o : Nat}
    (ho : o + 1 < sz_msg.length) {f : Nat → Traced Nat Fault (Option β)} {r : Option β}
    (hf : (field sz_msg o).2 + 1 < sz_msg.length → Reads sz_msg.length (f (field sz_msg o).2) r) :
    Reads sz_msg.length (andThen (pastGuarded (sz_msg ++ behind) sz_msg.length o) f)
      ((guard (¬ (field sz_msg o).2 + 1 ≥ sz_msg.length) : Option Unit).bind fun _ => r) := by
  have hle := field_le h ho
  have hlt := h.length_lt
  have hsum : u32 ((field sz_msg o).2 + 1) = (field sz_msg o).2 + 1 := by
    unfold u32
    omega
  have hguard : Reads sz_msg.length (pastGuarded (sz_msg ++ behind) sz_msg.length o)
      (if (field sz_msg o).2 + 1 ≥ sz_msg.length then none else some (field sz_msg o).2) := by
    refine (reads_past behind h ho).bind ?_
    rw [hsum]
    exact .pure _ _
  by_cases hend : (field sz_msg o).2 + 1 ≥ sz_msg.length
  · rw [if_pos hend] at hguard
    rw [guard, if_neg (not_not.mpr hend)]
    exact hguard.andThen_none f
  · rw [if_neg hend] at hguard
    rw [guard, if_pos hend]
    exact hguard.andThen_some (hf (by omega))

end Message

/-! ## The pointers of an order -/

/-- What the reads from the module on come to. -/
def modulePointers (sz_msg : Bytes) (mm : StdMap ModuleInfo) (o1 : Nat) : Option Pointers := do
  let _ ← mm.lookup (field sz_msg o1).1
  let o2 := (field sz_msg o1).2
  guard (¬ o2 + 1 ≥ sz_msg.length)
  let o3 := (field sz_msg o2).2
  guard (¬ o3 + 1 ≥ sz_msg.length)
  let o4 := (field sz_msg o3).2
  guard (¬ o4 + 1 ≥ sz_msg.length)
  let o5 := (field sz_msg o4).2
  guard (¬ o5 + 1 ≥ sz_msg.length)
  let o6 := (field sz_msg o5).2
  guard (¬ o6 + 1 > sz_msg.length)
  some ⟨0, o1, o2, o3, o4, o5, sz_msg.getD o6 0⟩

/-- What all the reads come to. -/
def pointers (s : State) (sz_msg : Bytes) : Option Pointers := do
  guard (¬ (sz_msg.length < 2 ∨ sz_msg.getD (sz_msg.length - 2) 0 ≠ 0))
  let mm ← s.map_pm.lookup (field sz_msg 0).1
  guard (¬ (field sz_msg 0).2 + 1 ≥ sz_msg.length)
  modulePointers sz_msg mm (field sz_msg 0).2

/-- The order of six strings. -/
def umiOf (sz_msg : Bytes) (p : Pointers) : Umi where
  prj_name := (field sz_msg p.psz_prj_name).1
  module_name := (field sz_msg p.psz_module_name).1
  file_version := (field sz_msg p.psz_file_version).1
  file_hash := (field sz_msg p.psz_file_hash).1
  download_url := (field sz_msg p.psz_download_url).1
  password := (field sz_msg p.psz_password).1
  c_force_update := p.c_force_update

theorem readUmi_eq (s : State) (sz_msg : Bytes) :
    readUmi s sz_msg = (pointers s sz_msg).map (umiOf sz_msg) := by
  unfold readUmi pointers modulePointers
  simp only [Option.bind_eq_bind, Option.map_bind, Function.comp_def]
  rfl

/-- The last guard lets every message through, and the last byte is read. -/
theorem reads_last {sz_msg : Bytes} (behind : Bytes) (h : Ended sz_msg) {o : Nat}
    (ho : o + 1 < sz_msg.length) (f : UInt8 → Pointers) :
    Reads sz_msg.length
      (do
        let un_offset ← past (sz_msg ++ behind) o
        if u32 (un_offset + 1) > sz_msg.length then pure none
        else do
          let c_force_update ← readByte (sz_msg ++ behind) un_offset
          pure (some (f c_force_update)))
      ((guard (¬ (field sz_msg o).2 + 1 > sz_msg.length) : Option Unit).bind fun _ =>
        some (f (sz_msg.getD (field sz_msg o).2 0))) := by
  have hle := field_le h ho
  have hlt := h.length_lt
  have hsum : u32 ((field sz_msg o).2 + 1) = (field sz_msg o).2 + 1 := by
    unfold u32
    omega
  have hbyte : (sz_msg ++ behind)[(field sz_msg o).2]? =
      some (sz_msg.getD (field sz_msg o).2 0) := by
    rw [List.getElem?_append_left (by omega), List.getD_eq_getElem?_getD,
      List.getElem?_eq_getElem (by omega)]
    rfl
  refine (reads_past behind h ho).bind ?_
  rw [hsum, if_neg (by omega), guard, if_pos (by omega)]
  exact (reads_byte (by omega) hbyte).bind (.pure _ _)

theorem reads_onModule {sz_msg : Bytes} (behind : Bytes) (h : Ended sz_msg) (mm : StdMap ModuleInfo)
    {o1 : Nat} (ho : o1 + 1 < sz_msg.length) :
    Reads sz_msg.length (onModule (sz_msg ++ behind) sz_msg.length mm o1)
      (modulePointers sz_msg mm o1) := by
  refine (reads_strAt behind h ho).bind ?_
  unfold modulePointers
  simp only [Option.bind_eq_bind]
  cases mm.lookup (field sz_msg o1).1 with
  | none => exact .pure _ _
  | some mi =>
    rw [Option.bind_some]
    refine reads_next behind h ho (fun ho2 => ?_)
    refine reads_next behind h ho2 (fun ho3 => ?_)
    refine reads_next behind h ho3 (fun ho4 => ?_)
    refine reads_next behind h ho4 (fun ho5 => ?_)
    exact reads_last behind h ho5 _

theorem reads_onRecvUmi (s : State) {sz_msg : Bytes} (hlt : sz_msg.length < 4294967296)
    (behind : Bytes) :
    Reads sz_msg.length (onRecvUmi s sz_msg behind) (pointers s sz_msg) := by
  unfold onRecvUmi pointers
  dsimp only
  by_cases htwo : sz_msg.length < 2
  · rw [if_pos htwo, guard, if_neg (not_not.mpr (Or.inl htwo))]
    exact .pure _ _
  · have hget : sz_msg[sz_msg.length - 2]? = some (sz_msg.getD (sz_msg.length - 2) 0) := by
      rw [List.getD_eq_getElem?_getD, List.getElem?_eq_getElem (by omega)]
      rfl
    have hbyte : (sz_msg ++ behind)[sz_msg.length - 2]? =
        some (sz_msg.getD (sz_msg.length - 2) 0) := by
      rw [List.getElem?_append_left (by omega), hget]
    rw [if_neg htwo]
    refine (reads_byte (by omega) hbyte).bind ?_
    by_cases hlast : sz_msg.getD (sz_msg.length - 2) 0 ≠ 0
    · rw [if_pos hlast, guard, if_neg (not_not.mpr (Or.inr hlast))]
      exact .pure _ _
    · have hended : Ended sz_msg := ⟨by omega, hlt, by rw [hget, not_not.mp hlast]⟩
      have hzero : 0 + 1 < sz_msg.length := by omega
      rw [if_neg hlast, guard, if_pos (by rw [not_or]; exact ⟨htwo, hlast⟩)]
      refine (reads_strAt behind hended hzero).bind ?_
      cases s.map_pm.lookup (field sz_msg 0).1 with
      | none => exact .pure _ _
      | some mm =>
        exact reads_next behind hended hzero (fun ho1 => reads_onModule behind hended mm ho1)

/-- Each string begins before the last byte but one. -/
theorem strings_of_pointers {s : State} {sz_msg : Bytes} {p : Pointers}
    (hlt : sz_msg.length < 4294967296) (h : pointers s sz_msg = some p) :
    Ended sz_msg ∧ ∀ o ∈ p.strings, o + 1 < sz_msg.length := by
  unfold pointers modulePointers at h
  obtain ⟨hend, h⟩ := of_guard h
  obtain ⟨mm, _, h⟩ := Option.bind_eq_some_iff.mp h
  obtain ⟨h1, h⟩ := of_guard h
  obtain ⟨mi, _, h⟩ := Option.bind_eq_some_iff.mp h
  obtain ⟨h2, h⟩ := of_guard h
  obtain ⟨h3, h⟩ := of_guard h
  obtain ⟨h4, h⟩ := of_guard h
  obtain ⟨h5, h⟩ := of_guard h
  obtain ⟨_, h⟩ := of_guard h
  cases h
  rw [not_or, not_not] at hend
  refine ⟨⟨by omega, hlt, ?_⟩, ?_⟩
  · rw [List.getElem?_eq_getElem (by omega), ← hend.2, List.getD_eq_getElem?_getD,
      List.getElem?_eq_getElem (by omega)]
    rfl
  · unfold Pointers.strings
    simp only [List.forall_mem_cons]
    exact ⟨by omega, by omega, by omega, by omega, by omega, by omega, by simp⟩

/-- `OnRecvUmi` reads no byte behind its message, and the strings that it takes from it end within
it, whatever the message holds, whatever lies behind and whatever modules are managed. -/
theorem an_order_is_read_within_its_message (s : State) {sz_msg : Bytes}
    (hlt : sz_msg.length < 4294967296) (behind : Bytes) :
    (∀ i ∈ (onRecvUmi s sz_msg behind).trace, i < sz_msg.length) ∧
      ∃ r, (onRecvUmi s sz_msg behind).result = .ok r ∧ readUmi s sz_msg = r.map (umiOf sz_msg) ∧
        ∀ p, r = some p → ∀ o ∈ p.strings,
          o + (cstr (sz_msg.drop o)).length < sz_msg.length ∧
            sz_msg[o + (cstr (sz_msg.drop o)).length]? = some 0 := by
  have hreads := reads_onRecvUmi s hlt behind
  refine ⟨hreads.below, pointers s sz_msg, hreads.result, readUmi_eq s sz_msg, fun p hp o ho => ?_⟩
  obtain ⟨hended, hstrings⟩ := strings_of_pointers hlt hp
  have hle := (reads_strlen [] hended (hstrings o ho)).2
  exact ⟨by omega, nul_of_string hended (hstrings o ho)⟩

/-- The shortest order of a managed module is read within its nine bytes. -/
theorem the_shortest_order_is_read :
    (∀ i ∈ (onRecvUmi update_orders.managing (update_orders.payload update_orders.shortest 1)
      [7]).trace, i < 9) ∧
      ∃ p,
        (onRecvUmi update_orders.managing (update_orders.payload update_orders.shortest 1)
          [7]).result =
        .ok (some p) := by
  have hlen : (update_orders.payload update_orders.shortest 1).length = 9 := by decide
  have hlt : (update_orders.payload update_orders.shortest 1).length < 4294967296 := by
    rw [hlen]
    omega
  have hzero : ∀ t ∈ update_orders.shortest.texts, 0 ∉ t := by decide
  obtain ⟨hbelow, r, hresult, hread, _⟩ :=
    an_order_is_read_within_its_message update_orders.managing hlt [7]
  rw [update_orders.readUmi_payload hzero update_orders.find_managing] at hread
  rw [hlen] at hbelow
  cases r with
  | none => cases hread
  | some p => exact ⟨hbelow, p, hresult⟩

end aods.order_reads
