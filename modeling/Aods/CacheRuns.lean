-- Runs of `CAoMemCache`: its operations one after another, with any answer of the allocator. The
-- laws say under which steps the buffer holds the bytes of a reference sequence and when an append
-- that fails leaves it as it was.
import Aods.MemCache
import Aods.Runs

open flat_memory machine runs
open util.mem_cache

namespace util.cache_runs

/-! ## The model -/

inductive Op where
  | append (data : Bytes)
  /-- `AppendBuf(NULL, n)` -/
  | room (n : Nat)
  | remove (un_from un_to : Nat)
  | reset

/-- A call, with what the allocator would answer. -/
structure Call where
  got : Option (Mem UInt8)
  op : Op

/-- The buffer behind a call, and what `AppendBuf` returned. -/
def handle : Handler CAoMemCache Call Bool Fault
  | c, ⟨got, .append data⟩ =>
    let r := c.appendBuf got (some data) data.length
    .ok (r.2, [r.1])
  | c, ⟨got, .room n⟩ =>
    let r := c.appendBuf got none n
    .ok (r.2, [r.1])
  | c, ⟨_, .remove un_from un_to⟩ => .ok (c.remove un_from un_to, [])
  | c, ⟨_, .reset⟩ => .ok (c.reset, [])

/-- `Remove` with the `memcpy` that C has. It is undefined when it writes what it reads. -/
def removeApart (c : CAoMemCache) (un_from un_to : Nat) : Except Fault CAoMemCache :=
  match copyOf c un_from un_to with
  | none => .ok { c with cache_off := 0 }
  | some k =>
    if k.Apart then
      .ok { c with
        cache_off := k.n, cache := c.cache.map (fun m => write m k.dst (read m k.src k.n)) }
    else .error .overlap

/-- A call with this `Remove`. -/
def perform : Handler CAoMemCache Call Bool Fault
  | c, ⟨_, .remove un_from un_to⟩ => (removeApart c un_from un_to).map (fun c' => (c', []))
  | c, e => handle c e

/-! ## The reference sequence -/

/-- What an operation does to a sequence of bytes. -/
def RefStep (r : Bytes) : Op → Bytes → Prop
  | .append data, r' => r' = r ++ data
  | .room n, r' => ∃ u : Bytes, u.length = n ∧ r' = r ++ u
  | .remove un_from un_to, r' => r' = r.take un_from ++ r.drop un_to
  | .reset, r' => r' = []

/-- The sequences that a history may lead to. A call that returned false leaves the sequence. -/
inductive Refers (r : Bytes) : List (Call × List Bool) → Bytes → Prop
  | start : Refers r [] r
  | failed {es : List (Call × List Bool)} {r' : Bytes} {e : Call} (h : Refers r es r') :
      Refers r ((e, [false]) :: es) r'
  | next {es : List (Call × List Bool)} {r' r'' : Bytes} {e : Call} {os : List Bool}
      (h : Refers r es r')
      (hok : false ∉ os) (hstep : RefStep r' e.op r'') : Refers r ((e, os) :: es) r''

/-- The arguments are `unsigned int`s, and a removal names bytes of the buffer. -/
def InRange (c : CAoMemCache) : Op → Prop
  | .append data => data.length < 4294967296
  | .room n => n < 4294967296
  | .remove un_from un_to => un_from ≤ un_to ∧ un_to ≤ c.cache_off
  | .reset => True

/-- The sums that an append of `n` bytes needs do not wrap. -/
def Fits (c : CAoMemCache) (n : Nat) : Prop :=
  n + c.cache_off < 4294967296 ∧
    (c.mustGrow n = true → n + c.cache_off + c.apped_step_size < 4294967296)

/-- What an operation needs, with an allocator that serves it: sums that do not wrap, no byte yet
when room without data makes the buffer grow, and a removal from the front. -/
def Served (c : CAoMemCache) : Op → Prop
  | .append data => data = [] ∨ Fits c data.length
  | .room n => n = 0 ∨ Fits c n ∧ (c.mustGrow n = true → c.cache_off = 0)
  | .remove un_from _ => un_from = 0
  | .reset => True

/-- A removal leaves no more bytes behind than it makes room for. -/
def Clear (c : CAoMemCache) : Op → Prop
  | .remove un_from un_to => c.cache_off - un_to ≤ un_to - un_from
  | _ => True

/-- An append that fails meets an empty buffer, and asks for the size that is noted already. -/
def Refused (c : CAoMemCache) (n : Nat) : Prop :=
  c.cache_off = 0 ∧ u32 (n + c.apped_step_size) = c.cache_size

/-- Null only while it is empty, with the bytes in the noted size. -/
structure Good (c : CAoMemCache) : Prop where
  empty : c.cache = none → c.cache_off = 0
  fits : c.cache_off ≤ c.cache_size
  size_lt : c.cache_size < 4294967296
  step_lt : c.apped_step_size < 4294967296

theorem good_new (got : Option (Mem UInt8)) {init_size append_step_size : Nat}
    (h : init_size < 4294967296) (hs : append_step_size < 4294967296) :
    Good (.new got init_size append_step_size) :=
  ⟨fun _ => rfl, Nat.zero_le _, h, hs⟩

theorem length_content_of_some {c : CAoMemCache} {m : Mem UInt8} (h : c.cache = some m) :
    c.content.length = c.cache_off := by
  rw [CAoMemCache.content_some h, length_read]

theorem Good.length_content {c : CAoMemCache} (h : Good c) : c.content.length = c.cache_off := by
  cases hc : c.cache with
  | none =>
    rw [h.empty hc]
    simp [CAoMemCache.content, hc]
  | some m => exact length_content_of_some hc

/-! ## An append that the allocator serves -/

/-- The buffer after the growth, if there was one. -/
def grown (got : Option (Mem UInt8)) (data : Option Bytes) (n : Nat) (c : CAoMemCache) :
    CAoMemCache :=
  if c.mustGrow n then c.grow got data n else c

theorem off_grown (got : Option (Mem UInt8)) (data : Option Bytes) (n : Nat) (c : CAoMemCache) :
    (grown got data n c).cache_off = c.cache_off := by
  unfold grown
  split
  · rfl
  · rfl

theorem step_grown (got : Option (Mem UInt8)) (data : Option Bytes) (n : Nat) (c : CAoMemCache) :
    (grown got data n c).apped_step_size = c.apped_step_size := by
  unfold grown
  split
  · rfl
  · rfl

theorem size_grown (got : Option (Mem UInt8)) (data : Option Bytes) (n : Nat) (c : CAoMemCache) :
    (grown got data n c).cache_size =
      if c.mustGrow n then u32 (n + c.cache_off + c.apped_step_size) else c.cache_size := by
  unfold grown
  split
  · rfl
  · rfl

/-- The bytes behind those of a block, if there is a block. -/
def laid (data : Option Bytes) (n : Nat) (c : CAoMemCache) : Bool × CAoMemCache :=
  match c.cache with
  | none => (false, c)
  | some m =>
    let m := match data with
      | some bs => write m c.cache_off (bs.take n)
      | none => m
    (true, { c with cache := some m, cache_off := u32 (c.cache_off + n) })

theorem appendBuf_eq (got : Option (Mem UInt8)) (data : Option Bytes) {n : Nat} (h : 1 ≤ n)
    (c : CAoMemCache) :
    c.appendBuf got data n = laid data n (grown got data n c) := by
  have hlt : ¬ n < 1 := by omega
  unfold CAoMemCache.appendBuf
  rw [if_neg hlt]
  rfl

theorem appendBuf_zero (got : Option (Mem UInt8)) (data : Option Bytes) (c : CAoMemCache) :
    c.appendBuf got data 0 = (true, c) := rfl

/-- With a block, the bytes are laid and the end moves. -/
theorem laid_of_some {data : Option Bytes} {n : Nat} {c : CAoMemCache} {m : Mem UInt8}
    (h : c.cache = some m) :
    laid data n c = (true, { c with
      cache := some (match data with
        | some bs => write m c.cache_off (bs.take n)
        | none => m)
      cache_off := u32 (c.cache_off + n) }) := by
  unfold laid
  rw [h]

/-- An append that the allocator would serve finds a block. -/
theorem grown_some (g : Mem UInt8) (data : Option Bytes) (n : Nat) (c : CAoMemCache) :
    ∃ m, (grown (some g) data n c).cache = some m := by
  unfold grown
  split
  · unfold CAoMemCache.grow
    dsimp only
    split
    · exact ⟨g, rfl⟩
    · cases c.cache with
      | none => exact ⟨g, rfl⟩
      | some m => exact ⟨_, rfl⟩
  · rename_i hfit
    simp only [CAoMemCache.mustGrow, Bool.or_eq_true, not_or, Option.isNone_iff_eq_none] at hfit
    exact Option.ne_none_iff_exists'.mp hfit.1

/-- What an append that the allocator serves leaves of the numbers. -/
theorem append_numbers (g : Mem UInt8) (data : Option Bytes) {n : Nat} (h : 1 ≤ n)
    (c : CAoMemCache) :
    ∃ m c', c.appendBuf (some g) data n = (true, c') ∧ c'.cache = some m ∧
      c'.cache_off = u32 (c.cache_off + n) ∧ c'.apped_step_size = c.apped_step_size ∧
      c'.cache_size = if c.mustGrow n then u32 (n + c.cache_off + c.apped_step_size) else
        c.cache_size := by
  obtain ⟨m, hm⟩ := grown_some g data n c
  rw [appendBuf_eq (some g) data h, laid_of_some hm]
  refine ⟨_, _, rfl, rfl, ?_, step_grown (some g) data n c, size_grown (some g) data n c⟩
  rw [← off_grown (some g) data n c]

/-- The bytes held are kept, unless room without data makes a buffer that holds some grow. -/
theorem content_grown {c : CAoMemCache} (hgood : Good c) (g : Mem UInt8) (data : Option Bytes)
    {n : Nat} (hfits : Fits c n) (hroom : data = none → c.mustGrow n = true → c.cache_off = 0) :
    (grown (some g) data n c).content = c.content := by
  by_cases hgrow : c.mustGrow n = true
  · have hempty : c.cache_off = 0 → (grown (some g) data n c).content = c.content := by
      intro hoff
      obtain ⟨m, hm⟩ := grown_some g data n c
      have hnil : c.content = [] :=
        List.eq_nil_of_length_eq_zero (by rw [hgood.length_content, hoff])
      rw [CAoMemCache.content_some hm, off_grown, hoff, hnil]
      rfl
    cases data with
    | none => exact hempty (hroom rfl hgrow)
    | some bs =>
      cases hc : c.cache with
      | none => exact hempty (hgood.empty hc)
      | some m =>
        have hsound : c.Sound := ⟨by rw [hc]; rfl, hgood.fits⟩
        have hkeep := (CAoMemCache.grow_keeps hsound g bs (hfits.2 hgrow)).1
        unfold grown
        rw [if_pos hgrow, hkeep]
  · unfold grown
    rw [if_neg hgrow]

theorem good_append {c : CAoMemCache} (hgood : Good c) (g : Mem UInt8) (data : Option Bytes)
    {n : Nat} (h : 1 ≤ n) (hfits : Fits c n) :
    ∃ c', c.appendBuf (some g) data n = (true, c') ∧ Good c' ∧ c'.cache_off = c.cache_off + n := by
  obtain ⟨m, c', happ, hm, hoff, hstep, hsize⟩ := append_numbers g data h c
  have hsum : u32 (c.cache_off + n) = c.cache_off + n := by
    have := hfits.1
    unfold u32
    omega
  refine ⟨c', happ, ⟨fun hnone => ?_, ?_, ?_, hstep ▸ hgood.step_lt⟩, by rw [hoff, hsum]⟩
  · rw [hm] at hnone
    cases hnone
  · rw [hoff, hsum, hsize]
    split
    · rename_i hgrow
      have := hfits.2 hgrow
      unfold u32
      omega
    · rename_i hfit
      simp only [CAoMemCache.mustGrow, Bool.or_eq_true, decide_eq_true_eq, not_or, not_lt] at hfit
      have hle := hfit.2
      have := hfits.1
      unfold u32 at hle
      omega
  · rw [hsize]
    split
    · unfold u32
      omega
    · exact hgood.size_lt

theorem append_served {c : CAoMemCache} (hgood : Good c) (g : Mem UInt8) {bs : Bytes}
    (hserved : Served c (.append bs)) :
    ∃ c', c.appendBuf (some g) (some bs) bs.length = (true, c') ∧ Good c' ∧
      c'.content = c.content ++ bs := by
  by_cases hnil : bs = []
  · subst hnil
    exact ⟨c, rfl, hgood, (List.append_nil _).symm⟩
  · have hfits := hserved.resolve_left hnil
    have hpos : 1 ≤ bs.length := List.length_pos_of_ne_nil hnil
    obtain ⟨c', happ, hgood', hoff⟩ := good_append hgood g (some bs) hpos hfits
    refine ⟨c', happ, hgood', ?_⟩
    have hkeep := content_grown hgood g (some bs) hfits (fun hnone => by cases hnone)
    obtain ⟨m, hm⟩ := grown_some g (some bs) bs.length c
    rw [CAoMemCache.content_some hm, off_grown] at hkeep
    rw [appendBuf_eq _ _ hpos, laid_of_some hm] at happ
    cases happ
    have hread := read_write_append m 0 c.cache_off bs
    rw [hkeep, Int.zero_add] at hread
    unfold CAoMemCache.content
    dsimp only at hoff ⊢
    rw [hoff, List.take_length, off_grown]
    exact hread

theorem room_served {c : CAoMemCache} (hgood : Good c) (g : Mem UInt8) {n : Nat}
    (hserved : Served c (.room n)) :
    ∃ c', c.appendBuf (some g) none n = (true, c') ∧ Good c' ∧ ∃ u : Bytes, u.length = n ∧
      c'.content = c.content ++ u := by
  by_cases hzero : n = 0
  · subst hzero
    exact ⟨c, rfl, hgood, [], rfl, (List.append_nil _).symm⟩
  · obtain ⟨hfits, hroom⟩ := hserved.resolve_left hzero
    obtain ⟨c', happ, hgood', hoff⟩ :=
      good_append hgood g none (Nat.one_le_iff_ne_zero.mpr hzero) hfits
    have hkeep := content_grown hgood g none hfits (fun _ => hroom)
    obtain ⟨m, hm⟩ := grown_some g none n c
    rw [CAoMemCache.content_some hm, off_grown] at hkeep
    rw [appendBuf_eq _ _ (Nat.one_le_iff_ne_zero.mpr hzero), laid_of_some hm] at happ
    refine ⟨c', by rw [appendBuf_eq _ _ (Nat.one_le_iff_ne_zero.mpr hzero), laid_of_some hm,
      happ], hgood',
      read m c.cache_off n, length_read m _ n, ?_⟩
    cases happ
    have hread := read_add m 0 c.cache_off n
    rw [hkeep, Int.zero_add] at hread
    unfold CAoMemCache.content
    dsimp only at hoff ⊢
    rw [hoff]
    exact hread

theorem remove_served {c : CAoMemCache} (hgood : Good c) {n : Nat} (hn : n ≤ c.cache_off) :
    Good (c.remove 0 n) ∧ (c.remove 0 n).content = c.content.drop n := by
  cases hc : c.cache with
  | none =>
    have hoff := hgood.empty hc
    have hzero : n = 0 := by omega
    rw [hzero, CAoMemCache.remove_nothing, List.drop_zero]
    exact ⟨hgood, rfl⟩
  | some m =>
    obtain ⟨hsound, hcontent⟩ := CAoMemCache.remove_content ⟨by rw [hc]; rfl, hgood.fits⟩ hn
    have hsize : (c.remove 0 n).cache_size = c.cache_size := by
      unfold CAoMemCache.remove
      split
      · rfl
      · rfl
    refine ⟨⟨fun hnone => ?_, hsound.fits, hsize ▸ hgood.size_lt, ?_⟩, hcontent⟩
    · have := hsound.block
      rw [hnone] at this
      cases this
    · rw [CAoMemCache.step_remove]
      exact hgood.step_lt

/-! ## The copy of a removal -/

theorem removeApart_eq (c : CAoMemCache) (un_from un_to : Nat) : removeApart c un_from un_to =
    if ∀ k ∈ copyOf c un_from un_to, k.Apart then .ok (c.remove un_from un_to)
    else .error .overlap := by
  unfold removeApart
  rw [CAoMemCache.remove_copies]
  cases copyOf c un_from un_to with
  | none => simp
  | some k => simp

/-- A call whose copies are apart does what it does with a `memmove`. -/
theorem perform_clear {c : CAoMemCache} {e : Call} (hrange : InRange c e.op) (h : Clear c e.op) :
    perform c e = handle c e := by
  obtain ⟨got, op⟩ := e
  cases op with
  | remove un_from un_to =>
    have hapart : ∀ k ∈ copyOf c un_from un_to, k.Apart := (copyOf_apart hrange.1).mpr (by
      have hle : c.cache_off - un_to ≤ un_to - un_from := h
      have hfrom : un_from ≤ un_to := hrange.1
      omega)
    rw [perform, removeApart_eq, if_pos hapart]
    rfl
  | append data => rfl
  | room n => rfl
  | reset => rfl

/-- The other ones are undefined. -/
theorem clear_of_perform {c : CAoMemCache} {e : Call} {y : CAoMemCache × List Bool}
    (hrange : InRange c e.op) (h : perform c e = .ok y) : Clear c e.op := by
  obtain ⟨got, op⟩ := e
  cases op with
  | remove un_from un_to =>
    rw [perform, removeApart_eq] at h
    split at h
    · rename_i hapart
      have hle := (copyOf_apart hrange.1).mp hapart
      show c.cache_off - un_to ≤ un_to - un_from
      omega
    · cases h
  | append data => trivial
  | room n => trivial
  | reset => trivial

/-! ## One step -/

/-- A step whose needs are met is a step of the reference sequence. -/
theorem step_served {c : CAoMemCache} (hgood : Good c) (g : Mem UInt8) {op : Op}
    (hrange : InRange c op) (hserved : Served c op) :
    ∃ c' os, handle c ⟨some g, op⟩ = .ok (c', os) ∧ false ∉ os ∧ Good c' ∧
      RefStep c.content op c'.content := by
  cases op with
  | append data =>
    obtain ⟨c', happ, hgood', hcontent⟩ := append_served hgood g hserved
    exact ⟨c', [true], by simp only [handle, happ], by simp, hgood', hcontent⟩
  | room n =>
    obtain ⟨c', happ, hgood', hcontent⟩ := room_served hgood g hserved
    exact ⟨c', [true], by simp only [handle, happ], by simp, hgood', hcontent⟩
  | remove un_from un_to =>
    have hzero : un_from = 0 := hserved
    subst hzero
    obtain ⟨hgood', hcontent⟩ := remove_served hgood hrange.2
    exact ⟨_, [], rfl, by simp, hgood', hcontent⟩
  | reset =>
    refine ⟨c.reset, [],
      rfl, by simp, ⟨fun _ => rfl, Nat.zero_le _, hgood.size_lt, hgood.step_lt⟩, ?_⟩
    unfold CAoMemCache.reset CAoMemCache.content RefStep
    dsimp only
    split
    · rfl
    · rfl

/-- An append that leaves as many bytes as it should, within the noted size, made no sum wrap. -/
theorem fits_of_append {c c' : CAoMemCache} (hgood : Good c) {g : Mem UInt8} {data : Option Bytes}
    {n : Nat} (h : 1 ≤ n) (happ : (c.appendBuf (some g) data n).2 = c')
    (hlen : c'.content.length = c.content.length + n) (hle : c'.cache_off ≤ c'.cache_size) :
    Fits c n := by
  obtain ⟨m, d, hd, hm, hoff, _, hsize⟩ := append_numbers g data h c
  rw [hd] at happ
  subst happ
  rw [length_content_of_some hm, hoff, hgood.length_content] at hlen
  rw [hoff, hsize] at hle
  have hlt : n + c.cache_off < 4294967296 := by
    unfold u32 at hlen
    omega
  refine ⟨hlt, fun hgrow => ?_⟩
  rw [if_pos hgrow] at hle
  have := hgood.step_lt
  unfold u32 at hle
  omega

/-- Room without data that makes the buffer grow puts the bytes of the new block in the place of the
old. -/
theorem content_of_room {c : CAoMemCache} {g : Mem UInt8} {n : Nat} (h : 1 ≤ n)
    (hgrow : c.mustGrow n = true) :
    (c.appendBuf (some g) none n).2.content = read g 0 (u32 (c.cache_off + n)) := by
  have hm : (grown (some g) none n c).cache = some g := by
    unfold grown
    rw [if_pos hgrow]
    rfl
  rw [appendBuf_eq _ _ h, laid_of_some hm, off_grown]
  rfl

/-- A block whose first byte is another one shows that the bytes are gone. -/
theorem content_of_room_ne {c : CAoMemCache} {n : Nat} (h : 1 ≤ n) (hgrow : c.mustGrow n = true)
    (b : UInt8) (bs : Bytes) : (c.appendBuf (some fun _ => b + 1) none n).2.content ≠ b :: bs := by
  intro hsame
  rw [content_of_room h hgrow] at hsame
  have hlen := congrArg List.length hsame
  rw [length_read, List.length_cons] at hlen
  have hfirst := congrArg (fun l => l[0]?) hsame
  rw [getElem?_read _ _ (by omega), List.getElem?_cons_zero] at hfirst
  have hnat := congrArg UInt8.toNat (Option.some.inj hfirst)
  rw [UInt8.toNat_add, show (1 : UInt8).toNat = 1 from rfl] at hnat
  omega

/-- A removal that leaves as many bytes as it should is one from the front. -/
theorem from_zero_of_remove {c : CAoMemCache} (hgood : Good c) {un_from un_to : Nat}
    (hle : un_from ≤ un_to) (hto : un_to ≤ c.cache_off)
    (hlen : (c.remove un_from un_to).content.length =
      (c.content.take un_from ++ c.content.drop un_to).length) :
    un_from = 0 := by
  rw [List.length_append, List.length_take, List.length_drop, hgood.length_content] at hlen
  cases hc : c.cache with
  | none =>
    have := hgood.empty hc
    omega
  | some m =>
    have hblock := CAoMemCache.block_remove (by rw [hc]; rfl : c.cache.isSome) un_from un_to
    obtain ⟨m', hm'⟩ := Option.isSome_iff_exists.mp hblock
    rw [length_content_of_some hm'] at hlen
    have hoff : (c.remove un_from un_to).cache_off = c.cache_off - un_to := by
      unfold CAoMemCache.remove
      split
      · rfl
      · dsimp only
        omega
    omega

/-- A step that is one of the reference sequence, whatever the allocator serves, has its needs
met. -/
theorem served_of_step {c : CAoMemCache} (hgood : Good c) {op : Op} (hrange : InRange c op)
    (hstep : ∀ g, ∃ c' os, handle c ⟨some g, op⟩ = .ok (c', os) ∧ RefStep c.content op c'.content ∧
      c'.cache_off ≤ c'.cache_size) : Served c op := by
  cases op with
  | append data =>
    by_cases hnil : data = []
    · exact Or.inl hnil
    · obtain ⟨c', os, hok, href, hle⟩ := hstep (fun _ => 0)
      cases hok
      refine Or.inr (fits_of_append hgood (List.length_pos_of_ne_nil hnil) rfl ?_ hle)
      rw [href, List.length_append]
  | room n =>
    by_cases hzero : n = 0
    · exact Or.inl hzero
    · have hpos : 1 ≤ n := Nat.one_le_iff_ne_zero.mpr hzero
      have hfits : Fits c n := by
        obtain ⟨c', os, hok, ⟨u, hu, href⟩, hle⟩ := hstep (fun _ => 0)
        cases hok
        refine fits_of_append hgood hpos rfl ?_ hle
        rw [href, List.length_append, hu]
      refine Or.inr ⟨hfits, fun hgrow => ?_⟩
      cases hcontent : c.content with
      | nil =>
        have := hgood.length_content
        rw [hcontent] at this
        exact this.symm
      | cons b bs =>
        obtain ⟨c', os, hok, ⟨u, _, href⟩, _⟩ := hstep (fun _ => b + 1)
        cases hok
        rw [hcontent] at href
        exact absurd href (content_of_room_ne hpos hgrow b (bs ++ u))
  | remove un_from un_to =>
    obtain ⟨hle, hto⟩ := hrange
    obtain ⟨c', os, hok, href, _⟩ := hstep (fun _ => 0)
    cases hok
    exact from_zero_of_remove hgood hle hto (congrArg List.length href)
  | reset => exact trivial

/-! ## Runs with an allocator that serves -/

/-- Every call is in range and served, its needs are met, and its copy is apart. -/
def AllServed : List (Call × List Bool) → CAoMemCache → Call → Prop :=
  fun _ c e => e.got.isSome ∧ InRange c e.op ∧ Served c e.op ∧ Clear c e.op

theorem the_buffer_holds_the_reference_sequence {g : Mem UInt8} {init_size append_step_size : Nat}
    (hinit : init_size < 4294967296) (hstep : append_step_size < 4294967296)
    {es : List (Call × List Bool)} {s : CAoMemCache}
    (hrun : Run perform AllServed (.new (some g) init_size append_step_size) es s) :
    (Refers [] es s.content ∧ (∀ x ∈ es, false ∉ x.2) ∧ s.cache_off ≤ s.cache_size) ∧
      ∀ op, InRange s op →
        ((∀ g, ∃ c' os, perform s ⟨some g, op⟩ = .ok (c', os) ∧ RefStep s.content op c'.content ∧
          c'.cache_off ≤ c'.cache_size) ↔ Served s op ∧ Clear s op) := by
  have hinv : Good s ∧ Refers [] es s.content ∧ ∀ x ∈ es, false ∉ x.2 := by
    refine Run.invariant (I := fun es s => Good s ∧ Refers [] es s.content ∧ ∀ x ∈ es, false ∉ x.2)
      ?_ ?_ hrun
    · have hgood := good_new (some g) hinit hstep
      have hnil : (CAoMemCache.new (some g) init_size append_step_size).content = [] := by simp
      rw [hnil]
      exact ⟨hgood, .start, fun x hx => absurd hx List.not_mem_nil⟩
    · rintro es c ⟨got, op⟩ c' os ⟨hgood, href, htrue⟩ ⟨hgot, hrange, hserved, hclear⟩ hok
      obtain ⟨g', rfl⟩ := Option.isSome_iff_exists.mp hgot
      obtain ⟨d, os', hd, hos, hgood', hnext⟩ := step_served hgood g' hrange hserved
      rw [perform_clear hrange hclear, hd] at hok
      cases hok
      refine ⟨hgood', .next href hos hnext, fun x hx => ?_⟩
      rcases List.mem_cons.mp hx with rfl | hx
      · exact hos
      · exact htrue x hx
  obtain ⟨hgood, href, htrue⟩ := hinv
  refine ⟨⟨href, htrue, hgood.fits⟩, fun op hrange =>
    ⟨fun hall => ?_, fun ⟨hserved, hclear⟩ g => ?_⟩⟩
  · have hclear : Clear s op := by
      obtain ⟨_, _, hok, _⟩ := hall (fun _ => 0)
      exact clear_of_perform hrange hok
    refine ⟨served_of_step hgood hrange (fun g => ?_), hclear⟩
    obtain ⟨c', os, hok, hnext⟩ := hall g
    rw [perform_clear hrange hclear] at hok
    exact ⟨c', os, hok, hnext⟩
  · obtain ⟨c', os, hok, _, hgood', hnext⟩ := step_served hgood g hrange hserved
    exact ⟨c', os, (perform_clear hrange hclear).trans hok, hnext, hgood'.fits⟩

/-- A small buffer of zeros. -/
def small : CAoMemCache := .new (some fun _ => 0) 16 16

theorem a_removal_from_the_front :
    ∃ es s, Run perform AllServed small es s ∧ Refers [] es s.content ∧ s.content = [3] := by
  have happend : Run perform AllServed small [(⟨some fun _ => 0, .append [1, 2, 3]⟩, [true])] _ :=
    .next .start ⟨rfl, by unfold InRange; decide, Or.inr (by unfold Fits; decide), trivial⟩ rfl
  have hremove : Run perform AllServed small [(⟨some fun _ => 0, .remove 0 2⟩, []),
      (⟨some fun _ => 0, .append [1, 2, 3]⟩, [true])] _ :=
    .next happend ⟨rfl, by unfold InRange; decide, rfl, by unfold Clear; decide⟩ rfl
  exact ⟨_, _, hremove,
    (the_buffer_holds_the_reference_sequence (by decide) (by decide) hremove).1.1, by decide⟩

/-- A removal behind the first byte forgets the bytes in front of it in the length. -/
theorem a_removal_behind_the_front :
    ¬ ∀ (es : List (Call × List Bool)) (s : CAoMemCache),
      Run perform (fun _ c e => e.got.isSome ∧ InRange c e.op) small es s →
        Refers [] es s.content := by
  intro hall
  have happend : Run perform (fun _ c e => e.got.isSome ∧ InRange c e.op) small
      [(⟨some fun _ => 0, .append [1, 2, 3]⟩, [true])] _ :=
    .next .start ⟨rfl, by unfold InRange; decide⟩ rfl
  have hremove : Run perform (fun _ c e => e.got.isSome ∧ InRange c e.op) small
      [(⟨some fun _ => 0, .remove 1 2⟩, []), (⟨some fun _ => 0, .append [1, 2, 3]⟩, [true])] _ :=
    .next happend ⟨rfl, by unfold InRange; decide⟩ rfl
  have href := hall _ _ hremove
  cases href with
  | next h _ hstep =>
    cases h with
    | next h0 _ hstep0 =>
      cases h0
      cases hstep0
      exact absurd hstep (by unfold RefStep; decide)

/-! ## Runs with any answers -/

/-- How many bytes an append asks for. -/
def Op.asked : Op → Nat
  | .append data => data.length
  | .room n => n
  | _ => 0

/-- The call is an append that needs a block and gets none. -/
def Fails (c : CAoMemCache) (e : Call) : Prop :=
  e.got = none ∧ c.mustGrow e.op.asked = true ∧ e.op.asked ≠ 0

/-- The needs of a call are met, or it is an append that fails on an empty buffer of the size it
asks for. -/
def Kept (c : CAoMemCache) (e : Call) : Prop :=
  (Fails c e → Refused c e.op.asked) ∧ (¬ Fails c e → Served c e.op)

theorem appendBuf_failed {c : CAoMemCache} {data : Option Bytes} {n : Nat} :
    (c.appendBuf none data n).1 = false ↔ 1 ≤ n ∧ c.mustGrow n = true := by
  by_cases h : 1 ≤ n
  · rw [appendBuf_eq none data h]
    unfold laid grown
    by_cases hgrow : c.mustGrow n = true
    · rw [if_pos hgrow]
      unfold CAoMemCache.grow CAoMemCache.realloc
      simp [h, hgrow]
    · rw [if_neg hgrow]
      simp only [CAoMemCache.mustGrow, Bool.or_eq_true, not_or, Option.isNone_iff_eq_none] at hgrow
      obtain ⟨m, hm⟩ := Option.ne_none_iff_exists'.mp hgrow.1
      simp [hm, CAoMemCache.mustGrow, h, hgrow.2]
  · have hzero : n = 0 := by omega
    subst hzero
    rw [appendBuf_zero]
    simp

/-- The buffer without a block, of another size. -/
def dropped (c : CAoMemCache) (size : Nat) : CAoMemCache :=
  { c with cache_size := size, cache := none }

theorem behind_failed {c : CAoMemCache} {data : Option Bytes} {n : Nat}
    (h : (c.appendBuf none data n).1 = false) :
    (c.appendBuf none data n).2 = dropped c (u32 (n + c.cache_off + c.apped_step_size)) := by
  obtain ⟨hpos, hgrow⟩ := appendBuf_failed.mp h
  rw [appendBuf_eq none data hpos]
  unfold laid grown
  rw [if_pos hgrow]
  unfold CAoMemCache.grow CAoMemCache.realloc dropped
  simp

theorem appendBuf_of_room (got got' : Option (Mem UInt8)) (data : Option Bytes) {n : Nat}
    {c : CAoMemCache} (h : c.mustGrow n = true → n = 0) :
    c.appendBuf got data n = c.appendBuf got' data n := by
  by_cases hzero : n = 0
  · rw [hzero, appendBuf_zero, appendBuf_zero]
  · have hpos : 1 ≤ n := Nat.one_le_iff_ne_zero.mpr hzero
    rw [appendBuf_eq got data hpos, appendBuf_eq got' data hpos]
    unfold grown
    rw [if_neg (mt h hzero), if_neg (mt h hzero)]

/-- A refused append of a good buffer leaves it good, and leaves its bytes and its numbers. -/
theorem good_refused {c : CAoMemCache} (hgood : Good c) {data : Option Bytes} {n : Nat}
    (hfail : (c.appendBuf none data n).1 = false) (h : Refused c n) :
    Good (c.appendBuf none data n).2 ∧ (c.appendBuf none data n).2.content = c.content := by
  rw [behind_failed hfail]
  refine ⟨⟨fun _ => h.1, h.1.le.trans (Nat.zero_le _), ?_, hgood.step_lt⟩, ?_⟩
  · unfold dropped u32
    dsimp only
    omega
  · have hnil : c.content = [] := List.eq_nil_of_length_eq_zero (by rw [hgood.length_content, h.1])
    rw [hnil]
    rfl

theorem handle_of_not_fails {c : CAoMemCache} {e : Call} (h : ¬ Fails c e) :
    ∃ g, handle c e = handle c ⟨some g, e.op⟩ := by
  obtain ⟨got, op⟩ := e
  cases got with
  | some g => exact ⟨g, rfl⟩
  | none =>
    have hroom : c.mustGrow op.asked = true → op.asked = 0 := fun hgrow => by
      by_contra hne
      exact h ⟨rfl, hgrow, hne⟩
    refine ⟨fun _ => 0, ?_⟩
    cases op with
    | append data =>
      have happ := appendBuf_of_room none (some fun _ => 0) (some data) (n := data.length) hroom
      simp only [handle, happ]
    | room n =>
      have happ := appendBuf_of_room none (some fun _ => 0) none (n := n) hroom
      simp only [handle, happ]
    | remove un_from un_to => rfl
    | reset => rfl

theorem handle_of_fails {c : CAoMemCache} {e : Call} (h : Fails c e) :
    ∃ data, (c.appendBuf none data e.op.asked).1 = false ∧
      handle c e = .ok ((c.appendBuf none data e.op.asked).2, [false]) := by
  obtain ⟨got, op⟩ := e
  obtain ⟨rfl, hgrow, hne⟩ := h
  have hfail : ∀ data, (c.appendBuf none data op.asked).1 = false := fun data =>
    appendBuf_failed.mpr ⟨Nat.one_le_iff_ne_zero.mpr hne, hgrow⟩
  cases op with
  | append data =>
    have happ : (c.appendBuf none (some data) data.length).1 = false := hfail (some data)
    exact ⟨some data, happ, by simp only [handle, happ, Op.asked]⟩
  | room n =>
    have happ : (c.appendBuf none none n).1 = false := hfail none
    exact ⟨none, happ, by simp only [handle, happ, Op.asked]⟩
  | remove un_from un_to => exact absurd rfl hne
  | reset => exact absurd rfl hne

theorem refers_step {r : Bytes} {es : List (Call × List Bool)} {c c' : CAoMemCache} {e : Call}
    {os : List Bool} (hgood : Good c) (href : Refers r es c.content) (hrange : InRange c e.op)
    (hkept : Kept c e) (hok : handle c e = .ok (c', os)) :
    Good c' ∧ Refers r ((e, os) :: es) c'.content := by
  by_cases hfails : Fails c e
  · obtain ⟨data, hfalse, hhandle⟩ := handle_of_fails hfails
    obtain ⟨hgood', hcontent⟩ := good_refused hgood hfalse (hkept.1 hfails)
    rw [hhandle] at hok
    cases hok
    exact ⟨hgood', .failed (hcontent ▸ href)⟩
  · obtain ⟨g, hhandle⟩ := handle_of_not_fails hfails
    obtain ⟨d, os', hd, hos, hgood', hnext⟩ := step_served hgood g hrange (hkept.2 hfails)
    rw [hhandle, hd] at hok
    cases hok
    exact ⟨hgood', .next href hos hnext⟩

theorem refers_of_run {c s : CAoMemCache} (hgood : Good c) {es : List (Call × List Bool)}
    (hrun : Run handle (fun _ c e => InRange c e.op ∧ Kept c e) c es s) :
    Refers c.content es s.content := by
  refine (Run.invariant (I := fun es s => Good s ∧ Refers c.content es s.content)
    ⟨hgood, .start⟩ ?_ hrun).2
  rintro es c e c' os ⟨hgood, href⟩ ⟨hrange, hkept⟩ hok
  exact refers_step hgood href hrange hkept hok

theorem fails_of_false {c c' : CAoMemCache} {op : Op}
    (h : handle c ⟨none, op⟩ = .ok (c', [false])) :
    Fails c ⟨none, op⟩ := by
  cases op with
  | append data =>
    simp only [handle, Except.ok.injEq, Prod.mk.injEq, List.cons.injEq, and_true] at h
    obtain ⟨hpos, hgrow⟩ := appendBuf_failed.mp h.2
    exact ⟨rfl, hgrow, Nat.one_le_iff_ne_zero.mp hpos⟩
  | room n =>
    simp only [handle, Except.ok.injEq, Prod.mk.injEq, List.cons.injEq, and_true] at h
    obtain ⟨hpos, hgrow⟩ := appendBuf_failed.mp h.2
    exact ⟨rfl, hgrow, Nat.one_le_iff_ne_zero.mp hpos⟩
  | remove un_from un_to => cases h
  | reset => cases h

/-- Behind a failed append on an empty buffer, the next one that is served holds its own bytes. -/
theorem append_after_refused {c : CAoMemCache} (hnone : c.cache = none) (hoff : c.cache_off = 0)
    (g : Mem UInt8) {bs : Bytes} (hlt : bs.length < 4294967296) :
    (c.appendBuf (some g) (some bs) bs.length).2.content = bs := by
  by_cases hnil : bs = []
  · subst hnil
    rw [List.length_nil, appendBuf_zero]
    simp [CAoMemCache.content, hnone]
  · have hpos : 1 ≤ bs.length := List.length_pos_of_ne_nil hnil
    have hgrow : c.mustGrow bs.length = true := by simp [CAoMemCache.mustGrow, hnone]
    have hm : (grown (some g) (some bs) bs.length c).cache = some g := by
      unfold grown CAoMemCache.grow CAoMemCache.realloc
      rw [if_pos hgrow]
      simp [hnone]
    rw [appendBuf_eq _ _ hpos, laid_of_some hm, off_grown, hoff]
    have hsum : u32 ((0 : Nat) + bs.length) = bs.length := by
      unfold u32
      omega
    unfold CAoMemCache.content
    dsimp only
    rw [hsum, List.take_length]
    exact read_write_self g 0 bs

/-- Over a null buffer that claims bytes, a new block shows other ones. -/
theorem off_of_append {c : CAoMemCache} (hnone : c.cache = none)
    (h : ∀ g : Mem UInt8, (c.appendBuf (some g) (some [1]) 1).2.content = [1]) :
    c.cache_off = 0 := by
  by_contra hne
  have hgrow : c.mustGrow 1 = true := by simp [CAoMemCache.mustGrow, hnone]
  have hm : (grown (some fun _ => 0) (some [1]) 1 c).cache = some fun _ => 0 := by
    unfold grown CAoMemCache.grow CAoMemCache.realloc
    rw [if_pos hgrow]
    simp [hnone]
  have hone := h fun _ => 0
  rw [appendBuf_eq _ _ (Nat.le_refl 1), laid_of_some hm, off_grown] at hone
  unfold CAoMemCache.content at hone
  dsimp only at hone
  have hlen := congrArg List.length hone
  rw [length_read, List.length_singleton] at hlen
  have hfirst := congrArg (fun l => l[0]?) hone
  rw [getElem?_read _ _ (by omega), write_before _ _ (by omega)] at hfirst
  exact absurd (Option.some.inj hfirst) (by decide)

/-- An append that fails changes nothing, for what comes later too, just when it meets an empty
buffer and asks for the size that is noted already. -/
theorem a_failed_append_changes_nothing_iff {c c' : CAoMemCache} {op : Op}
    (hstep : c.apped_step_size < 4294967296) (hfail : handle c ⟨none, op⟩ = .ok (c', [false])) :
    (c'.content = c.content ∧ c'.cache_off = c.cache_off ∧ c'.cache_size = c.cache_size ∧
      (∀ (g : Mem UInt8) (bs : Bytes) (c'' : CAoMemCache), bs.length < 4294967296 →
        handle c' ⟨some g, .append bs⟩ = .ok (c'', [true]) → c''.content = c.content ++ bs) ∧
      ∀ es s, Run handle (fun _ c e => InRange c e.op ∧ Kept c e) c' es s →
        Refers c.content es s.content) ↔
      c.cache_off = 0 ∧ u32 (op.asked + c.apped_step_size) = c.cache_size := by
  have hfails := fails_of_false hfail
  obtain ⟨data, hfalse, hhandle⟩ := handle_of_fails hfails
  have hbehind := behind_failed hfalse
  rw [hhandle] at hfail
  cases hfail
  constructor
  · rintro ⟨hcontent, _, hsize, hnext, _⟩
    rw [hbehind] at hcontent hsize hnext
    have hoff : c.cache_off = 0 := by
      cases hc : c.cache with
      | none =>
        have hnil : c.content = [] := by simp [CAoMemCache.content, hc]
        refine off_of_append (c := dropped c (u32 (op.asked + c.cache_off + c.apped_step_size)))
          rfl (fun g => ?_)
        obtain ⟨m, d, hd, _⟩ := append_numbers g (some [1]) (Nat.le_refl 1)
          (dropped c (u32 (op.asked + c.cache_off + c.apped_step_size)))
        have hone := hnext g [1] d (by decide) (by simp only [handle, List.length_singleton, hd])
        rw [hnil, List.nil_append] at hone
        rw [hd]
        exact hone
      | some m =>
        have hlen := length_content_of_some hc
        rw [← hcontent] at hlen
        exact hlen.symm
    refine ⟨hoff, ?_⟩
    rw [show (dropped c (u32 (op.asked + c.cache_off + c.apped_step_size))).cache_size =
      u32 (op.asked + c.cache_off + c.apped_step_size) from rfl, hoff] at hsize
    rw [← hsize]
    congr 1
  · rintro ⟨hoff, hsize⟩
    have hnil : c.content = [] := by
      unfold CAoMemCache.content
      rw [hoff]
      split
      · rfl
      · rfl
    have hsize' : u32 (op.asked + c.cache_off + c.apped_step_size) = c.cache_size := by
      rw [hoff, ← hsize]
      congr 1
    rw [hbehind, hsize', hnil]
    refine ⟨rfl, rfl, rfl, fun g bs c'' hlt hok => ?_, fun es s hrun => ?_⟩
    · simp only [handle, Except.ok.injEq, Prod.mk.injEq] at hok
      rw [← hok.1, List.nil_append]
      exact append_after_refused (c := dropped c c.cache_size) rfl hoff g hlt
    · have hlt : c.cache_size < 4294967296 := by
        rw [← hsize]
        unfold u32
        omega
      have hgood : Good (dropped c c.cache_size) :=
        ⟨fun _ => hoff, hoff.le.trans (Nat.zero_le _), hlt, hstep⟩
      exact refers_of_run hgood hrun

/-- A buffer without a block that asks again for the size it noted. -/
theorem an_append_that_fails_again :
    ∃ c', handle (.new none 20 10) ⟨none, .append (List.replicate 10 1)⟩ = .ok (c', [false]) ∧
      c'.content = [] ∧
      c'.cache_size = 20 := by
  have hfail : handle (.new none 20 10) ⟨none, .append (List.replicate 10 1)⟩ =
      .ok (⟨10, 20, 0, none⟩, [false]) := rfl
  have hkeep := (a_failed_append_changes_nothing_iff (by decide) hfail).mpr ⟨rfl, rfl⟩
  exact ⟨_, hfail, hkeep.1, hkeep.2.2.1⟩

/-- A failed append of ten bytes loses the three that the buffer held. -/
theorem a_failed_append_loses_the_bytes :
    ¬ ∀ (c c' : CAoMemCache) (op : Op), handle c ⟨none, op⟩ = .ok (c', [false]) →
      c'.content = c.content ∧ c'.cache_off = c.cache_off ∧ c'.cache_size = c.cache_size := by
  intro hall
  obtain ⟨hcontent, _⟩ :=
    hall ⟨10, 10, 3, some fun _ => 7⟩ ⟨10, 23, 3, none⟩ (.append (List.replicate 10 1)) rfl
  exact absurd hcontent (by decide)

end util.cache_runs
