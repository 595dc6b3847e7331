-- `CAoMemCache`, the growing byte buffer under both directions of the
-- protocol. Its block lies in a flat memory, so a copy past the block is a
-- copy into what lies there. The laws say that it holds a byte sequence.
import Aods.FlatMemory
import Aods.Machine

open flat_memory machine

namespace util.mem_cache

/-- The buffer. `cache` is the memory seen from `m_pucCache`, or `none` for a
null pointer. -/
structure CAoMemCache where
  apped_step_size : Nat
  cache_size : Nat
  cache_off : Nat
  cache : Option (Mem UInt8)

namespace CAoMemCache

/-- The constructor. `got` is what the allocator answers. -/
def new (got : Option (Mem UInt8)) (init_size append_step_size : Nat) : CAoMemCache where
  apped_step_size := append_step_size
  cache_size := init_size
  cache_off := 0
  cache := if init_size > 0 then got else none

/-- `realloc`: the new block keeps the bytes of the old one that fit. -/
def realloc (got old : Option (Mem UInt8)) (old_size new_size : Nat) : Option (Mem UInt8) :=
  match got, old with
  | none, _ => none
  | some m, none => some m
  | some m, some o => some (write m 0 (read o 0 (min old_size new_size)))

/-- The block is missing or too small for `data_len` more bytes. -/
def mustGrow (c : CAoMemCache) (data_len : Nat) : Bool :=
  c.cache.isNone || decide (c.cache_size < u32 (data_len + c.cache_off))

def grow (got : Option (Mem UInt8)) (data : Option Bytes) (data_len : Nat) (c : CAoMemCache) :
    CAoMemCache :=
  let new_size := u32 (data_len + c.cache_off + c.apped_step_size)
  { c with
    cache_size := new_size
    -- no data to copy: the code asks for a new block and drops the old bytes
    cache := if data.isNone then got else realloc got c.cache c.cache_size new_size }

def appendBuf (got : Option (Mem UInt8)) (data : Option Bytes) (data_len : Nat)
    (c : CAoMemCache) : Bool × CAoMemCache :=
  if data_len < 1 then (true, c)
  else
    let c := if c.mustGrow data_len then c.grow got data data_len else c
    match c.cache with
    | none => (false, c)
    | some m =>
      let m := match data with
        | some bs => write m c.cache_off (bs.take data_len)
        | none => m
      (true, { c with cache := some m, cache_off := u32 (c.cache_off + data_len) })

def reset (c : CAoMemCache) : CAoMemCache := { c with cache_off := 0 }

/-- The copy is a `memmove`: it reads all its bytes before it writes one. -/
def remove (c : CAoMemCache) (un_from un_to : Nat) : CAoMemCache :=
  if c.cache_off > un_to then
    let off := c.cache_off - un_to
    { c with cache_off := off, cache := c.cache.map (fun m => write m un_from (read m un_to off)) }
  else { c with cache_off := 0 }

end CAoMemCache

/-! ## The copy of `Remove` -/

/-- A `memcpy`: where it writes, where it reads, and how many bytes. -/
structure Copy where
  dst : Nat
  src : Nat
  n : Nat
  deriving DecidableEq

/-- No place is written and read. -/
def Copy.Apart (c : Copy) : Prop :=
  ∀ i, ¬ ((c.dst ≤ i ∧ i < c.dst + c.n) ∧ (c.src ≤ i ∧ i < c.src + c.n))

/-- The copy of `Remove`. -/
def copyOf (c : CAoMemCache) (un_from un_to : Nat) : Option Copy :=
  if c.cache_off > un_to then some ⟨un_from, un_to, c.cache_off - un_to⟩ else none

theorem Copy.apart_iff (c : Copy) :
    c.Apart ↔ c.n = 0 ∨ c.dst + c.n ≤ c.src ∨ c.src + c.n ≤ c.dst := by
  constructor
  · intro h
    by_contra hmeet
    have hboth := h (max c.dst c.src)
    omega
  · rintro hor i ⟨hdst, hsrc⟩
    omega

instance (c : Copy) : Decidable c.Apart := decidable_of_iff _ c.apart_iff.symm

/-- A copy towards the front is apart just when it ends before the bytes that it reads. -/
theorem copyOf_apart {c : CAoMemCache} {un_from un_to : Nat} (h : un_from ≤ un_to) :
    (∀ k ∈ copyOf c un_from un_to, k.Apart) ↔ un_from + (c.cache_off - un_to) ≤ un_to := by
  unfold copyOf
  split
  · simp only [Option.mem_def, Option.some.injEq, forall_eq', Copy.apart_iff]
    omega
  · simp only [Option.not_mem_none, false_implies, implies_true, true_iff]
    omega

namespace CAoMemCache

theorem remove_copies (c : CAoMemCache) (un_from un_to : Nat) : c.remove un_from un_to =
    match copyOf c un_from un_to with
    | none => { c with cache_off := 0 }
    | some k =>
      { c with
        cache_off := k.n, cache := c.cache.map (fun m => write m k.dst (read m k.src k.n)) } := by
  unfold remove copyOf
  split
  · rfl
  · rfl

/-! ## The byte sequence -/

/-- The bytes that the buffer holds. -/
def content (c : CAoMemCache) : Bytes :=
  match c.cache with
  | none => []
  | some m => read m 0 c.cache_off

/-- The buffer has a block, and its bytes fit in it. -/
structure Sound (c : CAoMemCache) : Prop where
  block : c.cache.isSome
  fits : c.cache_off ≤ c.cache_size

theorem content_some {c : CAoMemCache} {m : Mem UInt8} (h : c.cache = some m) :
    c.content = read m 0 c.cache_off := by
  unfold content
  rw [h]

theorem length_content {c : CAoMemCache} (h : c.Sound) : c.content.length = c.cache_off := by
  obtain ⟨m, hm⟩ := Option.isSome_iff_exists.mp h.block
  rw [content_some hm, length_read]

theorem sound_new (m : Mem UInt8) {n : Nat} (step : Nat) (h : 0 < n) :
    (new (some m) n step).Sound :=
  ⟨by simp [new, h], by simp [new]⟩

@[simp] theorem content_new (m : Mem UInt8) (n step : Nat) :
    (new (some m) n step).content = [] := by
  unfold content new
  dsimp only
  split
  · rfl
  · rfl

/-- A new block keeps the bytes, when the request does not wrap. -/
theorem grow_keeps {c : CAoMemCache} (h : c.Sound) (g : Mem UInt8) (bs : Bytes) {n : Nat}
    (hn : n + c.cache_off + c.apped_step_size < 4294967296) :
    (c.grow (some g) (some bs) n).content = c.content ∧
      (c.grow (some g) (some bs) n).cache.isSome ∧
      n + c.cache_off ≤ (c.grow (some g) (some bs) n).cache_size := by
  obtain ⟨m, hm⟩ := Option.isSome_iff_exists.mp h.block
  have hsize : u32 (n + c.cache_off + c.apped_step_size) = n + c.cache_off + c.apped_step_size := by
    exact_mod_cast u32_of_lt hn
  have hfits := h.fits
  refine ⟨?_, by simp [grow, realloc, hm], by simp only [grow, hsize]; omega⟩
  rw [content_some hm]
  have hold : c.cache_off ≤ min c.cache_size (n + c.cache_off + c.apped_step_size) := by omega
  have hread := read_of_le (read_write_self g 0 (read m 0 (min c.cache_size
    (n + c.cache_off + c.apped_step_size)))) (k := c.cache_off) (by simpa using hold)
  simp only [content, grow, realloc, hm, hsize, Option.isNone_some, Bool.false_eq_true, if_false]
  rw [hread, ← read_of_le rfl hold]

theorem block_of_append {c : CAoMemCache} {got : Option (Mem UInt8)} {bs : Bytes} (hne : bs ≠ [])
    (h : (c.appendBuf got (some bs) bs.length).1 = true) :
    (c.appendBuf got (some bs) bs.length).2.cache.isSome := by
  have hlen : ¬ bs.length < 1 := by
    have := List.length_pos_of_ne_nil hne
    omega
  rw [appendBuf, if_neg hlen] at h ⊢
  dsimp only at h ⊢
  split at h
  · cases h
  · rename_i hm
    rfl

theorem off_of_append {c : CAoMemCache} {got : Option (Mem UInt8)} {bs : Bytes} (hne : bs ≠ [])
    (h : (c.appendBuf got (some bs) bs.length).1 = true) :
    (c.appendBuf got (some bs) bs.length).2.cache_off = u32 (c.cache_off + bs.length) := by
  have hlen : ¬ bs.length < 1 := by
    have := List.length_pos_of_ne_nil hne
    omega
  have hsame : (if c.mustGrow bs.length then c.grow got (some bs) bs.length else c).cache_off =
      c.cache_off := by
    split
    · rfl
    · rfl
  rw [appendBuf, if_neg hlen] at h ⊢
  dsimp only at h ⊢
  split at h
  · cases h
  · rw [← hsame]

theorem appendBuf_room (c : CAoMemCache) (g : Mem UInt8) {n : Nat} (h : 1 ≤ n) :
    ∃ m, (c.appendBuf (some g) none n).2.cache = some m := by
  have hlen : ¬ n < 1 := by omega
  obtain ⟨m, hm⟩ : ∃ m, (if c.mustGrow n then c.grow (some g) none n else c).cache = some m := by
    split
    · exact ⟨g, rfl⟩
    · rename_i hfit
      simp only [mustGrow, Bool.or_eq_true, not_or, Option.isNone_iff_eq_none] at hfit
      exact Option.ne_none_iff_exists'.mp hfit.1
  exact ⟨m, by simp only [appendBuf, hlen, if_false, hm]⟩

theorem appendBuf_content {c : CAoMemCache} (h : c.Sound) (g : Mem UInt8) {bs : Bytes}
    (hne : bs ≠ []) (hn : bs.length + c.cache_off + c.apped_step_size < 4294967296) :
    ∃ c', c.appendBuf (some g) (some bs) bs.length = (true, c') ∧ c'.Sound ∧
      c'.content = c.content ++ bs ∧ c'.cache_off = c.cache_off + bs.length ∧
      c'.apped_step_size = c.apped_step_size := by
  have hlen : ¬ bs.length < 1 := by
    have := List.length_pos_of_ne_nil hne
    omega
  have hoff : u32 (c.cache_off + bs.length) = c.cache_off + bs.length := by
    exact_mod_cast u32_of_lt (n := c.cache_off + bs.length) (by omega)
  -- the block after the growth, if there was one, and what it holds
  obtain ⟨d, hd, hkeep, hroom, hsame⟩ : ∃ d,
      (if c.mustGrow bs.length then c.grow (some g) (some bs) bs.length else c) = d ∧
      (d.content = c.content ∧ d.cache.isSome) ∧ bs.length + c.cache_off ≤ d.cache_size ∧
      d.cache_off = c.cache_off ∧ d.apped_step_size = c.apped_step_size := by
    refine ⟨_, rfl, ?_⟩
    split
    · obtain ⟨h1, h2, h3⟩ := grow_keeps h g bs hn
      exact ⟨⟨h1, h2⟩, h3, rfl, rfl⟩
    · rename_i hfit
      have hsum : u32 (bs.length + c.cache_off) = bs.length + c.cache_off := by
        exact_mod_cast u32_of_lt (n := bs.length + c.cache_off) (by omega)
      simp only [mustGrow, hsum, Bool.or_eq_true, decide_eq_true_eq, not_or, not_lt] at hfit
      exact ⟨⟨rfl, h.block⟩, hfit.2, rfl, rfl⟩
  obtain ⟨m, hm⟩ := Option.isSome_iff_exists.mp hkeep.2
  refine ⟨{ d with cache := some (write m c.cache_off bs), cache_off := c.cache_off + bs.length },
    ?_, ⟨rfl, by dsimp only; omega⟩, ?_, rfl, hsame.2⟩
  · simp only [appendBuf, hlen, if_false, hd, hm, hsame.1, List.take_length, hoff]
  · have hold : read m 0 c.cache_off = c.content := by rw [← hkeep.1, content_some hm, hsame.1]
    have := read_write_append m 0 c.cache_off bs
    rw [hold, Int.zero_add] at this
    exact this

theorem block_remove {c : CAoMemCache} (h : c.cache.isSome) (un_from un_to : Nat) :
    (c.remove un_from un_to).cache.isSome := by
  unfold remove
  split
  · simpa using h
  · exact h

theorem step_remove (c : CAoMemCache) (un_from un_to : Nat) :
    (c.remove un_from un_to).apped_step_size = c.apped_step_size := by
  unfold remove
  split
  · rfl
  · rfl

theorem remove_le (c : CAoMemCache) (un_from un_to : Nat) :
    (c.remove un_from un_to).cache_off ≤ c.cache_off := by
  unfold remove
  split
  · exact Nat.sub_le _ _
  · exact Nat.zero_le _

theorem remove_nothing (c : CAoMemCache) : c.remove 0 0 = c := by
  obtain ⟨step, size, off, cache⟩ := c
  unfold remove
  split
  · cases cache with
    | none => rfl
    | some m =>
      have := write_read_self m 0 off
      simpa using this
  · have hz : off = 0 := by
      rename_i h
      dsimp only at h
      omega
    rw [hz]

theorem remove_lt_iff {c : CAoMemCache} (h : 0 < c.cache_off) (n : Nat) :
    (c.remove 0 n).cache_off < c.cache_off ↔ n ≠ 0 := by
  unfold remove
  split
  · dsimp only
    omega
  · dsimp only
    omega

theorem content_remove {c : CAoMemCache} (h : c.cache.isSome) {n : Nat} (hn : n ≤ c.cache_off) :
    (c.remove 0 n).content = c.content.drop n := by
  obtain ⟨m, hm⟩ := Option.isSome_iff_exists.mp h
  unfold remove
  split
  · have hself := read_write_self m 0 (read m n (c.cache_off - n))
    rw [length_read] at hself
    have hdrop := read_drop (m := m) (o := 0) (n := c.cache_off) rfl hn
    rw [Int.zero_add] at hdrop
    simp only [content, hm, Option.map_some]
    exact hself.trans hdrop
  · rw [content_some hm, List.drop_eq_nil_of_le (by simp; omega)]
    simp [content, hm]

theorem remove_content {c : CAoMemCache} (h : c.Sound) {n : Nat} (hn : n ≤ c.cache_off) :
    (c.remove 0 n).Sound ∧ (c.remove 0 n).content = c.content.drop n := by
  have hle := remove_le c 0 n
  have hsize : (c.remove 0 n).cache_size = c.cache_size := by
    unfold remove
    split
    · rfl
    · rfl
  exact ⟨⟨block_remove h.block 0 n, by rw [hsize]; exact hle.trans h.fits⟩,
    content_remove h.block hn⟩

end CAoMemCache

end util.mem_cache
