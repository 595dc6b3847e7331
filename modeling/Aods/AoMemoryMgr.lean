-- `CAoMemoryMgr`, the pool that `MALLOC`, `FREE` and `REALLOC` take blocks from. A block has the
-- number of its class in the byte before it. The law says in which runs of calls the lock is
-- released behind each of them, the blocks that are out stay apart from the free ones, each block
-- keeps its class and `Realloc` keeps what the block holds.
import Aods.Calls
import Aods.Heap
import Mathlib.Data.List.FinRange
import Mathlib.Data.List.Infix
import Mathlib.Data.List.Perm.Basic

open machine calls heap

namespace util.ao_memory_mgr

/-! ## The model -/

/-- How a call fails to come back. -/
inductive Stop where
  | fault (f : Fault)
  | deadlock
  deriving DecidableEq

def orFault {α : Type} (x : Except Fault α) : Except Stop α := x.mapError .fault

/-- What `CAoLock` is: a critical section of Windows, that its thread may enter again, or a mutex of
Linux, that waits for itself. -/
inductive LockKind where
  | critical_section
  | mutex
  deriving DecidableEq

structure CAoLock where
  kind : LockKind
  held : Nat

def CAoLock.lock (l : CAoLock) : Except Stop CAoLock :=
  if l.kind = .mutex ∧ 0 < l.held then .error .deadlock else .ok { l with held := l.held + 1 }

def CAoLock.unlock (l : CAoLock) : CAoLock := { l with held := l.held - 1 }

/-- The classes of blocks. -/
abbrev Index := Fin 12

def sizes : List Nat :=
  [512, 1024, 2048, 4096, 8192, 16384, 32768, 65536, 131072, 1048576, 2097152, 8388608]

def counts : List Nat := [10240, 10240, 10240, 10240, 10240, 1024, 1024, 1024, 1024, 32, 32, 16]

def nSize (n : Index) : Nat := sizes.get n

def nCount (n : Index) : Nat := counts.get n

/-- The value of a `char`, which is signed. -/
def schar (b : UInt8) : Int := if b.toNat < 128 then b.toNat else b.toNat - 256

/-- The class of a number, if there is one. -/
def indexOf (n_index : Int) : Option Index :=
  if h : 0 ≤ n_index ∧ n_index < 12 then some ⟨n_index.toNat, by omega⟩ else none

/-- The class that stands in the first byte of a block. -/
def classAt (mem : Heap Bytes) (a : Nat) : Except Fault (Option Index) := do
  let block ← read mem (some a)
  match block with
  | [] => .error .overrun
  | b :: _ => pure (indexOf (schar b))

/-- What lies behind that byte. The pointers of the program point there. -/
def content (mem : Heap Bytes) (a : Nat) : Bytes := ((mem.lookup a).getD []).drop 1

/-- What `malloc` answers: NULL, or where the block is, with what lies there. -/
abbrev Got := Option (Nat × (Nat → UInt8))

/-- `memset` with zeros. -/
def memset (block : Bytes) (n : Nat) : Bytes := List.replicate n 0 ++ block.drop n

/-- `memcpy` from behind the class byte of one block to behind that of another. -/
def memcpy (mem : Heap Bytes) (dst : Ptr) (src n : Nat) : Except Fault (Heap Bytes) :=
  match dst with
  | none => .error .null_pointer
  | some d => do
    let from_block ← read mem (some src)
    let to_block ← read mem (some d)
    if from_block.length < n + 1 ∨ to_block.length < n + 1 then .error .overrun
    else
      pure (mem.insert d (to_block.take 1 ++ (from_block.drop 1).take n ++ to_block.drop (n + 1)))

/-- The members, and the blocks that `malloc` gave. -/
structure CAoMemoryMgr where
  lst_mem : Index → List Nat
  p_lock : CAoLock
  mem : Heap Bytes

/-- Where `malloc` puts the blocks that the constructor asks for, each to a place of its own. -/
structure Placement where
  addr : Index → Nat → Nat
  apart : ∀ n m n' m', addr n m = addr n' m' → n = n' ∧ m = m'

namespace CAoMemoryMgr

/-- A turn of the constructor's inner loop. -/
def addBlock (mgr : CAoMemoryMgr) (n : Index) (a : Nat) : CAoMemoryMgr :=
  { mgr with
    lst_mem := Function.update mgr.lst_mem n (mgr.lst_mem n ++ [a])
    mem := mgr.mem.insert a ((List.replicate (nSize n + 1) 0).set 0 (UInt8.ofNat n)) }

/-- And one of its outer loop. -/
def addClass (place : Placement) (mgr : CAoMemoryMgr) (n : Index) : CAoMemoryMgr :=
  (List.range (nCount n)).foldl (fun mgr m => mgr.addBlock n (place.addr n m)) mgr

/-- The constructor. -/
def new (kind : LockKind) (place : Placement) : CAoMemoryMgr :=
  (List.finRange 12).foldl (addClass place) ⟨fun _ => [], ⟨kind, 0⟩, ∅⟩

/-- The rest of the turn of `Malloc` that finds a class with blocks which are large enough. Behind
`malloc` it does not unlock. -/
def mallocIn (mgr : CAoMemoryMgr) (n : Index) (got : Got) : Except Stop (Ptr × CAoMemoryMgr) := do
  let p_lock ← mgr.p_lock.lock
  match mgr.lst_mem n with
  | psz_buf :: rest =>
    pure (some psz_buf,
      { mgr with lst_mem := Function.update mgr.lst_mem n rest, p_lock := p_lock.unlock })
  | [] =>
    match got with
    | none => .error (.fault .null_pointer)
    | some (psz_buf, junk) =>
      let block := (memset ((List.range (nSize n + 1)).map junk) (nSize n)).set 0 (UInt8.ofNat n)
      pure (some psz_buf, { mgr with p_lock, mem := mgr.mem.insert psz_buf block })

/-- The loop of `Malloc`. -/
def mallocFrom (mgr : CAoMemoryMgr) (n_size : Int) (got : Got) :
    List Index → Except Stop (Ptr × CAoMemoryMgr)
  | [] => .ok (none, mgr)
  | n :: ns => if n_size > nSize n then mgr.mallocFrom n_size got ns else mgr.mallocIn n got

def malloc (mgr : CAoMemoryMgr) (n_size : Int) (got : Got) : Except Stop (Ptr × CAoMemoryMgr) :=
  mgr.mallocFrom n_size got (List.finRange 12)

def free (mgr : CAoMemoryMgr) : Ptr → Except Stop CAoMemoryMgr
  | none => .ok mgr
  | some psz_data => do
    let n_index ← orFault (classAt mgr.mem psz_data)
    match n_index with
    | none => pure mgr
    | some n => do
      let p_lock ← mgr.p_lock.lock
      pure { mgr with
        lst_mem := Function.update mgr.lst_mem n (mgr.lst_mem n ++ [psz_data])
        p_lock := p_lock.unlock }

def realloc (mgr : CAoMemoryMgr) (p_data : Ptr) (n_new_size : Int) (got : Got) :
    Except Stop (Ptr × CAoMemoryMgr) :=
  match p_data with
  | none => mgr.malloc n_new_size got
  | some psz_data => do
    let n_index ← orFault (classAt mgr.mem psz_data)
    match n_index with
    | none => pure (none, mgr)
    | some n =>
      if n_new_size ≤ nSize n then pure (p_data, mgr)
      else do
        let (p_data1, mgr) ← mgr.malloc n_new_size got
        let mem ← orFault (memcpy mgr.mem p_data1 psz_data (nSize n))
        let mgr ← { mgr with mem }.free p_data
        pure (p_data1, mgr)

end CAoMemoryMgr

/-- The calls, and the program's writes. A block is named by its place among those that are out: a
place behind them stands for NULL. -/
inductive Op where
  | malloc (n_size : Int) (got : Got)
  | free (i : Nat)
  | realloc (i : Nat) (n_new_size : Int) (got : Got)
  | store (i j : Nat) (b : UInt8)

/-- The pool, with the blocks that are out, each with the size it was asked for, and what the last
call returned. -/
structure Run where
  mgr : CAoMemoryMgr
  live : List (Nat × Int)
  ret : Ptr

/-- A block that a call gives out, if it does. -/
def given (p : Ptr) (n_size : Int) : List (Nat × Int) := (p.map (·, n_size)).toList

def Run.pData (s : Run) (i : Nat) : Ptr := s.live[i]?.map (·.1)

def start (kind : LockKind) (place : Placement) : Run := ⟨.new kind place, [], none⟩

/-- The program writes no byte behind those that it asked for. -/
def step : Step Run Op Stop
  | s, .malloc n_size got =>
    (s.mgr.malloc n_size got).map (fun r => ⟨r.2, s.live ++ given r.1 n_size, r.1⟩)
  | s, .free i => (s.mgr.free (s.pData i)).map (fun mgr => ⟨mgr, s.live.eraseIdx i, none⟩)
  | s, .realloc i n_new_size got =>
    (s.mgr.realloc (s.pData i) n_new_size got).map (fun r =>
      ⟨r.2, if r.1 = none then s.live else s.live.eraseIdx i ++ given r.1 n_new_size, r.1⟩)
  | s, .store i j b =>
    match s.live[i]? with
    | none => .ok s
    | some (a, n_size) =>
      if j < n_size then
        (orFault (modify s.mgr.mem (fun block => block.set (j + 1) b) (some a))).map (fun mem =>
          { s with mgr := { s.mgr with mem } })
      else .ok s

/-! ## What is asked of it -/

/-- The block is of a class with room for the size. -/
def Fits (mem : Heap Bytes) (a : Nat) (n_size : Int) : Prop :=
  ∃ n, classAt mem a = .ok (some n) ∧ n_size ≤ nSize n

/-- The lock is released, the blocks that are out are apart from each other and from the free ones,
and each block is of its class. -/
structure Sound (s : Run) : Prop where
  released : s.mgr.p_lock.held = 0
  distinct : (s.live.map (·.1)).Nodup
  apart : ∀ e ∈ s.live, ∀ n, e.1 ∉ s.mgr.lst_mem n
  live : ∀ e ∈ s.live, Fits s.mgr.mem e.1 e.2
  free : ∀ n, ∀ a ∈ s.mgr.lst_mem n, classAt s.mgr.mem a = .ok (some n)

/-- `Realloc` of a block that is out gives a block that begins with what was in it. -/
def Kept (s : Run) : Op → Run → Prop
  | .realloc i _ _, s' => ∀ a, s.pData i = some a →
      ∃ a', s'.ret = some a' ∧ content s.mgr.mem a <+: content s'.mgr.mem a'
  | _, _ => True

/-- The first class with blocks of the size. -/
def classFor (n_size : Int) : Option Index := (List.finRange 12).find? (fun n => n_size ≤ nSize n)

/-- If there is a class for the size, it has a free block. A block that `Realloc` moves has such a
class. -/
def Served (s : Run) : Op → Prop
  | .malloc n_size _ => ∀ n ∈ classFor n_size, s.mgr.lst_mem n ≠ []
  | .realloc i n_new_size _ =>
    match s.pData i with
    | none => ∀ n ∈ classFor n_new_size, s.mgr.lst_mem n ≠ []
    | some a => Fits s.mgr.mem a n_new_size ∨ ∃ n ∈ classFor n_new_size, s.mgr.lst_mem n ≠ []
  | .free _ => True
  | .store _ _ _ => True

/-! ## The invariant -/

/-- A whole block of a class. -/
def Carries (mem : Heap Bytes) (n : Index) (a : Nat) : Prop :=
  ∃ rest, mem.lookup a = some (UInt8.ofNat n :: rest) ∧ rest.length = nSize n

/-- What holds of the pool beside the blocks that are out. -/
structure Inv (mgr : CAoMemoryMgr) (live : List (Nat × Int)) : Prop where
  released : mgr.p_lock.held = 0
  distinct : (live.map (·.1)).Nodup
  apart : ∀ e ∈ live, ∀ n, e.1 ∉ mgr.lst_mem n
  live : ∀ e ∈ live, ∃ n, Carries mgr.mem n e.1 ∧ e.2 ≤ nSize n
  free : ∀ n, ∀ a ∈ mgr.lst_mem n, Carries mgr.mem n a
  free_distinct : ∀ n, (mgr.lst_mem n).Nodup

variable {mgr mgr' : CAoMemoryMgr} {mem mem' : Heap Bytes} {live l r : List (Nat × Int)}
  {s s' : Run} {n n' c : Index} {a a' : Nat}
  {k k' : Int} {p : Ptr} {got : Got}

theorem indexOf_schar : ∀ n : Index, indexOf (schar (UInt8.ofNat n)) = some n := by decide

theorem classAt_carries (h : Carries mem n a) : classAt mem a = .ok (some n) := by
  obtain ⟨rest, hlookup, _⟩ := h
  unfold classAt
  rw [read_some hlookup]
  exact congrArg Except.ok (indexOf_schar n)

theorem Carries.unique (h : Carries mem n a) (h' : Carries mem n' a) : n = n' := by
  have hclass := classAt_carries h
  rw [classAt_carries h'] at hclass
  cases hclass
  rfl

theorem fits_iff (h : Carries mem n a) : Fits mem a k ↔ k ≤ nSize n := by
  constructor
  · rintro ⟨n', hclass, hle⟩
    rw [classAt_carries h] at hclass
    cases hclass
    exact hle
  · intro hle
    exact ⟨n, classAt_carries h, hle⟩

theorem Inv.sound (h : Inv s.mgr s.live) : Sound s where
  released := h.released
  distinct := h.distinct
  apart := h.apart
  live := by
    intro e he
    obtain ⟨n, hn, hle⟩ := h.live e he
    exact (fits_iff hn).mpr hle
  free := fun n a ha => classAt_carries (h.free n a ha)

theorem Inv.perm (h : Inv mgr l) (hperm : l.Perm r) : Inv mgr r where
  released := h.released
  distinct := (hperm.map _).nodup_iff.mp h.distinct
  apart := fun e he => h.apart e (hperm.mem_iff.mpr he)
  live := fun e he => h.live e (hperm.mem_iff.mpr he)
  free := h.free
  free_distinct := h.free_distinct

theorem Inv.write (h : Inv mgr live) (hmem : ∀ n a, Carries mgr.mem n a → Carries mem n a) :
    Inv { mgr with mem } live where
  released := h.released
  distinct := h.distinct
  apart := h.apart
  live := fun e he => (h.live e he).imp (fun n hn => hn.imp_left (hmem n e.1))
  free := fun n a ha => hmem n a (h.free n a ha)
  free_distinct := h.free_distinct

theorem Carries.insert {b : UInt8} {rest rest' : Bytes} (ha : mem.lookup a = some (b :: rest))
    (hlen : rest'.length = rest.length) (h : Carries mem n a') :
    Carries (mem.insert a (b :: rest')) n a' := by
  obtain ⟨old, hlookup, hold⟩ := h
  unfold Carries
  rw [find_insert]
  by_cases he : a' = a
  · rw [he, ha] at hlookup
    cases hlookup
    exact ⟨rest', if_pos he, hlen.trans hold⟩
  · exact ⟨old, (if_neg he).trans hlookup, hold⟩

/-! ## The calls -/

/-- A lock that nothing holds is as before behind the two calls. -/
theorem lock_released {lock : CAoLock} (h : lock.held = 0) :
    ∃ lock', lock.lock = .ok lock' ∧ lock'.held = 1 ∧ lock'.unlock = lock := by
  obtain ⟨kind, held⟩ := lock
  cases h
  exact ⟨⟨kind, 1⟩, if_neg (fun hwaits => absurd hwaits.2 (Nat.lt_irrefl 0)), rfl, rfl⟩

theorem mallocFrom_eq (ns : List Index) : mgr.mallocFrom k got ns =
    match ns.find? (fun n => k ≤ nSize n) with
    | none => .ok (none, mgr)
    | some n => mgr.mallocIn n got := by
  induction ns with
  | nil => rfl
  | cons n ns ih =>
    unfold CAoMemoryMgr.mallocFrom
    by_cases hk : k > nSize n
    · rw [if_pos hk, List.find?_cons_of_neg (by simpa using hk), ih]
    · rw [if_neg hk, List.find?_cons_of_pos (by simpa using hk)]

theorem malloc_none (h : classFor k = none) : mgr.malloc k got = .ok (none, mgr) := by
  unfold classFor at h
  rw [CAoMemoryMgr.malloc, mallocFrom_eq, h]

theorem malloc_class (h : classFor k = some n) : mgr.malloc k got = mgr.mallocIn n got := by
  unfold classFor at h
  rw [CAoMemoryMgr.malloc, mallocFrom_eq, h]

theorem classFor_fits (h : classFor k = some n) : k ≤ nSize n := by
  simpa using List.find?_some h

theorem mallocIn_takes (hheld : mgr.p_lock.held = 0) {rest : List Nat}
    (hfree : mgr.lst_mem n = a :: rest) :
    mgr.mallocIn n got =
      .ok (some a, { mgr with lst_mem := Function.update mgr.lst_mem n rest }) := by
  obtain ⟨lock, hlock, _, hunlock⟩ := lock_released hheld
  unfold CAoMemoryMgr.mallocIn
  rw [hlock, hfree]
  simp only [bind, Except.bind, hunlock]
  rfl

/-- A block that goes out of the free list of its class is apart from what is left. -/
theorem Inv.takes (h : Inv mgr live) {rest : List Nat} (hfree : mgr.lst_mem n = a :: rest)
    (hk : k ≤ nSize n) :
    Inv { mgr with lst_mem := Function.update mgr.lst_mem n rest } ((a, k) :: live) := by
  have ha : a ∈ mgr.lst_mem n := by
    rw [hfree]
    exact List.mem_cons_self
  have hnodup := h.free_distinct n
  rw [hfree, List.nodup_cons] at hnodup
  have hsub : ∀ n' a', a' ∈ Function.update mgr.lst_mem n rest n' → a' ∈ mgr.lst_mem n' := by
    intro n' a' hmem
    rw [Function.update_apply] at hmem
    split at hmem
    · rename_i he
      rw [he, hfree]
      exact List.mem_cons_of_mem a hmem
    · exact hmem
  have hgone : ∀ n', a ∉ Function.update mgr.lst_mem n rest n' := by
    intro n' hmem
    obtain rfl := (h.free n' a (hsub n' a hmem)).unique (h.free n a ha)
    rw [Function.update_self] at hmem
    exact hnodup.1 hmem
  have hnot : a ∉ live.map (·.1) := by
    intro hin
    obtain ⟨e, he, rfl⟩ := List.mem_map.mp hin
    exact h.apart e he n ha
  refine ⟨h.released, List.nodup_cons.mpr ⟨hnot, h.distinct⟩, ?_, ?_, fun n' a' hmem =>
    h.free n' a' (hsub n' a' hmem),
    fun n' => ?_⟩
  · exact List.forall_mem_cons.mpr ⟨hgone, fun e he n' hmem => h.apart e he n' (hsub n' e.1 hmem)⟩
  · exact List.forall_mem_cons.mpr ⟨⟨n, h.free n a ha, hk⟩, h.live⟩
  · simp only [Function.update_apply]
    split
    · exact hnodup.2
    · exact h.free_distinct n'

/-- `Malloc` of a size with a class that has a free block. -/
theorem malloc_takes (h : Inv mgr live) (hc : classFor k = some n)
    (hfree : mgr.lst_mem n ≠ []) (got : Got) :
    ∃ a mgr', mgr.malloc k got = .ok (some a, mgr') ∧ mgr'.mem = mgr.mem ∧ Carries mgr.mem n a ∧
      Inv mgr' (live ++ [(a, k)]) := by
  obtain ⟨a, rest, hcons⟩ := List.exists_cons_of_ne_nil hfree
  refine ⟨a, _, (malloc_class hc).trans (mallocIn_takes h.released hcons), rfl, h.free n a ?_,
    (h.takes hcons (classFor_fits hc)).perm (List.perm_append_singleton (a, k) live).symm⟩
  rw [hcons]
  exact List.mem_cons_self

/-- What a copy does: the block begins with what is in the other one, and no block changes its
class. -/
theorem memcpy_keeps (ha : Carries mem n a) (ha' : Carries mem n' a') (hle : nSize n ≤ nSize n') :
    ∃ mem', memcpy mem (some a') a (nSize n) = .ok mem' ∧
      (∀ c x, Carries mem c x → Carries mem' c x) ∧
      content mem a <+: content mem' a' := by
  obtain ⟨rest, hfrom, hlen⟩ := ha
  obtain ⟨rest', hto, hlen'⟩ := ha'
  refine ⟨mem.insert a' (UInt8.ofNat n' :: (rest ++ rest'.drop (nSize n))), ?_,
    fun c x => Carries.insert hto ?_, ?_⟩
  · unfold memcpy
    simp only [bind, Except.bind, read_some hfrom, read_some hto]
    rw [if_neg (by simp only [List.length_cons]; omega), ← hlen]
    simp [pure, Except.pure]
  · rw [List.length_append, List.length_drop]
    omega
  · unfold content
    rw [hfrom, AList.lookup_insert]
    exact List.prefix_append rest _

/-- `Free` of a block that is out puts it behind the free ones of its class. -/
theorem free_returns (h : Inv mgr ((a, k) :: live)) :
    ∃ mgr', mgr.free (some a) = .ok mgr' ∧ mgr'.mem = mgr.mem ∧ Inv mgr' live := by
  obtain ⟨lock, hlock, _, hunlock⟩ := lock_released h.released
  obtain ⟨n, hn, _⟩ := h.live (a, k) List.mem_cons_self
  have hout := h.apart (a, k) List.mem_cons_self
  obtain ⟨hnot, hdistinct⟩ := List.nodup_cons.mp h.distinct
  have hmem : ∀ n' a', a' ∈ Function.update mgr.lst_mem n (mgr.lst_mem n ++ [a]) n' ↔
      a' ∈ mgr.lst_mem n' ∨ n' = n ∧ a' = a := by
    intro n' a'
    rw [Function.update_apply]
    split
    · rename_i he
      simp [he]
    · rename_i hne
      simp [hne]
  refine ⟨{ mgr with lst_mem := Function.update mgr.lst_mem n (mgr.lst_mem n ++ [a]) }, ?_, rfl,
    h.released, hdistinct,
    ?_, fun e he => h.live e (List.mem_cons_of_mem _ he), ?_, fun n' => ?_⟩
  · simp only [CAoMemoryMgr.free, orFault, classAt_carries hn, Except.mapError, bind, Except.bind,
      hlock, hunlock]
    rfl
  · intro e he n' hin
    rcases (hmem n' e.1).mp hin with hin | ⟨_, heq⟩
    · exact h.apart e (List.mem_cons_of_mem _ he) n' hin
    · exact hnot (List.mem_map.mpr ⟨e, he, heq⟩)
  · intro n' a' hin
    rcases (hmem n' a').mp hin with hin | ⟨rfl, rfl⟩
    · exact h.free n' a' hin
    · exact hn
  · simp only [Function.update_apply]
    split
    · rw [List.nodup_append]
      refine ⟨h.free_distinct n, List.nodup_singleton a, ?_⟩
      rintro x hx y hy rfl
      exact hout n (List.mem_singleton.mp hy ▸ hx)
    · exact h.free_distinct n'

theorem pData_some {i : Nat} (h : s.pData i = some a) :
    ∃ k, s.live[i]? = some (a, k) ∧ s.live.Perm ((a, k) :: s.live.eraseIdx i) := by
  obtain ⟨⟨a', k⟩, he, rfl⟩ := Option.map_eq_some_iff.mp h
  obtain ⟨hi, he'⟩ := List.getElem?_eq_some_iff.mp he
  refine ⟨k, he, ?_⟩
  rw [← he']
  exact (List.getElem_cons_eraseIdx_perm hi).symm

theorem pData_none {i : Nat} (h : s.pData i = none) :
    s.live[i]? = none ∧ s.live.eraseIdx i = s.live := by
  have hnone := Option.map_eq_none_iff.mp h
  exact ⟨hnone, List.eraseIdx_of_length_le (List.getElem?_eq_none_iff.mp hnone)⟩

theorem malloc_served (h : Inv mgr live) (hserved : ∀ n ∈ classFor k, mgr.lst_mem n ≠ [])
    (got : Got) :
    ∃ p mgr', mgr.malloc k got = .ok (p, mgr') ∧ Inv mgr' (live ++ given p k) := by
  cases hc : classFor k with
  | none =>
    refine ⟨none, mgr, malloc_none hc, ?_⟩
    rw [given, Option.map_none, Option.toList_none, List.append_nil]
    exact h
  | some n =>
    obtain ⟨a, mgr', hmalloc, _, _, hinv⟩ := malloc_takes h hc (hserved n hc) got
    exact ⟨some a, mgr', hmalloc, hinv⟩

theorem Inv.resize (h : Inv mgr ((a, k') :: live)) (hfits : Fits mgr.mem a k) :
    Inv mgr ((a, k) :: live) where
  released := h.released
  distinct := h.distinct
  apart := by
    have hapart := List.forall_mem_cons.mp h.apart
    exact List.forall_mem_cons.mpr hapart
  live := by
    obtain ⟨⟨n, hn, _⟩, hlive⟩ := List.forall_mem_cons.mp h.live
    exact List.forall_mem_cons.mpr ⟨⟨n, hn, (fits_iff hn).mp hfits⟩, hlive⟩
  free := h.free
  free_distinct := h.free_distinct

theorem realloc_fits (hfits : Fits mgr.mem a k) :
    mgr.realloc (some a) k got = .ok (some a, mgr) := by
  obtain ⟨n, hclass, hle⟩ := hfits
  simp only [CAoMemoryMgr.realloc, orFault, hclass, Except.mapError, bind, Except.bind]
  rw [if_pos hle]
  rfl

theorem realloc_unfit (hn : Carries mgr.mem n a) (hunfit : ¬ k ≤ nSize n) :
    mgr.realloc (some a) k got = (do
    let (p_data1, mgr) ← mgr.malloc k got
    let mem ← orFault (memcpy mgr.mem p_data1 a (nSize n))
    let mgr ← { mgr with mem }.free (some a)
    pure (p_data1, mgr)) := by
  have hread : orFault (classAt mgr.mem a) = .ok (some n) := by
    rw [orFault, classAt_carries hn]
    rfl
  simp only [CAoMemoryMgr.realloc, hread]
  exact if_neg hunfit

theorem realloc_moves (h : Inv mgr ((a, k') :: live)) (hunfit : ¬ Fits mgr.mem a k)
    (hc : classFor k = some c) (hfree : mgr.lst_mem c ≠ []) (got : Got) :
    ∃ a' mgr', mgr.realloc (some a) k got = .ok (some a', mgr') ∧
      content mgr.mem a <+: content mgr'.mem a' ∧ Inv mgr' (live ++ [(a', k)]) := by
  obtain ⟨n, hn, _⟩ := h.live (a, k') List.mem_cons_self
  have hlarger : nSize n ≤ nSize c := by
    have hk := classFor_fits hc
    have hnot := mt (fits_iff hn).mpr hunfit
    omega
  obtain ⟨a', mgr₁, hmalloc, hmem₁, hc', hinv₁⟩ := malloc_takes h hc hfree got
  rw [← hmem₁] at hn hc'
  obtain ⟨mem₂, hmemcpy, hcarries, hprefix⟩ := memcpy_keeps hn hc' hlarger
  obtain ⟨mgr₃, hfree₃, hmem₃, hinv₃⟩ := free_returns (hinv₁.write hcarries)
  refine ⟨a', mgr₃, ?_, ?_, hinv₃⟩
  · rw [realloc_unfit (hmem₁ ▸ hn) (mt (fits_iff (hmem₁ ▸ hn)).mpr hunfit), hmalloc]
    simp only [bind, Except.bind, hmemcpy, orFault, Except.mapError, hfree₃]
    rfl
  · rw [← hmem₁, hmem₃]
    exact hprefix

theorem realloc_served (h : Inv mgr ((a, k') :: live))
    (hserved : Fits mgr.mem a k ∨ ∃ n ∈ classFor k, mgr.lst_mem n ≠ []) (got : Got) :
    ∃ a' mgr', mgr.realloc (some a) k got = .ok (some a', mgr') ∧
      content mgr.mem a <+: content mgr'.mem a' ∧
      Inv mgr' (live ++ [(a', k)]) := by
  by_cases hfits : Fits mgr.mem a k
  · exact ⟨a, mgr, realloc_fits hfits, List.prefix_rfl,
      (h.resize hfits).perm (List.perm_append_singleton (a, k) live).symm⟩
  · obtain ⟨c, hc, hfree⟩ := hserved.resolve_left hfits
    exact realloc_moves h hfits hc hfree got

/-! ## The steps -/

/-- What the program writes lies behind the class byte. -/
theorem store_inv (h : Inv s.mgr s.live) (i j : Nat) (b : UInt8) :
    ∃ s', step s (.store i j b) = .ok s' ∧ Inv s'.mgr s'.live := by
  cases he : s.live[i]? with
  | none => exact ⟨s, by simp only [step, he], h⟩
  | some e =>
    obtain ⟨a, k⟩ := e
    by_cases hj : (j : Int) < k
    · obtain ⟨n, ⟨rest, hlookup, _⟩, _⟩ := h.live (a, k) (List.mem_of_getElem? he)
      have hmodify : modify s.mgr.mem (fun block => block.set (j + 1) b) (some a) =
          .ok (s.mgr.mem.insert a (UInt8.ofNat n :: rest.set j b)) := modify_some hlookup
      have hstep : step s (.store i j b) =
          .ok { s with
            mgr := { s.mgr with mem := s.mgr.mem.insert a (UInt8.ofNat n :: rest.set j b) } } := by
        simp only [step, he, hj, if_true, hmodify, orFault, Except.mapError, Except.map]
      exact ⟨_, hstep, h.write (fun c x => Carries.insert hlookup List.length_set)⟩
    · exact ⟨s, by simp only [step, he, hj, if_false], h⟩

/-- A call that is served comes back, keeps what a block holds and keeps the invariant. -/
theorem step_served (h : Inv s.mgr s.live) {op : Op} (hserved : Served s op) :
    ∃ s', step s op = .ok s' ∧ Kept s op s' ∧ Inv s'.mgr s'.live := by
  cases op with
  | malloc k got =>
    obtain ⟨p, mgr', hmalloc, hinv⟩ := malloc_served h hserved got
    exact ⟨⟨mgr', s.live ++ given p k, p⟩, by rw [step, hmalloc]; rfl, trivial, hinv⟩
  | free i =>
    cases hp : s.pData i with
    | none =>
      refine ⟨⟨s.mgr, s.live.eraseIdx i, none⟩, by rw [step, hp]; rfl, trivial, ?_⟩
      rw [(pData_none hp).2]
      exact h
    | some a =>
      obtain ⟨k, _, hperm⟩ := pData_some hp
      obtain ⟨mgr', hfree, _, hinv⟩ := free_returns (h.perm hperm)
      exact ⟨⟨mgr', s.live.eraseIdx i, none⟩, by rw [step, hp, hfree]; rfl, trivial, hinv⟩
  | realloc i k got =>
    cases hp : s.pData i with
    | none =>
      simp only [Served, hp] at hserved
      obtain ⟨p, mgr', hmalloc, hinv⟩ := malloc_served h hserved got
      have hrealloc : s.mgr.realloc (s.pData i) k got = .ok (p, mgr') := by
        rw [hp]
        exact hmalloc
      refine ⟨⟨mgr', if p = none then s.live else s.live.eraseIdx i ++ given p k, p⟩, by
        rw [step, hrealloc]; rfl, ?_, ?_⟩
      · intro a ha
        rw [hp] at ha
        cases ha
      · cases p with
        | none => simpa [given] using hinv
        | some a => simpa [(pData_none hp).2] using hinv
    | some a =>
      simp only [Served, hp] at hserved
      obtain ⟨k', _, hperm⟩ := pData_some hp
      obtain ⟨a', mgr', hrealloc, hprefix, hinv⟩ := realloc_served (h.perm hperm) hserved got
      refine ⟨⟨mgr', s.live.eraseIdx i ++ [(a', k)], some a'⟩, by
        rw [step, hp, hrealloc]; rfl, ?_, hinv⟩
      intro x hx
      rw [hp] at hx
      cases hx
      exact ⟨a', rfl, hprefix⟩
  | store i j b =>
    obtain ⟨s', hstep, hinv⟩ := store_inv h i j b
    exact ⟨s', hstep, trivial, hinv⟩

theorem mallocIn_empty (hheld : mgr.p_lock.held = 0) (hempty : mgr.lst_mem n = [])
    (h : mgr.mallocIn n got = .ok (p, mgr')) : mgr'.p_lock.held = 1 := by
  obtain ⟨lock, hlock, hone, _⟩ := lock_released hheld
  unfold CAoMemoryMgr.mallocIn at h
  rw [hlock, hempty] at h
  cases got with
  | none => cases h
  | some at_junk =>
    cases h
    exact hone

theorem free_held (h : mgr.free p = .ok mgr') : mgr'.p_lock.held = mgr.p_lock.held := by
  cases p with
  | none =>
    cases h
    rfl
  | some a =>
    obtain ⟨n_index, _, h⟩ := bind_ok h
    cases n_index with
    | none =>
      cases h
      rfl
    | some n =>
      obtain ⟨lock, hlock, h⟩ := bind_ok h
      cases h
      unfold CAoLock.lock at hlock
      split at hlock
      · cases hlock
      · cases hlock
        exact Nat.add_sub_cancel _ _

theorem malloc_unserved (hheld : mgr.p_lock.held = 0)
    (hnot : ¬ ∀ n ∈ classFor k, mgr.lst_mem n ≠ []) (h : mgr.malloc k got = .ok (p, mgr')) :
    mgr'.p_lock.held = 1 := by
  simp only [not_forall, Classical.not_not] at hnot
  obtain ⟨n, hc, hempty⟩ := hnot
  rw [malloc_class hc] at h
  exact mallocIn_empty hheld hempty h

theorem realloc_unserved (h : Inv mgr ((a, k') :: live)) (hunfit : ¬ Fits mgr.mem a k)
    (hnot : ¬ ∃ n ∈ classFor k, mgr.lst_mem n ≠ [])
    (hrealloc : mgr.realloc (some a) k got = .ok (p, mgr')) :
    mgr'.p_lock.held = 1 := by
  obtain ⟨n, hn, _⟩ := h.live (a, k') List.mem_cons_self
  rw [realloc_unfit hn (mt (fits_iff hn).mpr hunfit)] at hrealloc
  obtain ⟨⟨p₁, mgr₁⟩, hmalloc, hrealloc⟩ := bind_ok hrealloc
  obtain ⟨mem, hmemcpy, hrealloc⟩ := bind_ok hrealloc
  obtain ⟨mgr₂, hfree, hrealloc⟩ := bind_ok hrealloc
  cases hrealloc
  cases hc : classFor k with
  | none =>
    -- no class is large enough, and the copy goes to NULL
    rw [malloc_none hc] at hmalloc
    cases hmalloc
    cases hmemcpy
  | some c =>
    have hempty : mgr.lst_mem c = [] := by
      by_contra hfree
      exact hnot ⟨c, hc, hfree⟩
    rw [malloc_class hc] at hmalloc
    have hone : mgr₁.p_lock.held = 1 := mallocIn_empty h.released hempty hmalloc
    exact (free_held hfree).trans hone

/-- A call that is not served leaves the lock held, if it comes back. -/
theorem step_unserved (h : Inv s.mgr s.live) {op : Op} (hnot : ¬ Served s op)
    (hstep : step s op = .ok s') :
    s'.mgr.p_lock.held = 1 := by
  cases op with
  | malloc k got =>
    obtain ⟨⟨p, mgr'⟩, hmalloc, rfl⟩ := map_ok hstep
    exact malloc_unserved h.released hnot hmalloc
  | realloc i k got =>
    obtain ⟨⟨p, mgr'⟩, hrealloc, rfl⟩ := map_ok hstep
    cases hp : s.pData i with
    | none =>
      simp only [Served, hp] at hnot
      rw [hp] at hrealloc
      exact malloc_unserved h.released hnot hrealloc
    | some a =>
      simp only [Served, hp, not_or] at hnot
      obtain ⟨k', _, hperm⟩ := pData_some hp
      rw [hp] at hrealloc
      exact realloc_unserved (h.perm hperm) hnot.1 hnot.2 hrealloc
  | free i => exact absurd trivial hnot
  | store i j b => exact absurd trivial hnot

/-! ## The constructor -/

theorem addBlocks_lst_mem (place : Placement) (ms : List Nat) :
    (ms.foldl (fun mgr m => mgr.addBlock n (place.addr n m)) mgr).lst_mem c =
      if c = n then mgr.lst_mem c ++ ms.map (place.addr n) else mgr.lst_mem c := by
  induction ms generalizing mgr with
  | nil => simp
  | cons m ms ih =>
    rw [List.foldl_cons, ih, CAoMemoryMgr.addBlock, List.map_cons]
    dsimp only
    rw [Function.update_apply]
    split
    · rename_i he
      rw [he, List.append_assoc]
      rfl
    · rfl

theorem addBlocks_lookup (place : Placement) (ms : List Nat) :
    (ms.foldl (fun mgr m => mgr.addBlock n (place.addr n m)) mgr).mem.lookup a =
      if a ∈ ms.map (place.addr n) then some (UInt8.ofNat n :: List.replicate (nSize n) 0)
      else mgr.mem.lookup a := by
  induction ms generalizing mgr with
  | nil => rfl
  | cons m ms ih =>
    rw [List.foldl_cons, ih, CAoMemoryMgr.addBlock, List.map_cons]
    dsimp only
    rw [find_insert, List.replicate_succ, List.set_cons_zero]
    by_cases hms : a ∈ ms.map (place.addr n)
    · rw [if_pos hms, if_pos (List.mem_cons_of_mem _ hms)]
    · rw [if_neg hms]
      simp only [List.mem_cons, hms, or_false]

theorem addBlocks_lock (place : Placement) (ms : List Nat) :
    (ms.foldl (fun mgr m => mgr.addBlock n (place.addr n m)) mgr).p_lock = mgr.p_lock := by
  induction ms generalizing mgr with
  | nil => rfl
  | cons m ms ih => exact ih

theorem addClasses_lst_mem (place : Placement) {ns : List Index} (hns : ns.Nodup) :
    (ns.foldl (CAoMemoryMgr.addClass place) mgr).lst_mem c =
      if c ∈ ns then
        mgr.lst_mem c ++ (List.range (nCount c)).map (place.addr c) else mgr.lst_mem c := by
  induction ns generalizing mgr with
  | nil => rfl
  | cons n ns ih =>
    obtain ⟨hnot, hns⟩ := List.nodup_cons.mp hns
    rw [List.foldl_cons, ih hns, CAoMemoryMgr.addClass, addBlocks_lst_mem]
    by_cases he : c = n
    · subst he
      rw [if_neg hnot, if_pos rfl, if_pos List.mem_cons_self]
    · simp only [List.mem_cons, he, false_or, if_false]

theorem addClasses_lookup (place : Placement) {ns : List Index} {m : Nat} (hm : m < nCount c) :
    (ns.foldl (CAoMemoryMgr.addClass place) mgr).mem.lookup (place.addr c m) =
      if c ∈ ns then some (UInt8.ofNat c :: List.replicate (nSize c) 0)
      else mgr.mem.lookup (place.addr c m) := by
  induction ns generalizing mgr with
  | nil => rfl
  | cons n ns ih =>
    rw [List.foldl_cons, ih, CAoMemoryMgr.addClass, addBlocks_lookup]
    by_cases he : c = n
    · subst he
      have hmem : place.addr c m ∈ (List.range (nCount c)).map (place.addr c) :=
        List.mem_map_of_mem (List.mem_range.mpr hm)
      rw [if_pos hmem, if_pos List.mem_cons_self, ite_self]
    · have hnot : place.addr c m ∉ (List.range (nCount n)).map (place.addr n) := by
        intro hin
        obtain ⟨m', _, heq⟩ := List.mem_map.mp hin
        exact he (place.apart n m' c m heq).1.symm
      rw [if_neg hnot]
      simp only [List.mem_cons, he, false_or]

theorem addClasses_lock (place : Placement) (ns : List Index) :
    (ns.foldl (CAoMemoryMgr.addClass place) mgr).p_lock = mgr.p_lock := by
  induction ns generalizing mgr with
  | nil => rfl
  | cons n ns ih =>
    rw [List.foldl_cons, ih, CAoMemoryMgr.addClass, addBlocks_lock]

theorem new_lst_mem (kind : LockKind) (place : Placement) (c : Index) :
    (CAoMemoryMgr.new kind place).lst_mem c = (List.range (nCount c)).map (place.addr c) := by
  rw [CAoMemoryMgr.new, addClasses_lst_mem place (List.nodup_finRange 12),
    if_pos (List.mem_finRange c), List.nil_append]

theorem inv_start (kind : LockKind) (place : Placement) :
    Inv (start kind place).mgr (start kind place).live where
  released := by rw [start, CAoMemoryMgr.new, addClasses_lock]
  distinct := List.nodup_nil
  apart := by simp [start]
  live := by simp [start]
  free := by
    intro n a ha
    rw [start, new_lst_mem] at ha
    obtain ⟨m, hm, rfl⟩ := List.mem_map.mp ha
    refine ⟨List.replicate (nSize n) 0, ?_, List.length_replicate⟩
    rw [start, CAoMemoryMgr.new, addClasses_lookup place (List.mem_range.mp hm),
      if_pos (List.mem_finRange n)]
  free_distinct := by
    intro n
    rw [start, new_lst_mem]
    exact List.nodup_range.map (fun m m' h => (place.apart n m n m' h).2)

/-! ## The laws -/

theorem Inv.keeps_iff (h : Inv s.mgr s.live) (ops : List Op) : Keeps step Sound Kept s ops ↔
    Along step Served s ops := by
  refine calls.keeps_iff (fun s hs => Inv.sound hs)
    (fun s op hs _ hserved => step_served hs hserved)
    (fun s op s' hs _ hnot hstep _ hsound => ?_) h (along_all (fun _ _ => trivial))
  have hone := step_unserved hs hnot hstep
  rw [hsound.released] at hone
  cases hone

/-- Calls of `Malloc` for one class are served while it has free blocks. -/
theorem mallocs_served_iff (h : Inv s.mgr s.live) (hc : classFor k = some n) (j : Nat) :
    Along step Served s (List.replicate j (.malloc k got)) ↔ j ≤ (s.mgr.lst_mem n).length := by
  induction j generalizing s with
  | zero => exact iff_of_true trivial (Nat.zero_le _)
  | succ j ih =>
    have hserved : Served s (.malloc k got) ↔ s.mgr.lst_mem n ≠ [] := by simp [Served, hc]
    rw [List.replicate_succ]
    cases hfree : s.mgr.lst_mem n with
    | nil =>
      refine iff_of_false (fun hall => hserved.mp hall.1 hfree) ?_
      exact Nat.not_succ_le_zero j
    | cons a rest =>
      have hinv :=
        (h.takes hfree (classFor_fits hc)).perm (List.perm_append_singleton (a, k) s.live).symm
      have hstep : step s (.malloc k got) =
          .ok ⟨{ s.mgr with lst_mem := Function.update s.mgr.lst_mem n rest },
              s.live ++ [(a, k)], some a⟩ := by
        rw [step, malloc_class hc, mallocIn_takes h.released hfree]
        rfl
      have hrest : Function.update s.mgr.lst_mem n rest n = rest :=
        Function.update_self n rest s.mgr.lst_mem
      rw [along_ok hstep, ih hinv, hserved, hfree, List.length_cons, Nat.add_le_add_iff_right]
      simp only [hrest]
      exact and_iff_right (List.cons_ne_nil a rest)

theorem classFor_nSize : ∀ n : Index, classFor (nSize n) = some n := by decide

theorem nSize_le : ∀ n : Index, nSize n ≤ 8388608 := by decide

/-- As many blocks of a class as the pool has, and one more, are too many. -/
theorem drained (kind : LockKind) (place : Placement) (n : Index) (got : Got) :
    ¬ Keeps step Sound Kept (start kind place)
      (List.replicate (nCount n + 1) (.malloc (nSize n) got)) := by
  rw [(inv_start kind place).keeps_iff,
    mallocs_served_iff (inv_start kind place) (classFor_nSize n), start, new_lst_mem,
    List.length_map, List.length_range]
  exact Nat.not_succ_le_self _

theorem nCount_pos : ∀ n : Index, 0 < nCount n := by decide

/-- A block cannot become larger than those of the last class. -/
theorem outgrown (kind : LockKind) (place : Placement) (n : Index) (hk : 8388608 < k)
    (got got' : Got) :
    ¬ Keeps step Sound Kept (start kind place) [.malloc (nSize n) got, .realloc 0 k got'] := by
  rw [(inv_start kind place).keeps_iff]
  intro hall
  have hfree : (start kind place).mgr.lst_mem n ≠ [] := by
    rw [start, new_lst_mem, List.map_eq_nil_iff.ne, List.range_eq_nil.ne]
    exact (nCount_pos n).ne'
  have hlarger : ∀ n, ¬ k ≤ nSize n := by
    intro n hle
    have hmax := nSize_le n
    omega
  obtain ⟨a, mgr, hmalloc, _⟩ := malloc_takes (inv_start kind place) (classFor_nSize n) hfree got
  have hstep : step (start kind place) (.malloc (nSize n) got) =
      .ok ⟨mgr, [(a, nSize n)], some a⟩ := by
    rw [step, hmalloc]
    rfl
  rcases ((along_ok hstep).mp hall).2.1 with ⟨c, _, hle⟩ | ⟨c, hc, _⟩
  · exact hlarger c hle
  · exact hlarger c (classFor_fits hc)

/-- In a run of calls each comes back with the lock released, the blocks that are out stay apart and
large enough, each free block keeps its class and `Realloc` keeps what a block holds, just while the
class that a call takes a block from has a free one and no block is moved to a size without a class:
`Malloc` does not unlock behind `malloc`, and `Realloc` copies to NULL. -/
theorem the_pool_stays_sound_just_while_it_has_blocks (kind : LockKind) (place : Placement)
    (ops : List Op) :
    Keeps step Sound Kept (start kind place) ops ↔ Along step Served (start kind place) ops :=
  (inv_start kind place).keeps_iff ops

/-- Blocks class by class, in turn. -/
def rows : Placement where
  addr := fun n m => 12 * m + n
  apart := by
    intro n m n' m' h
    have hn := n.isLt
    have hn' := n'.isLt
    exact ⟨Fin.ext (by omega), by omega⟩

/-- The seventeenth block of 8 MB comes from the system. And a block cannot grow behind 8 MB. -/
theorem a_call_too_many_keeps_the_lock :
    ¬ Keeps step Sound Kept (start .mutex rows)
      (List.replicate 17 (.malloc 8388608 (some (1000000, fun _ => 0)))) ∧
      ¬ Keeps step Sound Kept (start .mutex rows) [.malloc 512 none, .realloc 0 8388609 none] :=
  ⟨drained .mutex rows 11 _, outgrown .mutex rows 0 (by decide) none none⟩

end util.ao_memory_mgr
