-- The life of an accepted channel, apart from all others: asked for, built, told to every module,
-- in the list of a select group, read, left, deleted, told again. The accepting thread, the thread
-- of `CCommuModule` and a select group move it by turns. `Stage` says how far it can have come,
-- with what the queues of the modules hold of it then, and every move keeps that.
import Aods.Machine
import Mathlib.Logic.Function.Basic
import Mathlib.Data.List.Count

open machine

namespace util.channel_life

/-! ## The parts of a life -/

/-- What a queue holds of a channel. -/
inductive Kind where
  | builded
  | recv_data (data : Bytes)
  | freed
  deriving DecidableEq

/-- What a select group is doing with a channel: in `ReadData`, with the posts to come, or behind
`OnDel`, about to erase it from the list. -/
inductive Busy where
  | receiving (posts : List (Nat × Bytes))
  | leaving

/-- What the thread of `CCommuModule` is doing with a channel; the lists have the modules to
come. -/
inductive Task where
  | none
  | building (todo : List Nat)
  | appending
  | deleting (todo : List Nat)

structure Life where
  /-- It has been asked for by a NEW. -/
  used : Bool
  /-- The NEW and the DEL messages that wait for `CCommuModule`. -/
  news : Nat
  dels : Nat
  alive : Bool
  mapped : Bool
  /-- `CCommuModule` has processed a DEL for it. -/
  processed : Bool
  task : Task
  /-- How often it stands in the list of a group, and what the group is doing with it. -/
  places : Nat → Nat × Option Busy
  /-- What the queue of a module holds of it, in order. -/
  log : Nat → List Kind

/-- One more message to a module. -/
def Life.say (l : Life) (m : Nat) (k : Kind) : Nat → List Kind :=
  Function.update l.log m (l.log m ++ [k])

def Life.put (l : Life) (g : Nat) (n : Nat) (b : Option Busy) : Nat → Nat × Option Busy :=
  Function.update l.places g (n, b)

/-- What one step of any thread can do to a channel. `all` has the modules of a broadcast. -/
inductive Move (all : List Nat) (l : Life) : Life → Prop
  | stays : Move all l l
  | asked (first : l.used = false) : Move all l { l with used := true, news := l.news + 1 }
  | refused {n} (waits : l.news = n + 1) : Move all l { l with news := n }
  | created {n} (waits : l.news = n + 1) :
      Move all l { l with news := n, alive := true, mapped := true, task := .building all }
  | told {m todo} (doing : l.task = .building (m :: todo)) :
      Move all l { l with task := .building todo, log := l.say m .builded }
  | built (doing : l.task = .building []) : Move all l { l with task := .appending }
  | appended (g : Nat) (doing : l.task = .appending) :
      Move all l { l with task := .none, places := l.put g ((l.places g).1 + 1) (l.places g).2 }
  | full (doing : l.task = .appending) :
      Move all l { l with mapped := false, alive := false, task := .deleting all }
  | reads {g k posts} (here : l.places g = (k + 1, none)) (to_all : ∀ p ∈ posts, p.1 ∈ all) :
      Move all l { l with places := l.put g (k + 1) (some (.receiving posts)) }
  | posted {g k m d posts} (here : l.places g = (k + 1, some (.receiving ((m, d) :: posts)))) :
      Move all l { l with
        places := l.put g (k + 1) (some (.receiving posts)), log := l.say m (.recv_data d) }
  | read {g k} (here : l.places g = (k + 1, some (.receiving []))) :
      Move all l { l with places := l.put g (k + 1) none }
  | leaves {g k} (here : l.places g = (k + 1, none)) :
      Move all l { l with places := l.put g (k + 1) (some .leaving), dels := l.dels + 1 }
  | erased {g k} (here : l.places g = (k + 1, some .leaving)) : Move all l
      { l with places := l.put g k none }
  | ignored {n} (waits : l.dels = n + 1) : Move all l { l with dels := n }
  | missed {n} (waits : l.dels = n + 1) (absent : l.mapped = false) :
      Move all l { l with dels := n, processed := true }
  | deleted {n} (waits : l.dels = n + 1) (found : l.mapped = true) :
      Move all l { l with dels := n, alive := false, processed := true, task := .deleting all }
  | freed {m todo} (doing : l.task = .deleting (m :: todo)) :
      Move all l { l with task := .deleting todo, log := l.say m .freed }
  | gone (doing : l.task = .deleting []) : Move all l { l with task := .none, mapped := false }

/-! ## The stages -/

/-- What a queue holds: the news that the channel is there, what came over it, and that it is
gone. -/
def logOf (told : List Nat) (recvs : Nat → List Bytes) (freed : List Nat) (m : Nat) : List Kind :=
  List.replicate (told.count m) .builded ++ (recvs m).map .recv_data ++
    List.replicate (freed.count m) .freed

def nowhere : Nat → Nat × Option Busy := fun _ => (0, none)

/-- In the list of one group, once. -/
def at_group (g : Nat) (b : Option Busy) : Nat → Nat × Option Busy :=
  Function.update nowhere g (1, b)

/-- Behind `OnDel`: a group is about to erase it, or has done so. -/
def left : Option Nat → Nat → Nat × Option Busy
  | none => nowhere
  | some g => at_group g (some .leaving)

/-- What has come over a channel went to modules of the broadcast only. -/
def Within (all : List Nat) (recvs : Nat → List Bytes) : Prop := ∀ m, recvs m ≠ [] → m ∈ all

/-- A group that is not about to erase a channel has only such posts for it. -/
def Reads (all : List Nat) : Option Busy → Prop
  | none => True
  | some (.receiving posts) => ∀ p ∈ posts, p.1 ∈ all
  | some .leaving => False

/-- The modules that a deletion has still to tell. -/
def Task.to_free : Task → List Nat
  | .deleting todo => todo
  | _ => []

def unborn : Life := ⟨false, 0, 0, false, false, false, .none, nowhere, fun _ => []⟩

/-- How far a life can have come. -/
inductive Stage (all : List Nat) : Life → Prop
  | unasked : Stage all unborn
  | waiting : Stage all { unborn with used := true, news := 1 }
  | refused : Stage all { unborn with used := true }
  | building {told todo : List Nat} (split : told ++ todo = all) :
      Stage all
        ⟨true, 0, 0, true, true, false, .building todo, nowhere, logOf told (fun _ => []) []⟩
  | appending : Stage all
      ⟨true, 0, 0, true, true, false, .appending, nowhere, logOf all (fun _ => []) []⟩
  | listed {g : Nat} {b : Option Busy} {recvs : Nat → List Bytes} (reads : Reads all b)
      (within : Within all recvs) :
      Stage all ⟨true, 0, 0, true, true, false, .none, at_group g b, logOf all recvs []⟩
  -- The DEL waits, or has not passed the test of `OnDelChannel`.
  | leaving {p : Option Nat} {dels : Nat} {recvs : Nat → List Bytes} (once : dels ≤ 1)
      (within : Within all recvs) :
      Stage all ⟨true, 0, dels, true, true, false, .none, left p, logOf all recvs []⟩
  | deleting {p : Option Nat} {mapped processed : Bool} {recvs : Nat → List Bytes}
      {told todo : List Nat}
      (split : told ++ todo = all) (within : Within all recvs) :
      Stage all ⟨true, 0, 0, false, mapped, processed, .deleting todo, left p, logOf all recvs told⟩
  | dead {p : Option Nat} {processed : Bool} {recvs : Nat → List Bytes}
      (within : Within all recvs) :
      Stage all ⟨true, 0, 0, false, false, processed, .none, left p, logOf all recvs all⟩

/-! ## What a queue holds -/

theorem logOf_nil : logOf [] (fun _ => []) [] = fun _ => [] := by
  funext m
  simp [logOf]

/-- One more in the list is one more message for its own module. -/
theorem replicate_count_concat (ms : List Nat) (m m' : Nat) (k : Kind) :
    List.replicate ((ms ++ [m]).count m') k =
      if m' = m then List.replicate (ms.count m') k ++ [k] else List.replicate (ms.count m') k := by
  rw [List.count_append]
  split
  · rename_i h
    rw [h, List.count_singleton_self, List.replicate_succ']
  · rename_i h
    have hne : ¬ m = m' := fun he => h he.symm
    simp [hne]

theorem say_builded (told : List Nat) (m : Nat) :
    Function.update (logOf told (fun _ => []) []) m (logOf told (fun _ => []) [] m ++ [.builded]) =
      logOf (told ++ [m]) (fun _ => []) [] := by
  funext m'
  unfold logOf
  rw [replicate_count_concat]
  by_cases h : m' = m
  · subst h
    rw [Function.update_self, if_pos rfl]
    simp
  · rw [Function.update_of_ne h, if_neg h]

theorem say_recv_data (told : List Nat) (recvs : Nat → List Bytes) (m : Nat) (d : Bytes) :
    Function.update (logOf told recvs []) m (logOf told recvs [] m ++ [.recv_data d]) =
      logOf told (Function.update recvs m (recvs m ++ [d])) [] := by
  funext m'
  unfold logOf
  by_cases h : m' = m
  · subst h
    rw [Function.update_self, Function.update_self]
    simp
  · rw [Function.update_of_ne h, Function.update_of_ne h]

theorem say_freed (told : List Nat) (recvs : Nat → List Bytes) (freed : List Nat) (m : Nat) :
    Function.update (logOf told recvs freed) m (logOf told recvs freed m ++ [.freed]) =
      logOf told recvs (freed ++ [m]) := by
  funext m'
  unfold logOf
  rw [replicate_count_concat]
  by_cases h : m' = m
  · subst h
    rw [Function.update_self, if_pos rfl, List.append_assoc]
  · rw [Function.update_of_ne h, if_neg h]

theorem Within.update {all : List Nat} {recvs : Nat → List Bytes} (h : Within all recvs) {m : Nat}
    (hm : m ∈ all) (ds : List Bytes) : Within all (Function.update recvs m ds) := by
  intro m' hne
  by_cases he : m' = m
  · exact he ▸ hm
  · rw [Function.update_of_ne he] at hne
    exact h m' hne

/-! ## Where a channel stands -/

theorem at_group_iff {g g' k : Nat} {b b' : Option Busy} :
    at_group g b g' = (k + 1, b') ↔ g' = g ∧ k = 0 ∧ b = b' := by
  unfold at_group
  by_cases h : g' = g
  · subst h
    rw [Function.update_self, Prod.mk.injEq]
    constructor
    · rintro ⟨hk, hb⟩
      exact ⟨rfl, by omega, hb⟩
    · rintro ⟨_, rfl, rfl⟩
      exact ⟨rfl, rfl⟩
  · rw [Function.update_of_ne h]
    constructor
    · intro he
      cases he
    · intro he
      exact absurd he.1 h

theorem left_some {p : Option Nat} {g k : Nat} {b : Option Busy} (h : left p g = (k + 1, b)) :
    p = some g ∧ k = 0 ∧ b = some .leaving := by
  cases p with
  | none => cases h
  | some g' =>
    obtain ⟨rfl, hk, hb⟩ := at_group_iff.mp h
    exact ⟨rfl, hk, hb.symm⟩

theorem put_at_group (g : Nat) (b : Option Busy) (x : Nat × Option Busy) :
    Function.update (at_group g b) g x = Function.update nowhere g x := by
  unfold at_group
  rw [Function.update_idem]

theorem put_nowhere (g : Nat) : Function.update nowhere g (0, none) = nowhere :=
  Function.update_eq_self g nowhere

variable {all : List Nat} {l l' : Life}

/-- In a list and not about to be erased, a channel is alive, and nobody has deleted it. -/
theorem Stage.of_listed {g k : Nat} {b : Option Busy} (hs : Stage all l)
    (h : l.places g = (k + 1, b)) (hb : b ≠ some .leaving) :
    ∃ recvs, k = 0 ∧ Reads all b ∧ Within all recvs ∧
      l = ⟨true, 0, 0, true, true, false, .none, at_group g b, logOf all recvs []⟩ := by
  cases hs with
  | unasked => cases h
  | waiting => cases h
  | refused => cases h
  | building => cases h
  | appending => cases h
  | listed reads within =>
    obtain ⟨rfl, hk, rfl⟩ := at_group_iff.mp h
    exact ⟨_, hk, reads, within, rfl⟩
  | leaving => exact absurd (left_some h).2.2 hb
  | deleting => exact absurd (left_some h).2.2 hb
  | dead => exact absurd (left_some h).2.2 hb

/-- A channel that a group is about to erase is at the same stage behind the erasure. -/
theorem Stage.of_left {g k : Nat} (hs : Stage all l) (h : l.places g = (k + 1, some .leaving)) :
    k = 0 ∧ l.places = at_group g (some .leaving) ∧ Stage all { l with places := nowhere } := by
  cases hs with
  | unasked => cases h
  | waiting => cases h
  | refused => cases h
  | building => cases h
  | appending => cases h
  | listed reads _ =>
    obtain ⟨_, _, rfl⟩ := at_group_iff.mp h
    exact reads.elim
  | leaving once within =>
    obtain ⟨rfl, hk, _⟩ := left_some h
    exact ⟨hk, rfl, .leaving (p := none) once within⟩
  | deleting split within =>
    obtain ⟨rfl, hk, _⟩ := left_some h
    exact ⟨hk, rfl, .deleting (p := none) split within⟩
  | dead within =>
    obtain ⟨rfl, hk, _⟩ := left_some h
    exact ⟨hk, rfl, .dead (p := none) within⟩

/-! ## Every move keeps the stage -/

theorem Stage.asked (hs : Stage all l) (h : l.used = false) :
    Stage all { l with used := true, news := l.news + 1 } := by
  cases hs with
  | unasked => exact .waiting
  | _ => cases h

theorem Stage.refused_new {n : Nat} (hs : Stage all l) (h : l.news = n + 1) :
    Stage all { l with news := n } := by
  cases hs with
  | waiting =>
    cases h
    exact .refused
  | _ => cases h

theorem Stage.created {n : Nat} (hs : Stage all l) (h : l.news = n + 1) :
    Stage all { l with news := n, alive := true, mapped := true, task := .building all } := by
  cases hs with
  | waiting =>
    cases h
    have hnew : Stage all
        ⟨true, 0, 0, true, true, false, .building all, nowhere, logOf [] (fun _ => []) []⟩ :=
      .building rfl
    rw [logOf_nil] at hnew
    exact hnew
  | _ => cases h

theorem Stage.told {m : Nat} {todo : List Nat} (hs : Stage all l)
    (h : l.task = .building (m :: todo)) :
    Stage all { l with task := .building todo, log := l.say m .builded } := by
  cases hs with
  | building split =>
    cases h
    unfold Life.say
    rw [say_builded]
    exact .building (by simpa using split)
  | _ => cases h

theorem Stage.built (hs : Stage all l) (h : l.task = .building []) :
    Stage all { l with task := .appending } := by
  cases hs with
  | building split =>
    cases h
    rw [List.append_nil] at split
    subst split
    exact .appending
  | _ => cases h

theorem Stage.appended (g : Nat) (hs : Stage all l) (h : l.task = .appending) :
    Stage all { l with task := .none, places := l.put g ((l.places g).1 + 1) (l.places g).2 } := by
  cases hs with
  | appending =>
    have hnone : Within all (fun _ => []) := fun m hm => absurd rfl hm
    exact .listed (b := none) trivial hnone
  | _ => cases h

theorem Stage.full (hs : Stage all l) (h : l.task = .appending) :
    Stage all { l with mapped := false, alive := false, task := .deleting all } := by
  cases hs with
  | appending =>
    have hnone : Within all (fun _ => []) := fun m hm => absurd rfl hm
    exact .deleting (p := none) rfl hnone
  | _ => cases h

theorem Stage.reads {g k : Nat} {posts : List (Nat × Bytes)} (hs : Stage all l)
    (h : l.places g = (k + 1, none)) (to_all : ∀ p ∈ posts, p.1 ∈ all) :
    Stage all { l with places := l.put g (k + 1) (some (.receiving posts)) } := by
  obtain ⟨recvs, rfl, _, within, rfl⟩ := hs.of_listed h (by simp)
  unfold Life.put
  rw [put_at_group]
  exact .listed (b := some (.receiving posts)) to_all within

theorem Stage.posted {g k m : Nat} {d : Bytes} {posts : List (Nat × Bytes)} (hs : Stage all l)
    (h : l.places g = (k + 1, some (.receiving ((m, d) :: posts)))) :
    Stage all { l with
      places := l.put g (k + 1) (some (.receiving posts)), log := l.say m (.recv_data d) } := by
  obtain ⟨recvs, rfl, reads, within, rfl⟩ := hs.of_listed h (by simp)
  have hm : m ∈ all := reads (m, d) List.mem_cons_self
  have hrest : Reads all (some (.receiving posts)) :=
    fun p hp => reads p (List.mem_cons_of_mem _ hp)
  unfold Life.put Life.say
  rw [put_at_group, say_recv_data]
  exact .listed hrest (within.update hm _)

theorem Stage.read {g k : Nat} (hs : Stage all l) (h : l.places g = (k + 1, some (.receiving []))) :
    Stage all { l with places := l.put g (k + 1) none } := by
  obtain ⟨recvs, rfl, _, within, rfl⟩ := hs.of_listed h (by simp)
  unfold Life.put
  rw [put_at_group]
  exact .listed (b := none) trivial within

theorem Stage.leaves {g k : Nat} (hs : Stage all l) (h : l.places g = (k + 1, none)) :
    Stage all { l with places := l.put g (k + 1) (some .leaving), dels := l.dels + 1 } := by
  obtain ⟨recvs, rfl, _, within, rfl⟩ := hs.of_listed h (by simp)
  unfold Life.put
  rw [put_at_group]
  exact .leaving (p := some g) (Nat.le_refl 1) within

theorem Stage.erased {g k : Nat} (hs : Stage all l) (h : l.places g = (k + 1, some .leaving)) :
    Stage all { l with places := l.put g k none } := by
  obtain ⟨rfl, hplaces, hnext⟩ := hs.of_left h
  unfold Life.put
  rw [hplaces, put_at_group, put_nowhere]
  exact hnext

theorem Stage.ignored {n : Nat} (hs : Stage all l) (h : l.dels = n + 1) :
    Stage all { l with dels := n } := by
  cases hs with
  | leaving once within =>
    have hn : n + 1 ≤ 1 := Nat.le_trans (Nat.le_of_eq h.symm) once
    exact .leaving (by omega) within
  | _ => cases h

theorem Stage.mapped_of_dels {n : Nat} (hs : Stage all l) (h : l.dels = n + 1) :
    l.mapped = true := by
  cases hs with
  | leaving => rfl
  | _ => cases h

theorem Stage.deleted {n : Nat} (hs : Stage all l) (h : l.dels = n + 1) :
    Stage all { l with dels := n, alive := false, processed := true, task := .deleting all } := by
  cases hs with
  | leaving once within =>
    have hn : n + 1 ≤ 1 := Nat.le_trans (Nat.le_of_eq h.symm) once
    obtain rfl : n = 0 := by omega
    exact .deleting rfl within
  | _ => cases h

theorem Stage.freed {m : Nat} {todo : List Nat} (hs : Stage all l)
    (h : l.task = .deleting (m :: todo)) :
    Stage all { l with task := .deleting todo, log := l.say m .freed } := by
  cases hs with
  | deleting split within =>
    cases h
    unfold Life.say
    rw [say_freed]
    exact .deleting (by simpa using split) within
  | _ => cases h

theorem Stage.gone (hs : Stage all l) (h : l.task = .deleting []) :
    Stage all { l with task := .none, mapped := false } := by
  cases hs with
  | deleting split within =>
    cases h
    rw [List.append_nil] at split
    subst split
    exact .dead within
  | _ => cases h

theorem Stage.move (hs : Stage all l) (h : Move all l l') : Stage all l' := by
  cases h with
  | stays => exact hs
  | asked first => exact hs.asked first
  | refused waits => exact hs.refused_new waits
  | created waits => exact hs.created waits
  | told doing => exact hs.told doing
  | built doing => exact hs.built doing
  | appended g doing => exact hs.appended g doing
  | full doing => exact hs.full doing
  | reads here to_all => exact hs.reads here to_all
  | posted here => exact hs.posted here
  | read here => exact hs.read here
  | leaves here => exact hs.leaves here
  | erased here => exact hs.erased here
  | ignored waits => exact hs.ignored waits
  | missed waits absent => exact absurd (hs.mapped_of_dels waits) (by simp [absent])
  | deleted waits _ => exact hs.deleted waits
  | freed doing => exact hs.freed doing
  | gone doing => exact hs.gone doing

/-! ## What a stage says -/

def Kind.rank : Kind → Nat
  | .builded => 0
  | .recv_data _ => 1
  | .freed => 2

theorem logOf_sorted (told : List Nat) (recvs : Nat → List Bytes) (freed : List Nat) (m : Nat) :
    (logOf told recvs freed m).Pairwise (fun a b => a.rank ≤ b.rank) := by
  unfold logOf
  rw [List.pairwise_append, List.pairwise_append]
  refine ⟨⟨?_, ?_, ?_⟩, ?_, ?_⟩
  · exact List.pairwise_replicate.mpr (Or.inr (Nat.le_refl _))
  · exact List.pairwise_map.mpr (List.pairwise_of_forall fun _ _ => Nat.le_refl 1)
  · intro a ha b _
    rw [List.eq_of_mem_replicate ha]
    exact Nat.zero_le _
  · exact List.pairwise_replicate.mpr (Or.inr (Nat.le_refl _))
  · intro a _ b hb
    rw [List.eq_of_mem_replicate hb]
    cases a <;> simp [Kind.rank]

/-- A module that was told something of what came had been told of the channel before. -/
theorem Stage.log_eq (hs : Stage all l) : ∃ told recvs freed, l.log = logOf told recvs freed ∧
    Within told recvs := by
  have hnone : ∀ told, Within told (fun _ => []) := fun _ _ hm => absurd rfl hm
  cases hs with
  | unasked => exact ⟨[], _, [], logOf_nil.symm, hnone _⟩
  | waiting => exact ⟨[], _, [], logOf_nil.symm, hnone _⟩
  | refused => exact ⟨[], _, [], logOf_nil.symm, hnone _⟩
  | building => exact ⟨_, _, _, rfl, hnone _⟩
  | appending => exact ⟨_, _, _, rfl, hnone _⟩
  | listed _ within => exact ⟨_, _, _, rfl, within⟩
  | leaving _ within => exact ⟨_, _, _, rfl, within⟩
  | deleting _ within => exact ⟨_, _, _, rfl, within⟩
  | dead within => exact ⟨_, _, _, rfl, within⟩

/-- Before something that came over a channel stands that it is there, and not that it is gone. -/
theorem Stage.in_order (hs : Stage all l) {m : Nat} {pre post : List Kind} {d : Bytes}
    (h : l.log m = pre ++ .recv_data d :: post) :
    Kind.builded ∈ pre ∧ Kind.builded ∉ post ∧ Kind.freed ∉ pre := by
  obtain ⟨told, recvs, freed, hlog, within⟩ := hs.log_eq
  rw [hlog] at h
  have hsorted := logOf_sorted told recvs freed m
  rw [h, List.pairwise_append, List.pairwise_cons] at hsorted
  obtain ⟨_, ⟨hpost, _⟩, hpre⟩ := hsorted
  have hlate : Kind.builded ∉ post := by
    intro hb
    have hle : 1 ≤ 0 := hpost _ hb
    omega
  have hearly : Kind.freed ∉ pre := by
    intro hf
    have hle : 2 ≤ 1 := hpre _ hf _ List.mem_cons_self
    omega
  refine ⟨?_, hlate, hearly⟩
  have hsaid : Kind.recv_data d ∈ logOf told recvs freed m := by
    rw [h]
    simp
  have hcame : recvs m ≠ [] := by
    intro hnil
    simp [logOf, hnil] at hsaid
  have hpos : 0 < told.count m := List.count_pos_iff.mpr (within m hcame)
  have htold : Kind.builded ∈ pre ++ .recv_data d :: post := by
    rw [← h]
    exact List.mem_append_left _ (List.mem_append_left _ (List.mem_replicate.mpr ⟨by omega, rfl⟩))
  rcases List.mem_append.mp htold with hb | hb
  · exact hb
  · rcases List.mem_cons.mp hb with he | hb
    · cases he
    · exact absurd hb hlate

theorem count_freed (told : List Nat) (recvs : Nat → List Bytes) (freed : List Nat) (m : Nat) :
    (logOf told recvs freed m).count .freed = freed.count m := by
  have hcame : ((recvs m).map Kind.recv_data).count .freed = 0 := by
    rw [List.count_eq_zero]
    simp
  simp [logOf, List.count_append, List.count_replicate, hcame]

theorem Stage.freed_le (hs : Stage all l) (m : Nat) : (l.log m).count .freed ≤ all.count m := by
  cases hs with
  | unasked => exact Nat.zero_le _
  | waiting => exact Nat.zero_le _
  | refused => exact Nat.zero_le _
  | deleting split =>
    rw [← split, count_freed, List.count_append]
    exact Nat.le_add_right _ _
  | dead => exact Nat.le_of_eq (count_freed _ _ _ _)
  | building | appending | listed | leaving =>
    rw [count_freed]
    exact Nat.zero_le _

theorem Stage.freed_eq (hs : Stage all l) (h : l.processed = true) (m : Nat) :
    (l.log m).count .freed + l.task.to_free.count m = all.count m := by
  cases hs with
  | deleting split =>
    rw [← split, count_freed, List.count_append]
    rfl
  | dead => exact count_freed _ _ _ _
  | _ => cases h

theorem Stage.alive_of_mapped (hs : Stage all l) (h : l.mapped = true) (hidle : l.task = .none) :
    l.alive = true := by
  cases hs with
  | deleting => cases hidle
  | dead => cases h
  | unasked => cases h
  | waiting => cases h
  | refused => cases h
  | _ => rfl

theorem Stage.alive_of_listed {g k : Nat} {b : Option Busy} (hs : Stage all l)
    (h : l.places g = (k + 1, b)) (hb : b ≠ some .leaving) : l.alive = true := by
  obtain ⟨_, _, _, _, rfl⟩ := hs.of_listed h hb
  rfl

end util.channel_life
