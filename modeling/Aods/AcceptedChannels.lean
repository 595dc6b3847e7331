-- `CCommuModule` and its select groups over the channels that a server accepts, each thread in its
-- own small steps. The thread of the module owns a channel through its map, and the thread of a
-- group has it in a list. The law says in what order the modules are told of a channel, how often
-- that it is gone, and that nobody calls a method of a channel that is deleted.
import Aods.ChannelLife
import Aods.Runs

open machine runs
open util.channel_life

namespace util.accepted_channels

/-! ## The model -/

/-- The modules that `Dispatch` knows, in the order of its maps, and the last byte that `OnDel`
sends: behind the name come the first eight bytes of the channel object. -/
structure Setup where
  monitors : List Nat
  modules : List Nat
  last : UInt8

/-- The queues that a broadcast of `Dispatch` is posted to, one after the other. -/
def Setup.everyone (st : Setup) : List Nat := st.monitors ++ st.modules

/-- What a broadcast says of a channel; all of them begin with its name. -/
inductive Msg where
  | builded (c : Bytes)
  | recv_data (c data : Bytes)
  | send_data_fail (c : Bytes)
  | freed (c : Bytes)
  deriving DecidableEq

/-- What `CCommuModule` handles. A NEW comes with whether it passes the tests that stand before the
channel object is made, and whether its socket is a valid one. The other messages of modules come
with whether their name ends where it has to. -/
inductive Request where
  | new (c : Bytes) (well_formed valid : Bool)
  | send_data (c : Bytes) (ended : Bool)
  | free (c : Bytes) (ended : Bool)
  | del (c : Bytes)
  deriving DecidableEq

/-- Where the thread of `CCommuModule` is: between two messages, in the broadcast of `OnBuiled`,
before `GetIoCount` or `push_back` of the next group, in the broadcast of `OnFreed`, or in that of
a failed send. -/
inductive Doing where
  | idle
  | building (c : Bytes) (todo : List Nat)
  | appending (c : Bytes) (n : Nat)
  | pushing (c : Bytes) (n : Nat)
  | deleting (c : Bytes) (todo : List Nat)
  | failing (c : Bytes) (todo : List Nat)

/-- Where the thread of a select group is: at the top of the loop, at the iterator of a locked loop,
behind the test of the channel there (`stays` says whether it is kept so far), in its `ReadData`,
behind its `OnDel`, or between the two loops. -/
inductive Place where
  | outside
  | looking (second : Bool)
  | tested (second stays : Bool)
  | receiving (posts : List (Nat × Bytes))
  | leaving (second : Bool)
  | selecting

/-- A select group. The iterator stands at the head of `rest`. A group that is not made yet is one
with an empty list. -/
structure Group where
  before : List Bytes
  rest : List Bytes
  /-- `nMaxSock` is not 0. -/
  max_sock : Bool
  place : Place

def Group.locked (gr : Group) : Bool :=
  match gr.place with
  | .outside | .selecting => false
  | _ => true

structure Sys where
  /-- All that was posted to a module, the oldest first. -/
  queues : Nat → List Msg
  /-- The messages that wait for `CCommuModule`. -/
  inbox : List Request
  doing : Doing
  map_ac : Bytes → Bool
  /-- The channel object is there, and its `m_pAS` has a valid socket. -/
  alive : Bytes → Bool
  valid : Bytes → Bool
  groups : Nat → Group
  /-- The names that a NEW has had, and the channels whose DEL has passed the test of
  `OnDelChannel`. -/
  names : Bytes → Bool
  processed : Bytes → Bool

def init : Sys :=
  ⟨fun _ => [], [], .idle, fun _ => false, fun _ => false, fun _ => false,
    fun _ => ⟨[], [], false, .outside⟩,
    fun _ => false, fun _ => false⟩

/-- What `select` and `Recv` give a group: nothing is ready, the peer has closed or cannot be
understood, or messages have come. -/
inductive Ready where
  | nothing
  | closed
  | data (datas : List Bytes)

/-- A message for `CCommuModule`, or the next small step of one of the threads. -/
inductive Event where
  | new (c : Bytes) (well_formed valid : Bool)
  | send_data (c : Bytes) (ended : Bool)
  | free (c : Bytes) (ended : Bool)
  | commu (sent : Bool)
  | group (g : Nat) (x : Ready)

def Sys.post (s : Sys) (m : Nat) (msg : Msg) : Sys :=
  { s with queues := Function.update s.queues m (s.queues m ++ [msg]) }

def Sys.setGroup (s : Sys) (g : Nat) (gr : Group) : Sys :=
  { s with groups := Function.update s.groups g gr }

/-- What the thread of `CCommuModule` does next. -/
def Sys.setDoing (s : Sys) (d : Doing) : Sys := { s with doing := d }

/-- `SAFE_DELETE`: `OnFreed` is the first thing that the destructor does. -/
def Sys.delete (st : Setup) (s : Sys) (c : Bytes) : Sys :=
  { s with alive := Function.update s.alive c false, doing := .deleting c st.everyone }

/-- The handlers of `CCommuModule`, up to their first post. `sent` is whether `SendMsg` sends
all. -/
def onMsg (st : Setup) (sent : Bool) (s : Sys) : Request → Except Bytes Sys
  | .new c well_formed valid =>
    if well_formed then
      .ok { s with
        map_ac := Function.update s.map_ac c true, alive := Function.update s.alive c true,
        valid := Function.update s.valid c valid, doing := .building c st.everyone }
    else .ok s
  | .send_data c ended =>
    if ended ∧ s.map_ac c then
      if ¬ s.alive c then .error c
      else if sent then .ok s else .ok (s.setDoing (.failing c st.everyone))
    else .ok (s.setDoing (.failing c st.everyone))
  | .free c ended =>
    if ended ∧ s.map_ac c then
      if ¬ s.alive c then .error c else .ok { s with valid := Function.update s.valid c false }
    else .ok s
  | .del c =>
    if st.last ≠ 0 then .ok s
    else
      let s := { s with processed := Function.update s.processed c true }
      if s.map_ac c then .ok (s.delete st c) else .ok s

/-- The thread of `CCommuModule`. A step that waits for a lock changes nothing. -/
def commu (st : Setup) (sent : Bool) (s : Sys) : Except Bytes Sys :=
  match s.doing with
  | .idle =>
    match s.inbox with
    | [] => .ok s
    | q :: rest => onMsg st sent { s with inbox := rest } q
  | .building c (m :: todo) => .ok ((s.post m (.builded c)).setDoing (.building c todo))
  | .building c [] => .ok (s.setDoing (.appending c 0))
  | .appending c n =>
    if n ≥ 20 then .ok ({ s with map_ac := Function.update s.map_ac c false }.delete st c)
    else if (s.groups n).locked then .ok s
    else if (s.groups n).before.length + (s.groups n).rest.length ≥ 1024 then
      .ok (s.setDoing (.appending c (n + 1)))
    else .ok (s.setDoing (.pushing c n))
  | .pushing c n =>
    if (s.groups n).locked then .ok s
    else .ok ((s.setGroup n { s.groups n with rest := (s.groups n).rest ++ [c] }).setDoing .idle)
  | .deleting c (m :: todo) => .ok ((s.post m (.freed c)).setDoing (.deleting c todo))
  | .deleting c [] => .ok ({ s with map_ac := Function.update s.map_ac c false }.setDoing .idle)
  | .failing c (m :: todo) => .ok ((s.post m (.send_data_fail c)).setDoing (.failing c todo))
  | .failing _ [] => .ok (s.setDoing .idle)

/-- `OnDel` of the channel at the iterator. Its post is the last thing that it does. -/
def onDel (s : Sys) (g : Nat) (gr : Group) (second : Bool) (c : Bytes) : Sys :=
  { s.setGroup g { gr with place := .leaving second } with inbox := s.inbox ++ [.del c] }

/-- `++it`. -/
def Group.pass (gr : Group) (c : Bytes) (r : List Bytes) (second : Bool) : Group :=
  { gr with before := gr.before ++ [c], rest := r, place := .looking second }

/-- The end of a locked loop. -/
def Group.unlock (gr : Group) (place : Place) : Group :=
  { gr with before := [], rest := gr.before, place := place }

/-- The posts of `ReadData`: each message to every module. -/
def postsOf (st : Setup) (datas : List Bytes) : List (Nat × Bytes) :=
  datas.flatMap (fun d => st.everyone.map (fun m => (m, d)))

/-- The condition of the second loop, behind its test of the socket. -/
def read (st : Setup) (s : Sys) (gr : Group) (c : Bytes) (r : List Bytes) : Ready → Group
  | .nothing => gr.pass c r true
  | .closed => { gr with place := .tested true false }
  | .data datas =>
    if s.valid c then { gr with place := .receiving (postsOf st datas) }
    else { gr with place := .tested true false }

/-- The loops of `Run` at a channel. -/
def visit (st : Setup) (s : Sys) (g : Nat) (x : Ready) (c : Bytes) (r : List Bytes) :
    Except Bytes Sys :=
  let gr := s.groups g
  match gr.place with
  | .looking second =>
    if s.alive c then
      .ok (s.setGroup g { gr with place := .tested second (s.valid c) })
    else .error c
  | .tested false true => .ok (s.setGroup g { gr.pass c r false with max_sock := true })
  | .tested true true => if s.alive c then .ok (s.setGroup g (read st s gr c r x)) else .error c
  | .tested second false => if s.alive c then .ok (onDel s g gr second c) else .error c
  | .receiving [] => if s.alive c then .ok (s.setGroup g (gr.pass c r true)) else .error c
  | .receiving ((m, d) :: posts) =>
    if s.alive c then
      .ok ((s.setGroup g { gr with place := .receiving posts }).post m (.recv_data c d))
    else .error c
  | .leaving second => .ok (s.setGroup g { gr with rest := r, place := .looking second })
  | .outside | .selecting => .ok s

/-- `CAoIoSelectGroup::Run`. A call of a method of a deleted channel is an error. -/
def run (st : Setup) (s : Sys) (g : Nat) (x : Ready) : Except Bytes Sys :=
  let gr := s.groups g
  match gr.place, gr.rest with
  | .outside, [] => .ok s
  | .outside, _ :: _ => .ok (s.setGroup g { gr with max_sock := false, place := .looking false })
  | .selecting, _ =>
    match x with
    | .nothing => .ok (s.setGroup g { gr with place := .outside })
    | _ => .ok (s.setGroup g { gr with place := .looking true })
  | .looking false, [] =>
    .ok (s.setGroup g (gr.unlock (if gr.max_sock then .selecting else .outside)))
  | .looking true, [] => .ok (s.setGroup g (gr.unlock .outside))
  | _, c :: r => visit st s g x c r
  | _, [] => .ok s

def step (st : Setup) (s : Sys) : Event → Except Bytes Sys
  | .new c well_formed valid =>
    .ok { s with
      inbox := s.inbox ++ [.new c well_formed valid], names := Function.update s.names c true }
  | .send_data c ended => .ok { s with inbox := s.inbox ++ [.send_data c ended] }
  | .free c ended => .ok { s with inbox := s.inbox ++ [.free c ended] }
  | .commu sent => commu st sent s
  | .group g x => run st s g x

def handle (st : Setup) : Handler Sys Event Empty Bytes := fun s e => (step st s e).map (·, [])

/-- Each accepted channel has a name of its own. -/
def Distinct (_ : List (Event × List Empty)) (s : Sys) : Event → Prop
  | .new c _ _ => s.names c = false
  | _ => True

/-! ## One channel of the system -/

def isNew (c : Bytes) : Request → Bool
  | .new c' _ _ => decide (c' = c)
  | _ => false

def isDel (c : Bytes) : Request → Bool
  | .del c' => decide (c' = c)
  | _ => false

def kindOf (c : Bytes) : Msg → Option Kind
  | .builded c' => if c' = c then some .builded else none
  | .recv_data c' d => if c' = c then some (.recv_data d) else none
  | .freed c' => if c' = c then some .freed else none
  | .send_data_fail _ => none

def taskOf (c : Bytes) : Doing → Task
  | .building c' todo => if c' = c then .building todo else .none
  | .appending c' _ | .pushing c' _ => if c' = c then .appending else .none
  | .deleting c' todo => if c' = c then .deleting todo else .none
  | .idle | .failing _ _ => .none

def Place.busy : Place → Option Busy
  | .receiving posts => some (.receiving posts)
  | .leaving _ => some .leaving
  | _ => none

def placeOf (c : Bytes) (gr : Group) : Nat × Option Busy :=
  ((gr.before ++ gr.rest).count c, if gr.rest.head? = some c then gr.place.busy else none)

def lifeOf (s : Sys) (c : Bytes) : Life :=
  ⟨s.names c, s.inbox.countP (isNew c), s.inbox.countP (isDel c), s.alive c, s.map_ac c,
    s.processed c,
    taskOf c s.doing, fun g => placeOf c (s.groups g), fun m => (s.queues m).filterMap (kindOf c)⟩

variable {st : Setup} {s s' : Sys} {g : Nat} {b c : Bytes}

theorem life_doing (s : Sys) (d : Doing) (c : Bytes) :
    lifeOf (s.setDoing d) c = { lifeOf s c with task := taskOf c d } := rfl

theorem life_push (s : Sys) (q : Request) (c : Bytes) :
    lifeOf { s with inbox := s.inbox ++ [q] } c =
      { lifeOf s c with news := (lifeOf s c).news + (if isNew c q then 1 else 0),
                        dels := (lifeOf s c).dels + (if isDel c q then 1 else 0) } := by
  unfold lifeOf
  rw [List.countP_append, List.countP_append, List.countP_singleton, List.countP_singleton]

theorem life_post_some {m : Nat} {msg : Msg} {k : Kind} (h : kindOf c msg = some k) :
    lifeOf (s.post m msg) c = { lifeOf s c with log := (lifeOf s c).say m k } := by
  have hlog : (fun m' => ((s.post m msg).queues m').filterMap (kindOf c)) =
      (lifeOf s c).say m k := by
    funext m'
    unfold Sys.post Life.say lifeOf
    by_cases hm : m' = m
    · subst hm
      simp [h]
    · simp [Function.update_of_ne hm]
  unfold lifeOf at *
  rw [hlog]
  rfl

theorem life_post_none {m : Nat} {msg : Msg} (h : kindOf c msg = none) :
    lifeOf (s.post m msg) c = lifeOf s c := by
  have hlog : (fun m' => ((s.post m msg).queues m').filterMap (kindOf c)) =
      fun m' => (s.queues m').filterMap (kindOf c) := by
    funext m'
    unfold Sys.post
    by_cases hm : m' = m
    · subst hm
      simp [h]
    · simp [Function.update_of_ne hm]
  unfold lifeOf
  rw [hlog]
  rfl

theorem life_setGroup (s : Sys) (g : Nat) (gr : Group) (c : Bytes) :
    lifeOf (s.setGroup g gr) c =
      { lifeOf s c with places := (lifeOf s c).put g (placeOf c gr).1 (placeOf c gr).2 } := by
  have hplaces : (fun g' => placeOf c ((s.setGroup g gr).groups g')) =
      (lifeOf s c).put g (placeOf c gr).1 (placeOf c gr).2 := by
    funext g'
    unfold Sys.setGroup Life.put lifeOf
    by_cases hg : g' = g
    · subst hg
      simp
    · simp [Function.update_of_ne hg]
  unfold lifeOf at *
  rw [hplaces]
  rfl

theorem life_same {gr : Group} (h : placeOf c gr = placeOf c (s.groups g)) :
    lifeOf (s.setGroup g gr) c = lifeOf s c := by
  have hput : (lifeOf s c).put g (placeOf c gr).1 (placeOf c gr).2 = (lifeOf s c).places := by
    rw [h]
    exact Function.update_eq_self g (lifeOf s c).places
  rw [life_setGroup, hput]

/-! ## A select group -/

theorem placeOf_quiet {gr : Group} (h : gr.place.busy = none) :
    placeOf c gr = ((gr.before ++ gr.rest).count c, none) := by
  unfold placeOf
  rw [h, ite_self]

theorem placeOf_head {gr : Group} {r : List Bytes} (h : gr.rest = c :: r) :
    placeOf c gr = ((gr.before ++ r).count c + 1, gr.place.busy) := by
  have hhead : gr.rest.head? = some c := by rw [h, List.head?_cons]
  unfold placeOf
  rw [if_pos hhead, h, List.count_append, List.count_append, List.count_cons_self, Nat.add_assoc]

theorem placeOf_other {gr : Group} {r : List Bytes} (h : gr.rest = c :: r) (hne : b ≠ c) :
    placeOf b gr = ((gr.before ++ r).count b, none) := by
  have hhead : ¬ gr.rest.head? = some b := by
    rw [h]
    intro he
    exact hne (Option.some.inj he).symm
  unfold placeOf
  rw [if_neg hhead, h, List.count_append, List.count_append, List.count_cons_of_ne (Ne.symm hne)]

theorem busy_of {place : Place} (h : (s.groups g).place = place) :
    (s.groups g).place.busy = place.busy :=
  congrArg Place.busy h

theorem life_still {gr : Group} (h : (s.groups g).place.busy = none) (h' : gr.place.busy = none)
    (hlist : gr.before ++ gr.rest = (s.groups g).before ++ (s.groups g).rest) (c : Bytes) :
    lifeOf (s.setGroup g gr) c = lifeOf s c := by
  apply life_same
  rw [placeOf_quiet h, placeOf_quiet h', hlist]

theorem life_goes_on {place : Place} (h : (s.groups g).place.busy = none)
    (h' : place.busy = none) (c : Bytes) :
    lifeOf (s.setGroup g { s.groups g with place := place }) c = lifeOf s c := by
  have hnew : ({ s.groups g with place := place } : Group).place.busy = none := h'
  exact life_still h hnew rfl c

theorem life_beside {gr : Group} {r : List Bytes} (hrest : (s.groups g).rest = c :: r) (hne : b ≠ c)
    (hplace : placeOf b gr = (((s.groups g).before ++ r).count b, none)) :
    lifeOf (s.setGroup g gr) b = lifeOf s b := by
  apply life_same
  rw [hplace, placeOf_other hrest hne]

theorem pass_moves {r : List Bytes} {second : Bool} (hrest : (s.groups g).rest = c :: r)
    (hbusy : (s.groups g).place.busy = none) (max_sock : Bool) (b : Bytes) :
    lifeOf (s.setGroup g { (s.groups g).pass c r second with max_sock := max_sock }) b =
      lifeOf s b := by
  apply life_still hbusy rfl
  rw [hrest]
  exact List.append_assoc _ [c] r

/-- The channel at the iterator is in the list, and the group does with it what it does. -/
theorem here {r : List Bytes} {place : Place} (hrest : (s.groups g).rest = c :: r)
    (hplace : (s.groups g).place = place) :
    (lifeOf s c).places g = (((s.groups g).before ++ r).count c + 1, place.busy) := by
  subst hplace
  exact placeOf_head hrest

theorem life_turn {r : List Bytes} (hrest : (s.groups g).rest = c :: r) (place : Place) :
    lifeOf (s.setGroup g { s.groups g with place := place }) c =
      { lifeOf s c with
        places := (lifeOf s c).put g (((s.groups g).before ++ r).count c + 1) place.busy } := by
  have hnew : placeOf c { s.groups g with place := place } =
      (((s.groups g).before ++ r).count c + 1, place.busy) :=
    placeOf_head hrest
  rw [life_setGroup, hnew]

theorem life_turn_other {r : List Bytes} (hrest : (s.groups g).rest = c :: r) (place : Place)
    (hb : b ≠ c) :
    lifeOf (s.setGroup g { s.groups g with place := place }) b = lifeOf s b := by
  apply life_beside hrest hb
  exact placeOf_other hrest hb

theorem read_moves {all : List Nat} {r : List Bytes} (hrest : (s.groups g).rest = c :: r)
    (hplace : (s.groups g).place = .receiving []) (b : Bytes) :
    Move all (lifeOf s b) (lifeOf (s.setGroup g ((s.groups g).pass c r true)) b) := by
  have hnext : ∀ b, placeOf b ((s.groups g).pass c r true) =
      (((s.groups g).before ++ [c] ++ r).count b, none) :=
    fun _ => placeOf_quiet rfl
  by_cases hb : b = c
  · subst hb
    have hhere := here hrest hplace
    rw [life_setGroup, hnext b]
    have hcount : ((s.groups g).before ++ [b] ++ r).count b =
        ((s.groups g).before ++ r).count b + 1 := by
      simp only [List.count_append, List.count_singleton_self]
      omega
    rw [hcount]
    exact .read hhere
  · have hsame : lifeOf (s.setGroup g ((s.groups g).pass c r true)) b = lifeOf s b := by
      apply life_beside hrest hb
      rw [hnext b]
      simp [List.count_append, Ne.symm hb]
    rw [hsame]
    exact .stays

/-- The group goes into `ReadData`, which has messages for modules of the broadcast. -/
theorem reads_moves {all : List Nat} {r : List Bytes} {posts : List (Nat × Bytes)}
    (hrest : (s.groups g).rest = c :: r) (hbusy : (s.groups g).place.busy = none)
    (to_all : ∀ p ∈ posts, p.1 ∈ all) (b : Bytes) :
    Move all (lifeOf s b)
      (lifeOf (s.setGroup g { s.groups g with place := .receiving posts }) b) := by
  by_cases hb : b = c
  · subst hb
    have hhere := here hrest rfl
    rw [hbusy] at hhere
    rw [life_turn hrest]
    exact .reads hhere to_all
  · rw [life_turn_other hrest _ hb]
    exact .stays

theorem posted_moves {all : List Nat} {r : List Bytes} {m : Nat} {d : Bytes}
    {posts : List (Nat × Bytes)} (hrest : (s.groups g).rest = c :: r)
    (hplace : (s.groups g).place = .receiving ((m, d) :: posts)) (b : Bytes) :
    Move all (lifeOf s b)
      (lifeOf ((s.setGroup g { s.groups g with place := .receiving posts }).post m (.recv_data c d))
        b) := by
  by_cases hb : b = c
  · subst hb
    have hhere := here hrest hplace
    have hkind : kindOf b (.recv_data b d) = some (.recv_data d) := if_pos rfl
    rw [life_post_some hkind, life_turn hrest]
    exact .posted hhere
  · have hkind : kindOf b (.recv_data c d) = none := if_neg (Ne.symm hb)
    rw [life_post_none hkind, life_turn_other hrest _ hb]
    exact .stays

theorem onDel_moves {all : List Nat} {r : List Bytes} (hrest : (s.groups g).rest = c :: r)
    (hbusy : (s.groups g).place.busy = none) (second : Bool) (b : Bytes) :
    Move all (lifeOf s b) (lifeOf (onDel s g (s.groups g) second c) b) := by
  have hpush := life_push (s.setGroup g { s.groups g with place := .leaving second }) (.del c) b
  unfold onDel
  by_cases hb : b = c
  · subst hb
    have hhere := here hrest rfl
    rw [hbusy] at hhere
    rw [life_turn hrest] at hpush
    have hdel : isDel b (.del b) = true := by simp [isDel]
    rw [hdel] at hpush
    refine hpush ▸ ?_
    exact .leaves hhere
  · rw [life_turn_other hrest _ hb] at hpush
    have hdel : isDel b (.del c) = false := by simp [isDel, Ne.symm hb]
    rw [hdel] at hpush
    refine hpush ▸ ?_
    exact .stays

theorem erase_moves {all : List Nat} {r : List Bytes} {second second' : Bool}
    (hrest : (s.groups g).rest = c :: r) (hplace : (s.groups g).place = .leaving second)
    (b : Bytes) :
    Move all (lifeOf s b)
      (lifeOf (s.setGroup g { s.groups g with rest := r, place := .looking second' }) b) := by
  have hnew : placeOf b { s.groups g with rest := r, place := .looking second' } =
      (((s.groups g).before ++ r).count b, none) := placeOf_quiet rfl
  by_cases hb : b = c
  · subst hb
    have hhere := here hrest hplace
    rw [life_setGroup, hnew]
    exact .erased hhere
  · rw [life_beside hrest hb hnew]
    exact .stays

theorem mem_postsOf {datas : List Bytes} : ∀ p ∈ postsOf st datas, p.1 ∈ st.everyone := by
  intro p hp
  obtain ⟨d, _, hp⟩ := List.mem_flatMap.mp hp
  obtain ⟨m, hm, rfl⟩ := List.mem_map.mp hp
  exact hm

theorem visit_moves {x : Ready} {r : List Bytes} (h : visit st s g x c r = .ok s')
    (hrest : (s.groups g).rest = c :: r) (b : Bytes) :
    Move st.everyone (lifeOf s b) (lifeOf s' b) := by
  unfold visit at h
  dsimp only at h
  split at h
  case h_1 second hplace =>
    split at h <;> cases h
    have hbusy : (s.groups g).place.busy = none := busy_of hplace
    rw [life_goes_on hbusy rfl]
    exact .stays
  case h_2 hplace =>
    cases h
    rw [pass_moves hrest (busy_of hplace)]
    exact .stays
  case h_3 hplace =>
    have hbusy : (s.groups g).place.busy = none := busy_of hplace
    split at h <;> cases h
    have hstop : lifeOf (s.setGroup g { s.groups g with place := .tested true false }) b =
        lifeOf s b :=
      life_goes_on hbusy rfl b
    cases x with
    | nothing =>
      have hpass := @pass_moves s g c r true hrest hbusy (s.groups g).max_sock b
      exact hpass ▸ .stays
    | closed => exact hstop ▸ .stays
    | data datas =>
      unfold read
      dsimp only
      split
      · exact reads_moves hrest hbusy mem_postsOf b
      · exact hstop ▸ .stays
  case h_4 second hplace =>
    split at h <;> cases h
    exact onDel_moves hrest (busy_of hplace) second b
  case h_5 hplace =>
    split at h <;> cases h
    exact read_moves hrest hplace b
  case h_6 m d posts hplace =>
    split at h <;> cases h
    exact posted_moves hrest hplace b
  case h_7 second hplace =>
    cases h
    exact erase_moves hrest hplace b
  all_goals
    cases h
    exact .stays

theorem run_moves {x : Ready} (h : run st s g x = .ok s') (b : Bytes) :
    Move st.everyone (lifeOf s b) (lifeOf s' b) := by
  have hunlock : ∀ place : Place, place.busy = none → (s.groups g).place.busy = none →
      (s.groups g).rest = [] →
      lifeOf (s.setGroup g ((s.groups g).unlock place)) b = lifeOf s b := by
    intro place hnew hold hrest
    have hbusy : ((s.groups g).unlock place).place.busy = none := hnew
    apply life_still hold hbusy
    rw [hrest, List.append_nil]
    rfl
  unfold run at h
  dsimp only at h
  split at h
  case h_1 =>
    cases h
    exact .stays
  case h_2 hplace _ =>
    cases h
    have hbusy : (s.groups g).place.busy = none := busy_of hplace
    have hgo : lifeOf (s.setGroup g { s.groups g with max_sock := false, place := .looking false })
        b = lifeOf s b := by
      apply life_still hbusy
      · rfl
      · rfl
    exact hgo ▸ .stays
  case h_3 hplace =>
    have hbusy : (s.groups g).place.busy = none := busy_of hplace
    split at h
    · cases h
      rw [life_goes_on hbusy rfl]
      exact .stays
    · cases h
      rw [life_goes_on hbusy rfl]
      exact .stays
  case h_4 hplace hrest =>
    cases h
    have hbusy : (s.groups g).place.busy = none := busy_of hplace
    have hnew : (if (s.groups g).max_sock then Place.selecting else .outside).busy = none := by
      split <;> rfl
    rw [hunlock _ hnew hbusy hrest]
    exact .stays
  case h_5 hplace hrest =>
    cases h
    have hbusy : (s.groups g).place.busy = none := busy_of hplace
    rw [hunlock _ rfl hbusy hrest]
    exact .stays
  case h_6 c r hrest _ _ => exact visit_moves h hrest b
  case h_7 =>
    cases h
    exact .stays

/-! ## The thread of `CCommuModule` -/

theorem life_doing_same {d : Doing} (h : taskOf c d = taskOf c s.doing) :
    lifeOf (s.setDoing d) c = lifeOf s c := by
  rw [life_doing, h]
  rfl

theorem task_eq {d : Doing} (h : s.doing = d) : (lifeOf s c).task = taskOf c d := h ▸ rfl

/-- The channel that the thread is at. -/
def Doing.channel : Doing → Option Bytes
  | .building c _ | .appending c _ | .pushing c _ | .deleting c _ => some c
  | .idle | .failing _ _ => none

theorem taskOf_other {d : Doing} (hd : d.channel = some c) (hb : b ≠ c) : taskOf b d = .none := by
  cases d with
  | idle => rfl
  | failing => rfl
  | building c' todo | appending c' n | pushing c' n | deleting c' todo =>
    cases hd
    exact if_neg (Ne.symm hb)

/-- One post of a broadcast about the channel that the thread is at, where that is a move of it. -/
theorem tell_moves {all : List Nat} {m : Nat} {msg : Msg} {k : Kind} {d d' : Doing}
    (h : s.doing = d) (hd : d.channel = some c) (hd' : d'.channel = some c)
    (hkind : kindOf c msg = some k) (hother : ∀ b, b ≠ c → kindOf b msg = none)
    (hmove : Move all (lifeOf s c)
      { lifeOf s c with task := taskOf c d', log := (lifeOf s c).say m k })
    (b : Bytes) :
    Move all (lifeOf s b) (lifeOf ((s.post m msg).setDoing d') b) := by
  by_cases hb : b = c
  · subst hb
    rw [life_doing, life_post_some hkind]
    exact hmove
  · have hsame : taskOf b d' = taskOf b (s.post m msg).doing := by
      rw [show (s.post m msg).doing = d from h, taskOf_other hd hb, taskOf_other hd' hb]
    rw [life_doing_same hsame, life_post_none (hother b hb)]
    exact .stays

/-- One post of the broadcast of `OnBuiled`. -/
theorem told_moves {all : List Nat} {m : Nat} {todo : List Nat}
    (h : s.doing = .building c (m :: todo)) (b : Bytes) :
    Move all (lifeOf s b) (lifeOf ((s.post m (.builded c)).setDoing (.building c todo)) b) := by
  have hold : taskOf c (.building c (m :: todo)) = .building (m :: todo) := if_pos rfl
  have hnew : taskOf c (.building c todo) = .building todo := if_pos rfl
  have hkind : kindOf c (.builded c) = some .builded := if_pos rfl
  apply tell_moves h rfl rfl hkind
  · intro b hb
    exact if_neg (Ne.symm hb)
  · rw [hnew]
    exact .told ((task_eq h).trans hold)

/-- One post of the broadcast of `OnFreed`. -/
theorem freed_moves {all : List Nat} {m : Nat} {todo : List Nat}
    (h : s.doing = .deleting c (m :: todo)) (b : Bytes) :
    Move all (lifeOf s b) (lifeOf ((s.post m (.freed c)).setDoing (.deleting c todo)) b) := by
  have hold : taskOf c (.deleting c (m :: todo)) = .deleting (m :: todo) := if_pos rfl
  have hnew : taskOf c (.deleting c todo) = .deleting todo := if_pos rfl
  have hkind : kindOf c (.freed c) = some .freed := if_pos rfl
  apply tell_moves h rfl rfl hkind
  · intro b hb
    exact if_neg (Ne.symm hb)
  · rw [hnew]
    exact .freed ((task_eq h).trans hold)

/-- The thread goes on with the next group, or to `push_back`. -/
theorem appending_moves {n : Nat} {d : Doing} (h : s.doing = .appending c n)
    (hd : ∀ b, taskOf b d = taskOf b (.appending c n)) (b : Bytes) :
    lifeOf (s.setDoing d) b = lifeOf s b := by
  apply life_doing_same
  rw [hd, h]

theorem built_moves {all : List Nat} (h : s.doing = .building c []) (b : Bytes) :
    Move all (lifeOf s b) (lifeOf (s.setDoing (.appending c 0)) b) := by
  have htask := task_eq (c := b) h
  by_cases hb : b = c
  · subst hb
    have hnew : taskOf b (.appending b 0) = .appending := if_pos rfl
    have hold : taskOf b (.building b []) = .building [] := if_pos rfl
    rw [life_doing, hnew]
    exact .built (htask.trans hold)
  · have hsame : taskOf b (.appending c 0) = taskOf b s.doing := by
      rw [h, taskOf_other rfl hb, taskOf_other rfl hb]
    rw [life_doing_same hsame]
    exact .stays

/-- The channel has found no group, and is deleted. -/
theorem full_moves {n : Nat} (h : s.doing = .appending c n) (b : Bytes) :
    Move st.everyone (lifeOf s b)
      (lifeOf ({ s with map_ac := Function.update s.map_ac c false }.delete st c) b) := by
  have htask := task_eq (c := b) h
  unfold Sys.delete lifeOf
  dsimp only
  by_cases hb : b = c
  · subst hb
    have hnew : taskOf b (.deleting b st.everyone) = .deleting st.everyone := if_pos rfl
    have hold : taskOf b (.appending b n) = .appending := if_pos rfl
    rw [Function.update_self, Function.update_self, hnew]
    exact .full (htask.trans hold)
  · rw [Function.update_of_ne hb, Function.update_of_ne hb, h, taskOf_other rfl hb,
      taskOf_other rfl hb]
    exact .stays

theorem gone_moves {all : List Nat} (h : s.doing = .deleting c []) (b : Bytes) :
    Move all (lifeOf s b)
      (lifeOf ({ s with map_ac := Function.update s.map_ac c false }.setDoing .idle) b) := by
  have htask := task_eq (c := b) h
  unfold Sys.setDoing lifeOf
  dsimp only
  by_cases hb : b = c
  · subst hb
    have hold : taskOf b (.deleting b []) = .deleting [] := if_pos rfl
    rw [Function.update_self]
    exact .gone (htask.trans hold)
  · rw [Function.update_of_ne hb, h, taskOf_other rfl hb]
    exact .stays

theorem pushed_moves {all : List Nat} {n : Nat} (h : s.doing = .pushing c n)
    (hfree : (s.groups n).locked = false) (b : Bytes) : Move all (lifeOf s b)
      (lifeOf ((s.setGroup n { s.groups n with rest := (s.groups n).rest ++ [c] }).setDoing .idle)
        b) := by
  have htask := task_eq (c := b) h
  have hbusy : (s.groups n).place.busy = none := by
    unfold Group.locked at hfree
    split at hfree
    · rename_i hplace
      rw [hplace]
      rfl
    · rename_i hplace
      rw [hplace]
      rfl
    · cases hfree
  have hold : (lifeOf s b).places n = (((s.groups n).before ++ (s.groups n).rest).count b, none) :=
    placeOf_quiet hbusy
  have hnew : placeOf b { s.groups n with rest := (s.groups n).rest ++ [c] } =
      (((s.groups n).before ++ ((s.groups n).rest ++ [c])).count b, none) := placeOf_quiet hbusy
  by_cases hb : b = c
  · subst hb
    have hadd : placeOf b { s.groups n with rest := (s.groups n).rest ++ [b] } =
        (((lifeOf s b).places n).1 + 1, ((lifeOf s b).places n).2) := by
      rw [hnew, hold, ← List.append_assoc, List.count_append, List.count_singleton_self]
    have hdoing : taskOf b (.pushing b n) = .appending := if_pos rfl
    rw [life_doing, life_setGroup, hadd]
    exact .appended n (htask.trans hdoing)
  · have hsame : placeOf b { s.groups n with rest := (s.groups n).rest ++ [c] } =
        placeOf b (s.groups n) := by
      rw [hnew, placeOf_quiet hbusy, ← List.append_assoc, List.count_append]
      simp [Ne.symm hb]
    have hidle : taskOf b .idle =
        taskOf b (s.setGroup n { s.groups n with rest := (s.groups n).rest ++ [c] }).doing := by
      rw [show (s.setGroup n _).doing = .pushing c n from h]
      exact (taskOf_other (d := .pushing c n) rfl hb).symm
    rw [life_doing_same hidle, life_same hsame]
    exact .stays

theorem life_pop {q : Request} {rest : List Request} (h : s.inbox = q :: rest)
    (hnew : isNew b q = false) (hdel : isDel b q = false) :
    lifeOf { s with inbox := rest } b = lifeOf s b := by
  unfold lifeOf
  dsimp only
  rw [h, List.countP_cons, List.countP_cons, hnew, hdel]
  rfl

theorem life_pop_new {well_formed valid : Bool} {rest : List Request}
    (h : s.inbox = .new c well_formed valid :: rest) :
    (lifeOf s c).news = rest.countP (isNew c) + 1 ∧
      lifeOf { s with inbox := rest } c = { lifeOf s c with news := rest.countP (isNew c) } := by
  have hnew : isNew c (.new c well_formed valid) = true := by simp [isNew]
  have hdel : isDel c (.new c well_formed valid) = false := rfl
  unfold lifeOf
  dsimp only
  rw [h, List.countP_cons, List.countP_cons, hnew, hdel]
  exact ⟨rfl, rfl⟩

theorem life_pop_del {rest : List Request} (h : s.inbox = .del c :: rest) :
    (lifeOf s c).dels = rest.countP (isDel c) + 1 ∧
      lifeOf { s with inbox := rest } c = { lifeOf s c with dels := rest.countP (isDel c) } := by
  have hnew : isNew c (.del c) = false := rfl
  have hdel : isDel c (.del c) = true := by simp [isDel]
  unfold lifeOf
  dsimp only
  rw [h, List.countP_cons, List.countP_cons, hnew, hdel]
  exact ⟨rfl, rfl⟩

/-- The construction of a channel, and the entry in the map. -/
theorem life_created (hidle : s.doing = .idle) (valid : Bool) (b : Bytes) :
    lifeOf
      { s with
        map_ac := Function.update s.map_ac c true, alive := Function.update s.alive c true,
        valid := Function.update s.valid c valid, doing := .building c st.everyone } b =
      if b = c then { lifeOf s b with alive := true, mapped := true, task := .building st.everyone }
      else lifeOf s b := by
  unfold lifeOf
  dsimp only
  split
  · rename_i hb
    subst hb
    have hnew : taskOf b (.building b st.everyone) = .building st.everyone := if_pos rfl
    rw [Function.update_self, Function.update_self, hnew]
  · rename_i hb
    rw [Function.update_of_ne hb, Function.update_of_ne hb, hidle, taskOf_other rfl hb]
    rfl

theorem life_processed (s : Sys) (b : Bytes) :
    lifeOf { s with processed := Function.update s.processed c true } b =
      if b = c then { lifeOf s b with processed := true } else lifeOf s b := by
  unfold lifeOf
  dsimp only
  split
  · rename_i hb
    subst hb
    rw [Function.update_self]
  · rename_i hb
    rw [Function.update_of_ne hb]

theorem life_deleted (hidle : s.doing = .idle) (b : Bytes) :
    lifeOf (s.delete st c) b =
      if b = c then { lifeOf s b with alive := false, task := .deleting st.everyone }
      else lifeOf s b := by
  unfold lifeOf Sys.delete
  dsimp only
  split
  · rename_i hb
    subst hb
    have hnew : taskOf b (.deleting b st.everyone) = .deleting st.everyone := if_pos rfl
    rw [Function.update_self, hnew]
  · rename_i hb
    rw [Function.update_of_ne hb, hidle, taskOf_other rfl hb]
    rfl

theorem onNew_moves {well_formed valid sent : Bool} {rest : List Request} (hidle : s.doing = .idle)
    (hin : s.inbox = .new c well_formed valid :: rest)
    (h : onMsg st sent { s with inbox := rest } (.new c well_formed valid) = .ok s') (b : Bytes) :
    Move st.everyone (lifeOf s b) (lifeOf s' b) := by
  have hother : b ≠ c → lifeOf { s with inbox := rest } b = lifeOf s b := by
    intro hb
    apply life_pop hin
    · simp [isNew, Ne.symm hb]
    · rfl
  unfold onMsg at h
  dsimp only at h
  split at h
  · cases h
    have hnow := @life_created st { s with inbox := rest } c hidle valid b
    dsimp only at hnow
    rw [hnow]
    split
    · rename_i hb
      subst hb
      obtain ⟨hnews, hpop⟩ := life_pop_new hin
      rw [hpop]
      exact .created hnews
    · rename_i hb
      rw [hother hb]
      exact .stays
  · cases h
    by_cases hb : b = c
    · subst hb
      obtain ⟨hnews, hpop⟩ := life_pop_new hin
      rw [hpop]
      exact .refused hnews
    · rw [hother hb]
      exact .stays

theorem onDel_taken_moves {sent : Bool} {rest : List Request} (hidle : s.doing = .idle)
    (hin : s.inbox = .del c :: rest) (h : onMsg st sent { s with inbox := rest } (.del c) = .ok s')
    (b : Bytes) :
    Move st.everyone (lifeOf s b) (lifeOf s' b) := by
  have hother : b ≠ c → lifeOf { s with inbox := rest } b = lifeOf s b := by
    intro hb
    apply life_pop hin
    · rfl
    · simp [isDel, Ne.symm hb]
  have hproc := life_processed (c := c) { s with inbox := rest } b
  dsimp only at hproc
  unfold onMsg at h
  dsimp only at h
  by_cases hb : b = c
  · subst hb
    obtain ⟨hdels, hpop⟩ := life_pop_del hin
    rw [if_pos rfl, hpop] at hproc
    split at h
    · cases h
      rw [hpop]
      exact .ignored hdels
    · split at h
      · rename_i hmap
        cases h
        rw [life_deleted (s := { s with inbox := rest, processed := _ }) hidle, if_pos rfl, hproc]
        exact .deleted hdels hmap
      · rename_i hmap
        cases h
        rw [hproc]
        exact .missed hdels (Bool.eq_false_iff.mpr hmap)
  · rw [if_neg hb, hother hb] at hproc
    split at h
    · cases h
      rw [hother hb]
      exact .stays
    · split at h
      · cases h
        rw [life_deleted (s := { s with inbox := rest, processed := _ }) hidle, if_neg hb, hproc]
        exact .stays
      · cases h
        rw [hproc]
        exact .stays

/-- A message of a module for a channel changes no life: it sends, or closes a socket. -/
theorem asked_stays {sent : Bool} {q : Request} (hidle : s.doing = .idle)
    (hq : (∃ c ended, q = .send_data c ended) ∨ ∃ c ended, q = .free c ended)
    (h : onMsg st sent s q = .ok s') (b : Bytes) :
    lifeOf s' b = lifeOf s b := by
  have hfail : ∀ c, lifeOf (s.setDoing (.failing c st.everyone)) b = lifeOf s b := by
    intro c
    apply life_doing_same
    rw [hidle]
    rfl
  unfold onMsg at h
  rcases hq with ⟨c, ended, rfl⟩ | ⟨c, ended, rfl⟩
  · dsimp only at h
    split at h
    · split at h
      · cases h
      · split at h
        · cases h
          rfl
        · cases h
          exact hfail c
    · cases h
      exact hfail c
  · dsimp only at h
    split at h
    · split at h
      · cases h
      · cases h
        rfl
    · cases h
      rfl

theorem taken_moves {sent : Bool} {q : Request} {rest : List Request} (hidle : s.doing = .idle)
    (hin : s.inbox = q :: rest) (h : onMsg st sent { s with inbox := rest } q = .ok s')
    (b : Bytes) :
    Move st.everyone (lifeOf s b) (lifeOf s' b) := by
  cases q with
  | new c well_formed valid => exact onNew_moves hidle hin h b
  | send_data c ended =>
    have hsame := asked_stays (s := { s with inbox := rest }) hidle (Or.inl ⟨c, ended, rfl⟩) h b
    rw [hsame, life_pop hin rfl rfl]
    exact .stays
  | free c ended =>
    have hsame := asked_stays (s := { s with inbox := rest }) hidle (Or.inr ⟨c, ended, rfl⟩) h b
    rw [hsame, life_pop hin rfl rfl]
    exact .stays
  | del c => exact onDel_taken_moves hidle hin h b

theorem commu_moves {sent : Bool} (h : commu st sent s = .ok s') (b : Bytes) :
    Move st.everyone (lifeOf s b) (lifeOf s' b) := by
  unfold commu at h
  split at h
  case h_1 hidle =>
    split at h
    case h_1 =>
      cases h
      exact .stays
    case h_2 q rest hin => exact taken_moves hidle hin h b
  case h_2 c m todo hdoing =>
    cases h
    exact told_moves hdoing b
  case h_3 c hdoing =>
    cases h
    exact built_moves hdoing b
  case h_4 c n hdoing =>
    split at h
    · cases h
      exact full_moves hdoing b
    · split at h
      · cases h
        exact .stays
      · split at h
        · cases h
          rw [appending_moves (d := .appending c (n + 1)) hdoing (fun _ => rfl)]
          exact .stays
        · cases h
          rw [appending_moves (d := .pushing c n) hdoing (fun _ => rfl)]
          exact .stays
  case h_5 c n hdoing =>
    split at h
    · cases h
      exact .stays
    · rename_i hfree
      cases h
      exact pushed_moves hdoing (Bool.eq_false_iff.mpr hfree) b
  case h_6 c m todo hdoing =>
    cases h
    exact freed_moves hdoing b
  case h_7 c hdoing =>
    cases h
    exact gone_moves hdoing b
  case h_8 c m todo hdoing =>
    cases h
    have hsame : taskOf b (.failing c todo) = taskOf b (s.post m (.send_data_fail c)).doing := by
      rw [show (s.post m (.send_data_fail c)).doing = .failing c (m :: todo) from hdoing]
      rfl
    rw [life_doing_same hsame, life_post_none rfl]
    exact .stays
  case h_9 c hdoing =>
    cases h
    have hsame : taskOf b .idle = taskOf b s.doing := by
      rw [hdoing]
      rfl
    rw [life_doing_same hsame]
    exact .stays

/-! ## The runs -/

/-- What any step of any thread does to a channel is a move of its life. -/
theorem step_moves {e : Event} {es : List (Event × List Empty)} (hok : Distinct es s e)
    (h : step st s e = .ok s') (b : Bytes) : Move st.everyone (lifeOf s b) (lifeOf s' b) := by
  cases e with
  | new c well_formed valid =>
    cases h
    have hpush :=
      life_push { s with names := Function.update s.names c true } (.new c well_formed valid) b
    by_cases hb : b = c
    · subst hb
      have hnew : isNew b (.new b well_formed valid) = true := by simp [isNew]
      rw [hnew] at hpush
      refine hpush ▸ ?_
      unfold lifeOf
      dsimp only
      rw [Function.update_self]
      exact .asked hok
    · have hnew : isNew b (.new c well_formed valid) = false := by simp [isNew, Ne.symm hb]
      rw [hnew] at hpush
      refine hpush ▸ ?_
      unfold lifeOf
      dsimp only
      rw [Function.update_of_ne hb]
      exact .stays
  | send_data c ended =>
    cases h
    rw [life_push]
    exact .stays
  | free c ended =>
    cases h
    rw [life_push]
    exact .stays
  | commu sent => exact commu_moves h b
  | group g x => exact run_moves h b

/-- Every channel is at a stage of its life. -/
def Inv (st : Setup) (s : Sys) : Prop := ∀ c, Stage st.everyone (lifeOf s c)

theorem Inv.next {e : Event} {es : List (Event × List Empty)} (hinv : Inv st s)
    (hok : Distinct es s e) (h : step st s e = .ok s') : Inv st s' :=
  fun c => (hinv c).move (step_moves hok h c)

theorem Inv.of_run {es : List (Event × List Empty)} (h : Run (handle st) Distinct init es s) :
    Inv st s := by
  refine Run.invariant (I := fun _ s => Inv st s) ?_ ?_ h
  · intro c
    exact .unasked
  · intro es s e s' os hinv hok hstep
    unfold handle at hstep
    cases hnext : step st s e with
    | error c =>
      rw [hnext] at hstep
      cases hstep
    | ok s'' =>
      rw [hnext] at hstep
      cases hstep
      exact hinv.next hok hnext

/-! ## Deleted channels -/

/-- The channel at the iterator is alive, up to its `OnDel`. -/
theorem Inv.visited {r : List Bytes} (hinv : Inv st s) (hrest : (s.groups g).rest = c :: r)
    (hbusy : (s.groups g).place.busy ≠ some .leaving) : s.alive c = true :=
  (hinv c).alive_of_listed (here hrest rfl) hbusy

theorem Inv.visit_ok {x : Ready} {r : List Bytes} (hinv : Inv st s)
    (hrest : (s.groups g).rest = c :: r) (b : Bytes) :
    visit st s g x c r ≠ .error b := by
  intro h
  have halive := hinv.visited hrest
  unfold visit at h
  dsimp only at h
  split at h
  case h_2 => cases h
  case h_7 => cases h
  case h_8 => cases h
  case h_9 => cases h
  all_goals
    rename_i hplace
    rw [hplace] at halive
    rw [if_pos (halive (by simp [Place.busy]))] at h
    cases h

theorem Inv.onMsg_ok {sent : Bool} {q : Request} {rest : List Request} (hinv : Inv st s)
    (hidle : s.doing = .idle) (b : Bytes) :
    onMsg st sent { s with inbox := rest } q ≠ .error b := by
  intro h
  have halive : ∀ c, s.map_ac c = true → s.alive c = true := by
    intro c hmap
    have htask : (lifeOf s c).task = .none := task_eq hidle
    exact (hinv c).alive_of_mapped hmap htask
  unfold onMsg at h
  split at h
  case h_1 => split at h <;> cases h
  case h_2 c ended =>
    split at h
    · rename_i hmap
      rw [if_neg (not_not.mpr (halive c hmap.2))] at h
      split at h <;> cases h
    · cases h
  case h_3 c ended =>
    split at h
    · rename_i hmap
      rw [if_neg (not_not.mpr (halive c hmap.2))] at h
      cases h
    · cases h
  case h_4 c =>
    split at h
    · cases h
    · dsimp only at h
      split at h <;> cases h

theorem Inv.no_error (hinv : Inv st s) (e : Event) (c : Bytes) : step st s e ≠ .error c := by
  intro h
  cases e with
  | new => cases h
  | send_data => cases h
  | free => cases h
  | commu sent =>
    change commu st sent s = .error c at h
    unfold commu at h
    split at h
    case h_1 hidle =>
      split at h
      · cases h
      · exact hinv.onMsg_ok hidle c h
    case h_4 =>
      split at h
      · cases h
      · split at h
        · cases h
        · split at h <;> cases h
    case h_5 => split at h <;> cases h
    all_goals cases h
  | group g x =>
    change run st s g x = .error c at h
    unfold run at h
    dsimp only at h
    split at h
    case h_3 => split at h <;> cases h
    case h_6 hrest _ _ => exact hinv.visit_ok hrest c h
    all_goals cases h

/-! ## The queues -/

theorem kindOf_builded {msg : Msg} : kindOf c msg = some .builded ↔ msg = .builded c := by
  unfold kindOf
  cases msg <;> simp

theorem kindOf_freed {msg : Msg} : kindOf c msg = some .freed ↔ msg = .freed c := by
  unfold kindOf
  cases msg <;> simp

theorem mem_kinds {q : List Msg} {k : Kind} {msg : Msg}
    (hkind : ∀ msg', kindOf c msg' = some k ↔ msg' = msg) :
    k ∈ q.filterMap (kindOf c) ↔ msg ∈ q := by
  rw [List.mem_filterMap]
  constructor
  · rintro ⟨msg', hmem, he⟩
    rw [← (hkind msg').mp he]
    exact hmem
  · intro hmem
    exact ⟨msg, hmem, (hkind msg).mpr rfl⟩

theorem count_kinds (q : List Msg) (c : Bytes) :
    (q.filterMap (kindOf c)).count .freed = q.count (.freed c) := by
  induction q with
  | nil => rfl
  | cons msg q ih =>
    by_cases hm : msg = .freed c
    · subst hm
      have hkind : kindOf c (.freed c) = some .freed := if_pos rfl
      rw [List.filterMap_cons_some hkind, List.count_cons_self, List.count_cons_self, ih]
    · have hne : kindOf c msg ≠ some .freed := fun he => hm (kindOf_freed.mp he)
      rw [List.count_cons_of_ne hm]
      cases hk : kindOf c msg with
      | none => rw [List.filterMap_cons_none hk, ih]
      | some k =>
        have hk' : k ≠ .freed := fun he => hne (he ▸ hk)
        rw [List.filterMap_cons_some hk, List.count_cons_of_ne hk', ih]

/-- In each queue, BUILDED stands before all that came over the channel, and FREED behind. -/
def InOrder (s : Sys) (c : Bytes) : Prop :=
  ∀ m pre d post, s.queues m = pre ++ .recv_data c d :: post →
    Msg.builded c ∈ pre ∧ Msg.builded c ∉ post ∧ Msg.freed c ∉ pre

theorem Inv.in_order (hinv : Inv st s) (c : Bytes) : InOrder s c := by
  intro m pre d post hq
  have hkind : kindOf c (.recv_data c d) = some (.recv_data d) := if_pos rfl
  have hlog : (lifeOf s c).log m =
      pre.filterMap (kindOf c) ++ .recv_data d :: post.filterMap (kindOf c) := by
    change (s.queues m).filterMap (kindOf c) = _
    rw [hq, List.filterMap_append, List.filterMap_cons_some hkind]
  obtain ⟨hbefore, hafter, hfreed⟩ := (hinv c).in_order hlog
  rw [mem_kinds (fun _ => kindOf_builded)] at hbefore hafter
  rw [mem_kinds (fun _ => kindOf_freed)] at hfreed
  exact ⟨hbefore, hafter, hfreed⟩

/-- The posts of FREED that `CCommuModule` has still to make, while it deletes the channel. -/
def to_free (s : Sys) (c : Bytes) : List Nat := (taskOf c s.doing).to_free

/-- FREED goes to each queue as often as a broadcast goes there, and just so when the DEL is
processed. -/
def FreedOnce (st : Setup) (s : Sys) (c : Bytes) : Prop :=
  ∀ m, (s.queues m).count (.freed c) ≤ st.everyone.count m ∧
    (s.processed c → (s.queues m).count (.freed c) + (to_free s c).count m = st.everyone.count m)

theorem Inv.freed_once (hinv : Inv st s) (c : Bytes) : FreedOnce st s c := by
  intro m
  rw [← count_kinds]
  constructor
  · exact (hinv c).freed_le m
  · intro hproc
    exact (hinv c).freed_eq hproc m

/-! ## The law -/

/-- However the threads take turns, every module is told of an accepted channel in order, that it is
gone exactly once when its DEL has been processed, and no step calls a method of a deleted
channel. -/
theorem an_accepted_channel_is_told_in_order_and_freed_once {es : List (Event × List Empty)}
    (h : Run (handle st) Distinct init es s) :
    (∀ c, InOrder s c) ∧ (∀ c, FreedOnce st s c) ∧ ∀ e c, step st s e ≠ .error c := by
  have hinv := Inv.of_run h
  exact ⟨hinv.in_order, hinv.freed_once, hinv.no_error⟩

/-- Two modules, and a channel object whose eighth byte is 0. -/
def twoModules : Setup := ⟨[], [1, 2], 0⟩

/-- A NEW for the channel "a" waits. -/
def asked : Sys :=
  { init with inbox := [.new [97] true true], names := Function.update init.names [97] true }

/-- What the threads do then: the channel is built, put into the first group and
read once. -/
def opening : List Event :=
  List.replicate 6 (.commu true) ++ List.replicate 11 (.group 0 (.data [[7]]))

/-- A module frees the channel. The group finds its socket closed, and the DEL is processed before
the channel is erased from the list. -/
def closing : List Event :=
  [.free [97] true, .commu true, .group 0 .nothing, .group 0 .nothing, .group 0 .nothing,
    .commu true, .group 0 .nothing,
    .commu true, .commu true, .commu true]

def Event.asks : Event → Bool
  | .new _ _ _ => true
  | _ => false

theorem Distinct.of_asks {e : Event} (h : e.asks = false) (es : List (Event × List Empty))
    (s : Sys) : Distinct es s e := by
  cases e with
  | new => cases h
  | _ => trivial

/-- The whole life of a channel: both modules are told of it, of what it has read, and that it is
gone. -/
theorem a_freed_channel_is_told_to_both_modules :
    ∃ es s, Run (handle twoModules) Distinct init es s ∧
      s.queues 1 = [.builded [97], .recv_data [97] [7], .freed [97]] ∧ s.queues 2 = s.queues 1 ∧
      s.processed [97] = true ∧ s.alive [97] = false ∧
      ((∀ c, InOrder s c) ∧ (∀ c, FreedOnce twoModules s c) ∧ ∀ e c, step twoModules s e ≠
        .error c) := by
  have h0 : Run (handle twoModules) Distinct init [] _ := .start
  have h1 : Run (handle twoModules) Distinct init _ asked :=
    Run.next (e := Event.new [97] true true) h0 rfl rfl
  have hok : ∀ e ∈ opening ++ closing, e.asks = false := by decide
  obtain ⟨s, hs, hlast⟩ : ∃ s, follow (handle twoModules) asked (opening ++ closing) = .ok s ∧
      s.queues 1 = [.builded [97], .recv_data [97] [7], .freed [97]] ∧ s.queues 2 = s.queues 1 ∧
      s.processed [97] = true ∧ s.alive [97] = false := ⟨_, rfl, rfl, rfl, rfl, rfl⟩
  obtain ⟨es, h⟩ := h1.follow (fun e he es s => Distinct.of_asks (hok e he) es s) hs
  obtain ⟨hq1, hq2, hproc, halive⟩ := hlast
  exact ⟨es, s, h, hq1, hq2, hproc, halive, an_accepted_channel_is_told_in_order_and_freed_once h⟩

end util.accepted_channels
