-- `CAoTcpServer::Run`, which waits with `select` for connections to its listening sockets
-- and has a channel made for each. The law says which of the sockets lie below the number of
-- handles that `select` is to look at: all but the one with the greatest handle, which no
-- connection is reported on.
import Aods.Json

open machine
open util.json (text)

namespace util.tcp_server

/-! ## The model -/

/-- `SERVER_CHANNEL`, with the handle of its socket, which is bound and listens. -/
structure ServerChannel where
  str_name : Bytes
  str_protocol : Bytes
  ull_index : Nat
  socket : Int
  deriving DecidableEq

/-- What comes from outside in a round: on which sockets a connection waits, which handles
`select` leaves in the set of those that it does not look at, and the handles that `Accept`
gives. -/
structure Moment where
  pending : Int → Bool
  left : Int → Bool
  accept : Int → Int

/-- What a round hands to `select`: the number of handles to look at, and the set. -/
structure Select where
  nfds : Int
  set : List Int
  deriving DecidableEq

/-- A turn of the loop over the list before `select`. -/
def addHandle (s : Select) (sc : ServerChannel) : Select :=
  { nfds := if s.nfds < sc.socket then sc.socket else s.nfds, set := s.set ++ [sc.socket] }

def selectOf (lst_sc : List ServerChannel) : Select := lst_sc.foldl addHandle ⟨0, []⟩

/-- The handles that `select` reports, and counts: it looks at those below the number only. -/
def Select.reported (s : Select) (m : Moment) : List Int :=
  s.set.filter (fun h => h < s.nfds && m.pending h)

/-- The handles that are in the set behind `select`. -/
def Select.ready (s : Select) (m : Moment) : List Int :=
  s.set.filter (fun h => if h < s.nfds then m.pending h else m.left h)

/-- "%016x", which takes the low 32 bits of the index. -/
def szIndex (ull_index : Nat) : Bytes :=
  let digits := (Nat.toDigits 16 (u32 ull_index)).map (fun c => UInt8.ofNat c.toNat)
  List.replicate (16 - digits.length) 48 ++ digits

/-- What `CCommuModule` is sent for a connection, its NUL included. -/
def szCreateChannel (sc : ServerChannel) (handle : Int) : Bytes :=
  text "\x7b\"" ++ sc.str_name ++ text ":" ++ szIndex sc.ull_index ++
    text "\":\x7b\"Type\":\"AoSockChannel\", \"Protocol\":\"" ++ sc.str_protocol ++
    text "\", \"Para\":\x7b\"Handle\":" ++ text (toString handle) ++
      text ", \"Protocol\":\"Tcp\"\x7d\x7d\x7d" ++ [0]

/-- A turn of the loop over the list behind it. -/
def acceptFrom (m : Moment) (ready : List Int) (sc : ServerChannel) : ServerChannel × List Bytes :=
  if ready.contains sc.socket then
    ({ sc with ull_index := (sc.ull_index + 1) % 18446744073709551616 },
      [szCreateChannel sc (m.accept sc.socket)])
  else (sc, [])

/-- A round of `Run`: the list behind it, and the messages. -/
def round (lst_sc : List ServerChannel) (m : Moment) : List ServerChannel × List Bytes :=
  let ready := (selectOf lst_sc).ready m
  if ((selectOf lst_sc).reported m).length < 1 then (lst_sc, [])
  else
    ((lst_sc.map (acceptFrom m ready)).map (·.1),
      ((lst_sc.map (acceptFrom m ready)).map (·.2)).flatten)

/-- The rounds until `m_bRun` is false: the calls of `select`, the list behind the last round, and
all messages. -/
def run : List ServerChannel → List Moment → List Select × List ServerChannel × List Bytes
  | lst_sc, [] => ([], lst_sc, [])
  | lst_sc, m :: ms =>
    let r := round lst_sc m
    let rest := run r.1 ms
    (selectOf lst_sc :: rest.1, rest.2.1, r.2 ++ rest.2.2)

/-! ## What is asked of it -/

/-- `select` looks at all handles of the set. -/
def Select.LooksAtAll (s : Select) : Prop := ∀ h ∈ s.set, h < s.nfds

instance (s : Select) : Decidable s.LooksAtAll := inferInstanceAs (Decidable (∀ h ∈ s.set, _))

variable {lst_sc : List ServerChannel} {sc : ServerChannel} {h : Int} {m : Moment}
  {ms : List Moment}

/-! ## One round -/

theorem foldl_addHandle (lst_sc : List ServerChannel) (s : Select) :
    (lst_sc.foldl addHandle s).set = s.set ++ lst_sc.map (·.socket) ∧
      (lst_sc.foldl addHandle s).nfds = (lst_sc.map (·.socket)).foldl max s.nfds := by
  induction lst_sc generalizing s with
  | nil => simp
  | cons sc lst_sc ih =>
    obtain ⟨hset, hnfds⟩ := ih (addHandle s sc)
    have hmax : (if s.nfds < sc.socket then sc.socket else s.nfds) = max s.nfds sc.socket := by
      split
      · omega
      · omega
    rw [List.foldl_cons, hset, hnfds, addHandle, List.map_cons, List.foldl_cons, hmax]
    simp

theorem selectOf_set : (selectOf lst_sc).set = lst_sc.map (·.socket) :=
  (foldl_addHandle lst_sc ⟨0, []⟩).1

/-- A maximum is one of the numbers that it is of, or what it began with, and none is greater. -/
theorem foldl_max (hs : List Int) (a : Int) :
    a ≤ hs.foldl max a ∧ (∀ h ∈ hs, h ≤ hs.foldl max a) ∧
      (hs.foldl max a = a ∨ hs.foldl max a ∈ hs) := by
  induction hs generalizing a with
  | nil => simp
  | cons h hs ih =>
    obtain ⟨hle, hmem, hfrom⟩ := ih (max a h)
    rw [List.foldl_cons]
    refine ⟨by omega, fun h' hh' => ?_, ?_⟩
    · rcases List.mem_cons.mp hh' with rfl | hh'
      · omega
      · exact hmem h' hh'
    · rcases hfrom with heq | hin
      · rw [heq]
        by_cases hlt : a < h
        · exact Or.inr (by rw [Int.max_eq_right (by omega)]; exact List.mem_cons_self)
        · exact Or.inl (by omega)
      · exact Or.inr (List.mem_cons_of_mem h hin)

theorem selectOf_nfds :
    0 ≤ (selectOf lst_sc).nfds ∧ (∀ sc ∈ lst_sc, sc.socket ≤ (selectOf lst_sc).nfds) ∧
    ((selectOf lst_sc).nfds = 0 ∨ ∃ sc ∈ lst_sc, sc.socket = (selectOf lst_sc).nfds) := by
  have hnfds : (selectOf lst_sc).nfds = (lst_sc.map (·.socket)).foldl max 0 :=
    (foldl_addHandle lst_sc ⟨0, []⟩).2
  obtain ⟨hle, hmem, hfrom⟩ := foldl_max (lst_sc.map (·.socket)) 0
  rw [hnfds]
  refine ⟨hle, fun sc hsc => hmem _ (List.mem_map_of_mem hsc), hfrom.imp_right (fun hin => ?_)⟩
  exact List.mem_map.mp hin

/-- A handle that is none of an error is looked at just when another one is greater. -/
theorem lt_nfds_iff (hpos : 0 ≤ h) : h < (selectOf lst_sc).nfds ↔ ∃ sc ∈ lst_sc, h < sc.socket := by
  obtain ⟨hzero, hall, hfrom⟩ := @selectOf_nfds lst_sc
  constructor
  · intro hlt
    rcases hfrom with heq | ⟨sc, hsc, heq⟩
    · omega
    · exact ⟨sc, hsc, by omega⟩
  · rintro ⟨sc, hsc, hlt⟩
    exact Int.lt_of_lt_of_le hlt (hall sc hsc)

/-- So all are looked at just when all are those of errors. -/
theorem looksAtAll_iff : (selectOf lst_sc).LooksAtAll ↔ ∀ sc ∈ lst_sc, sc.socket < 0 := by
  obtain ⟨hzero, hall, hfrom⟩ := @selectOf_nfds lst_sc
  unfold Select.LooksAtAll
  rw [selectOf_set]
  constructor
  · intro hlooks sc hsc
    rcases hfrom with heq | ⟨sc', hsc', heq⟩
    · have hlt := hlooks _ (List.mem_map_of_mem hsc)
      omega
    · have hlt := hlooks _ (List.mem_map_of_mem hsc')
      omega
  · intro herrors h hh
    obtain ⟨sc, hsc, rfl⟩ := List.mem_map.mp hh
    exact Int.lt_of_lt_of_le (herrors sc hsc) hzero

/-! ## Runs -/

theorem round_sockets (lst_sc : List ServerChannel) (m : Moment) :
    (round lst_sc m).1.map (·.socket) = lst_sc.map (·.socket) := by
  unfold round
  dsimp only
  split
  · rfl
  · rw [List.map_map, List.map_map]
    apply List.map_congr_left
    intro sc _
    dsimp only [Function.comp]
    unfold acceptFrom
    split
    · rfl
    · rfl

theorem selectOf_congr {lst_sc' : List ServerChannel}
    (heq : lst_sc'.map (·.socket) = lst_sc.map (·.socket)) :
    selectOf lst_sc' = selectOf lst_sc := by
  have hset : (selectOf lst_sc').set = (selectOf lst_sc).set := by
    rw [selectOf_set, selectOf_set, heq]
  have hnfds : (selectOf lst_sc').nfds = (selectOf lst_sc).nfds := by
    unfold selectOf
    rw [(foldl_addHandle lst_sc' ⟨0, []⟩).2, (foldl_addHandle lst_sc ⟨0, []⟩).2, heq]
  generalize selectOf lst_sc' = s at hset hnfds
  generalize selectOf lst_sc = t at hset hnfds
  cases s
  cases t
  simp_all

theorem run_calls (lst_sc : List ServerChannel) (ms : List Moment) :
    (run lst_sc ms).1 = List.replicate ms.length (selectOf lst_sc) := by
  induction ms generalizing lst_sc with
  | nil => rfl
  | cons m ms ih =>
    unfold run
    dsimp only
    rw [ih, selectOf_congr (round_sockets lst_sc m), List.length_cons, List.replicate_succ]

/-- A round accepts no connection to the socket with the greatest handle where `select`
takes its handle out of the set. -/
theorem round_greatest (hsc : sc ∈ lst_sc) (hpos : 0 ≤ sc.socket)
    (hgreatest : ∀ sc' ∈ lst_sc, sc'.socket ≤ sc.socket) (hleft : m.left sc.socket = false) :
    sc ∈ (round lst_sc m).1 := by
  unfold round
  dsimp only
  split
  · exact hsc
  · rw [List.map_map]
    refine List.mem_map.mpr ⟨sc, hsc, ?_⟩
    have hbeyond : ¬ sc.socket < (selectOf lst_sc).nfds := by
      intro hlt
      obtain ⟨sc', hsc', hlt'⟩ := (lt_nfds_iff hpos).mp hlt
      exact absurd (hgreatest sc' hsc') (by omega)
    have hnot : ¬ ((selectOf lst_sc).ready m).contains sc.socket := by
      intro hready
      obtain ⟨_, hstays⟩ := List.mem_filter.mp (List.contains_iff_mem.mp hready)
      rw [if_neg hbeyond, hleft] at hstays
      exact Bool.noConfusion hstays
    dsimp only [Function.comp]
    rw [acceptFrom, if_neg hnot]

/-- Neither does a run: its index stays as it is. -/
theorem run_greatest (hsc : sc ∈ lst_sc) (hpos : 0 ≤ sc.socket)
    (hgreatest : ∀ sc' ∈ lst_sc, sc'.socket ≤ sc.socket)
    (hleft : ∀ m ∈ ms, m.left sc.socket = false) : sc ∈ (run lst_sc ms).2.1 := by
  induction ms generalizing lst_sc with
  | nil => exact hsc
  | cons m ms ih =>
    obtain ⟨hnow, hlater⟩ := List.forall_mem_cons.mp hleft
    refine ih (round_greatest hsc hpos hgreatest hnow) (fun sc' hsc' => ?_) hlater
    have hmem := List.mem_map_of_mem (f := ServerChannel.socket) hsc'
    rw [round_sockets] at hmem
    obtain ⟨old, hold, heq⟩ := List.mem_map.mp hmem
    rw [← heq]
    exact hgreatest old hold

/-- In the rounds of a run `select` looks at all handles just when there is no round, or each
handle is that of an error. Of those of sockets it misses just the ones that none is greater
than, and no connection is accepted from these unless `select` leaves them in the set unseen. -/
theorem select_misses_the_greatest_handle (lst_sc : List ServerChannel) (ms : List Moment) :
    ((∀ s ∈ (run lst_sc ms).1, s.LooksAtAll) ↔ ms = [] ∨ ∀ sc ∈ lst_sc, sc.socket < 0) ∧
    ∀ sc ∈ lst_sc, 0 ≤ sc.socket →
      ((∃ s ∈ (run lst_sc ms).1, ¬ sc.socket < s.nfds) ↔
        ms ≠ [] ∧ ∀ sc' ∈ lst_sc, sc'.socket ≤ sc.socket) ∧
      ((∀ sc' ∈ lst_sc, sc'.socket ≤ sc.socket) → (∀ m ∈ ms, m.left sc.socket = false) →
        sc ∈ (run lst_sc ms).2.1) := by
  rw [run_calls]
  refine ⟨?_, fun sc hsc hpos => ⟨?_, run_greatest hsc hpos⟩⟩
  · rw [← looksAtAll_iff]
    simp only [List.mem_replicate, ne_eq, List.length_eq_zero_iff, and_imp, forall_eq_apply_imp_iff]
    tauto
  · constructor
    · rintro ⟨s, hs, hnot⟩
      obtain ⟨hne, rfl⟩ := List.mem_replicate.mp hs
      refine ⟨by simpa using hne, fun sc' hsc' => ?_⟩
      by_contra hlt
      exact hnot ((lt_nfds_iff hpos).mpr ⟨sc', hsc', by omega⟩)
    · rintro ⟨hne, hgreatest⟩
      refine ⟨_, List.mem_replicate.mpr ⟨by simpa using hne, rfl⟩, fun hlt => ?_⟩
      obtain ⟨sc', hsc', hlt'⟩ := (lt_nfds_iff hpos).mp hlt
      exact absurd (hgreatest sc' hsc') (by omega)

/-- A server with two sockets, of the handles 3 and 4. -/
def twoServers : List ServerChannel := [⟨[97], [112], 0, 3⟩, ⟨[98], [112], 0, 4⟩]

/-- A connection waits on both, and is accepted from the first only. -/
theorem the_second_of_two_servers_is_skipped :
    ¬ (∀ s ∈ (run twoServers [⟨fun _ => true, fun _ => false, fun _ => 5⟩]).1, s.LooksAtAll) ∧
    (run twoServers [⟨fun _ => true, fun _ => false, fun _ => 5⟩]).2.1 =
      [⟨[97], [112], 1, 3⟩, ⟨[98], [112], 0, 4⟩] := by
  decide

end util.tcp_server
