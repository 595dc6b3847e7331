-- `CAoHttp::ReadData` and `ParseResponse`: the head of a response is looked for in the first piece
-- alone, two of its lines are copied into an array of 256 bytes, and the pieces are counted until
-- the length that was read is reached. The law says when all that is read and written is in place.
import Aods.Json
import Aods.Occurrences
import Aods.Scanf
import Aods.Traced

open machine occurrences scanf traced
open util.json (text)

namespace util.helper

/-- An access to some bytes in a row, of what was received or of `szCnt`. -/
inductive Access where
  | read (start len : Nat)
  | write (start len : Nat)
  deriving DecidableEq, Repr

/-- The loop of `FindFirstBuf` over the bytes from `start` on, with `k` turns left from the one of
`n`. -/
def findFrom (buf psz_find : Bytes) (start n : Nat) : Nat → Traced Access Fault Int
  | 0 => pure (-1)
  | k + 1 => do
    emit (.read (start + n) psz_find.length)
    if (buf.drop (start + n)).take psz_find.length = psz_find then pure (n : Int)
    else findFrom buf psz_find start (n + 1) k

def findFirstBuf (buf : Bytes) (start : Nat) (n_src_len : Int) (psz_find : Bytes) :
    Traced Access Fault Int :=
  if psz_find.length = 0 then pure (-2)
  else findFrom buf psz_find start 0 (n_src_len - psz_find.length + 1).toNat

end util.helper

open util.helper

namespace util.ao_http

/-! ## The model -/

/-- The members of `CAoHttp` that a response changes. -/
structure Http where
  un_offset : Nat
  un_content_len : Nat
  n_http_errcode : Int
  deriving DecidableEq, Repr

def n1KBytes : Nat := 2 * 1024
def snMaxCntLen : Nat := 256

def blankLine : Bytes := [13, 10, 13, 10]
def lineEnd : Bytes := [13, 10]
def pszCntLen : Bytes := text "Content-Length:"

/-- "HTTP/%f %d": the second number, when both are read. -/
def scanStatus (s : Bytes) : Option Int :=
  if text "HTTP/" <+: s then
    (scanF (s.drop 5)).bind fun rest => (scanD (skipSpace rest)).map Prod.fst
  else none

/-- `memcpy` of a line into `szCnt`, and the NUL behind it: the C string that `szCnt` is then. -/
def copyLine (psz_rep : Bytes) (start : Nat) (n_end_pos : Int) : Traced Access Fault Bytes := do
  emits [.read start n_end_pos.toNat, .write 0 n_end_pos.toNat, .write n_end_pos.toNat 1]
  if snMaxCntLen ≤ n_end_pos.toNat then attempt (.error .overrun)
  else pure (cstr ((psz_rep.drop start).take n_end_pos.toNat))

/-- `ParseResponse` behind the status. A length that is not read leaves the old one. -/
def parseLength (h : Http) (psz_rep : Bytes) (n_rep_len : Int) :
    Traced Access Fault (Http × Option Int) := do
  let n_one_cnt_len : Int := pszCntLen.length
  let n_index := (← findFirstBuf psz_rep 0 n_rep_len pszCntLen) + n_one_cnt_len
  if n_index < n_one_cnt_len then pure (h, none)
  else
    let n_end_pos ← findFirstBuf psz_rep n_index.toNat (n_rep_len - n_index) lineEnd
    if n_end_pos < 0 then pure (h, none)
    else
      let sz_cnt ← copyLine psz_rep n_index.toNat n_end_pos
      pure ({ h with un_content_len := ((scanLlu sz_cnt).map Prod.fst).getD h.un_content_len },
        some n_rep_len)

/-- `ParseResponse`: the new `nRepLen` when it is true. -/
def parseResponse (h : Http) (psz_rep : Bytes) (n_rep_len : Int) :
    Traced Access Fault (Http × Option Int) := do
  let n_index ← findFirstBuf psz_rep 0 n_rep_len blankLine
  if n_index < 0 then pure (h, none)
  else
    let n_rep_len := n_index + 4
    let n_end_pos ← findFirstBuf psz_rep 0 n_rep_len lineEnd
    if n_end_pos < 0 then pure (h, none)
    else
      let sz_cnt ← copyLine psz_rep 0 n_end_pos
      match scanStatus sz_cnt with
      | none => pure (h, none)
      | some code => parseLength { h with n_http_errcode := code } psz_rep n_rep_len

/-- What `Recv` can receive at once. -/
abbrev Piece := { b : Bytes // b ≠ [] ∧ b.length ≤ n1KBytes }

/-- What `Recv` may give. -/
inductive Recv where
  | failed
  | closed
  | piece (b : Piece)

/-- `szBuf` behind the first `Recv`. -/
def szBuf (b : Bytes) : Bytes := b ++ List.replicate (n1KBytes - b.length) 0

def u64 (n : Nat) : Nat := n % 18446744073709551616

/-- The loop of `ReadData`, with what the stream has so far. `takes` is whether `Write`, behind
some bytes, takes all of the next ones. When no answer is left `Recv` fails. -/
def readRest (takes : Bytes → Bytes → Bool) (h : Http) (un_has_read_cnt_len : Nat) (taken : Bytes) :
    List Recv → Bool × Http × Bytes
  | [] => (decide (h.un_content_len ≤ un_has_read_cnt_len), h, taken)
  | r :: rs =>
    if un_has_read_cnt_len < h.un_content_len then
      match r with
      | .piece b =>
        if takes taken b.1 then
          readRest takes { h with un_offset := u64 (h.un_offset + b.1.length) }
            (u64 (un_has_read_cnt_len + b.1.length)) (taken ++ b.1) rs
        else (false, h, taken)
      | .failed => (false, h, taken)
      | .closed => (false, h, taken)
    else (true, h, taken)

/-- `ReadData` behind a head of a length: what is behind it in the first piece, and the loop. -/
def readBody (stream : Option (Bytes → Bytes → Bool)) (h : Http) (first_piece : Bytes)
    (n_rep_len : Nat) (rs : List Recv) : Bool × Http × Bytes :=
  match stream with
  | none => (true, h, [])
  | some takes =>
    if h.un_content_len = 0 then (true, h, [])
    else if n_rep_len < first_piece.length then
      let rest := first_piece.drop n_rep_len
      if takes [] rest then
        readRest takes { h with un_offset := u64 (h.un_offset + rest.length) } rest.length rest rs
      else (false, h, [])
    else readRest takes h 0 [] rs

/-- `ReadData`: its answer, the members, and what the stream took. -/
def readData (stream : Option (Bytes → Bytes → Bool)) (h : Http) :
    List Recv → Traced Access Fault (Bool × Http × Bytes)
  | [] | .failed :: _ => do
    let (h, _) ← parseResponse h (szBuf []) (-1)
    pure (false, h, [])
  | .closed :: _ => pure (false, h, [])
  | .piece b :: rs => do
    let (h, n_rep_len) ← parseResponse h (szBuf b.1) b.1.length
    match n_rep_len with
    | none => pure (false, h, [])
    | some n_rep_len => pure (readBody stream h b.1 n_rep_len.toNat rs)

/-! ## Accesses in place -/

/-- A read is in the bytes that were received, and a write in the array. -/
def InPlace (got : Nat) : Access → Prop
  | .read start len => start + len ≤ got
  | .write start len => start + len ≤ snMaxCntLen

def Safe {α : Type} (got : Nat) (x : Traced Access Fault α) : Prop := Leaves (InPlace got) x

/-- Behind a part that is in place all is as behind its value. -/
theorem safe_then {α β : Type} {got : Nat} {x : Traced Access Fault α}
    {f : α → Traced Access Fault β} {a : α} {r : Except Fault β} {S : Prop}
    (hx : x.result = .ok a ∧ Safe got x) (hf : (f a).result = r ∧ (Safe got (f a) ↔ S)) :
    (x >>= f).result = r ∧ (Safe got (x >>= f) ↔ S) := by
  refine ⟨(bind_result_ok hx.1).2.trans hf.1, ?_⟩
  exact (leaves_bind_ok hx.1).trans ((and_iff_right hx.2).trans hf.2)

/-- A position as `FindFirstBuf` gives it. -/
def place : Option Nat → Int
  | some n => n
  | none => -1

theorem place_not_neg (n : Nat) : ¬ place (some n) < 0 := by
  show ¬ (n : Int) < 0
  omega

theorem findFrom_spec {buf find : Bytes} {start n k got : Nat} (hfind : find ≠ [])
    (hroom : start + n + k + find.length ≤ got + 1) (hgot : got ≤ buf.length) :
    (findFrom buf find start n k).result =
        .ok (place ((first find ((buf.drop (start + n)).take (k + find.length - 1))).map (n + ·))) ∧
      Safe got (findFrom buf find start n k) := by
  have hpos : 0 < find.length := List.length_pos_iff.mpr hfind
  induction k generalizing n with
  | zero =>
    rw [first_short (by rw [List.length_take]; omega)]
    exact ⟨rfl, Leaves.pure _⟩
  | succ k ih =>
    obtain ⟨hresult, hsafe⟩ := ih (n := n + 1) (by omega)
    have hin : start + n < buf.length := by omega
    have htext : (buf.drop (start + n)).take (k + 1 + find.length - 1) =
        buf[start + n] :: (buf.drop (start + (n + 1))).take (k + find.length - 1) := by
      rw [List.drop_eq_getElem_cons hin,
        show k + 1 + find.length - 1 = k + find.length - 1 + 1 by omega, List.take_succ_cons,
        Nat.add_assoc]
    have hstands : find.isPrefixOf ((buf.drop (start + n)).take (k + 1 + find.length - 1)) = true ↔
        (buf.drop (start + n)).take find.length = find := by
      rw [List.isPrefixOf_iff_prefix, List.prefix_iff_eq_take, List.take_take,
        Nat.min_eq_left (by omega)]
      exact eq_comm
    rw [findFrom]
    have hread : Safe got (emit (.read (start + n) find.length) : Traced Access Fault Unit) :=
      Leaves.emit (by show start + n + find.length ≤ got; omega)
    rw [result_bind, result_emit]
    simp only [Except.bind]
    by_cases h : (buf.drop (start + n)).take find.length = find
    · rw [if_pos h]
      refine ⟨?_, hread.bind fun _ _ => ?_⟩
      · rw [htext] at hstands ⊢
        rw [first, if_pos (hstands.mpr h)]
        rfl
      · exact Leaves.pure _
    · rw [if_neg h]
      refine ⟨?_, hread.bind fun _ _ => ?_⟩
      · rw [htext] at hstands
        rw [hresult, htext, first, if_neg (fun hp => h (hstands.mp hp)), Option.map_map]
        congr 3
        funext m
        show n + 1 + m = n + (m + 1)
        omega
      · exact hsafe

theorem findFirstBuf_spec {buf find : Bytes} {start len got : Nat} (hfind : find ≠ [])
    (hroom : start + len ≤ got) (hgot : got ≤ buf.length) :
    (findFirstBuf buf start len find).result =
      .ok (place (first find ((buf.drop start).take len))) ∧
      Safe got (findFirstBuf buf start len find) := by
  have hpos : 0 < find.length := List.length_pos_iff.mpr hfind
  unfold findFirstBuf
  rw [if_neg (by omega)]
  by_cases hshort : len < find.length
  · rw [show ((len : Int) - find.length + 1).toNat = 0 by omega,
      first_short (by rw [List.length_take]; omega)]
    exact ⟨rfl, Leaves.pure _⟩
  · obtain ⟨hresult, hsafe⟩ :=
      @findFrom_spec buf find start 0 (len - find.length + 1) got hfind (by omega) hgot
    rw [show ((len : Int) - find.length + 1).toNat = len - find.length + 1 by omega]
    refine ⟨?_, hsafe⟩
    rw [hresult, show len - find.length + 1 + find.length - 1 = len by omega]
    simp

/-! ## The parser -/

/-- The line in front of some bytes. -/
def lineOf (s : Bytes) : Option Bytes := (first lineEnd s).map (s.take ·)

/-- The head of a piece, with its blank line. -/
def headOf (p : Bytes) : Option Bytes := (first blankLine p).map fun n => p.take (n + 4)

/-- The text of the length: the line behind the first "Content-Length:" of a head. -/
def lengthText (head : Bytes) : Option Bytes :=
  (first pszCntLen head).bind fun n => lineOf (head.drop (n + pszCntLen.length))

/-- The length that a text gives, or the old one. -/
def lengthOf (old : Nat) (v : Bytes) : Nat := ((scanLlu (cstr v)).map Prod.fst).getD old

def parsedLength (h : Http) (head : Bytes) : Except Fault (Http × Option Int) :=
  match lengthText head with
  | none => .ok (h, none)
  | some v =>
    if snMaxCntLen ≤ v.length then .error .overrun
    else .ok ({ h with un_content_len := lengthOf h.un_content_len v }, some head.length)

def parsed (h : Http) (p : Bytes) : Except Fault (Http × Option Int) :=
  match headOf p with
  | none => .ok (h, none)
  | some head =>
    match lineOf head with
    | none => .ok (h, none)
    | some line =>
      if snMaxCntLen ≤ line.length then .error .overrun
      else
        match scanStatus (cstr line) with
        | none => .ok (h, none)
        | some code => parsedLength { h with n_http_errcode := code } head

/-- The lines that are copied are short: the first one of the head, and the text of the length
behind a status that is read. -/
def ShortLines (p : Bytes) : Prop :=
  ∀ head line, headOf p = some head → lineOf head = some line → line.length < snMaxCntLen ∧
    (scanStatus (cstr line) ≠ none → ∀ v, lengthText head = some v → v.length < snMaxCntLen)

theorem shortLines_of_none {p : Bytes} (h : ∀ head, headOf p = some head → lineOf head = none) :
    ShortLines p := by
  intro head line hhead hline
  rw [h head hhead] at hline
  cases hline

theorem shortLines_iff {p head line : Bytes} (hhead : headOf p = some head)
    (hline : lineOf head = some line) :
    ShortLines p ↔ line.length < snMaxCntLen ∧
      (scanStatus (cstr line) ≠ none → ∀ v, lengthText head = some v → v.length < snMaxCntLen) := by
  constructor
  · intro h
    exact h head line hhead hline
  · intro h head' line' hhead' hline'
    rw [hhead] at hhead'
    cases hhead'
    rw [hline] at hline'
    cases hline'
    exact h

theorem copyLine_spec {buf : Bytes} {start n got : Nat} (hroom : start + n ≤ got) :
    (copyLine buf start n).result =
        (if snMaxCntLen ≤ n then .error .overrun else .ok (cstr ((buf.drop start).take n))) ∧
      (Safe got (copyLine buf start n) ↔ n < snMaxCntLen) := by
  unfold copyLine
  rw [Int.toNat_natCast, result_bind, result_emits]
  constructor
  · simp only [Except.bind]
    split <;> rfl
  · unfold Safe
    rw [leaves_bind_ok (result_emits _)]
    have hrest : Leaves (InPlace got) (if snMaxCntLen ≤ n then attempt (.error .overrun)
        else pure (cstr ((buf.drop start).take n)) : Traced Access Fault Bytes) := by
      split
      · exact Leaves.attempt _
      · exact Leaves.pure _
    rw [and_iff_left hrest]
    simp only [Leaves, trace_emits, List.forall_mem_cons, InPlace, List.not_mem_nil, false_implies,
      implies_true, and_true]
    omega

/-- A line that is copied has to be short, and else nothing comes behind it. -/
theorem copyLine_then {β : Type} {buf line : Bytes} {start n got : Nat}
    {f : Bytes → Traced Access Fault β} {r : Except Fault β} {S : Prop} (hroom : start + n ≤ got)
    (hgot : got ≤ buf.length) (hline : (buf.drop start).take n = line)
    (hf : (f (cstr line)).result = r ∧ (Safe got (f (cstr line)) ↔ S)) :
    (copyLine buf start n >>= f).result =
      (if snMaxCntLen ≤ line.length then .error .overrun else r) ∧
      (Safe got (copyLine buf start n >>= f) ↔ line.length < snMaxCntLen ∧ S) := by
  have hlen : line.length = n := by
    rw [← hline, List.length_take, List.length_drop]
    omega
  obtain ⟨hresult, hsafe⟩ := @copyLine_spec buf start n got hroom
  rw [hline] at hresult
  rw [hlen]
  by_cases hlong : snMaxCntLen ≤ n
  · rw [if_pos hlong] at hresult
    rw [if_pos hlong]
    refine ⟨(bind_result_error hresult).2,
      iff_of_false (fun h => ?_) (fun h => absurd h.1 (Nat.not_lt_of_le hlong))⟩
    exact absurd (hsafe.mp ((leaves_bind_error hresult).mp h)) (Nat.not_lt_of_le hlong)
  · rw [if_neg hlong] at hresult
    rw [if_neg hlong]
    have hshort := Nat.lt_of_not_le hlong
    obtain ⟨hthen, hthenSafe⟩ := safe_then ⟨hresult, hsafe.mpr hshort⟩ hf
    exact ⟨hthen, hthenSafe.trans (and_iff_right hshort).symm⟩

theorem parseLength_spec (h : Http) {buf : Bytes} {len got : Nat} (hlen : len ≤ got)
    (hgot : got ≤ buf.length) :
    (parseLength h buf len).result = parsedLength h (buf.take len) ∧
      (Safe got (parseLength h buf len) ↔ ∀ v, lengthText (buf.take len) = some v →
        v.length < snMaxCntLen) := by
  have hfound := @findFirstBuf_spec buf pszCntLen 0 len got (by decide) (by omega) hgot
  rw [List.drop_zero] at hfound
  unfold parseLength parsedLength
  refine safe_then hfound ?_
  dsimp only
  unfold lengthText
  cases hfirst : first pszCntLen (buf.take len) with
  | none => exact ⟨rfl, iff_of_true (Leaves.pure _) (by simp)⟩
  | some n =>
    have hroom := first_room hfirst
    rw [List.length_take, Nat.min_eq_left (by omega)] at hroom
    have hindex : place (some n) + (pszCntLen.length : Int) =
        ((n + pszCntLen.length : Nat) : Int) := by
      simp [place]
    have hleft : (len : Int) - ((n + pszCntLen.length : Nat) : Int) =
        ((len - (n + pszCntLen.length) : Nat) : Int) := by
      omega
    have hend :=
      @findFirstBuf_spec buf lineEnd (n + pszCntLen.length) (len - (n + pszCntLen.length)) got
      (by decide) (by omega) hgot
    rw [← List.drop_take] at hend
    have hnot : ¬ ((n + pszCntLen.length : Nat) : Int) < (pszCntLen.length : Int) := by omega
    rw [hindex, hleft, Int.toNat_natCast, if_neg hnot]
    refine safe_then hend ?_
    dsimp only [Option.bind, lineOf]
    cases hline : first lineEnd ((buf.take len).drop (n + pszCntLen.length)) with
    | none => exact ⟨rfl, iff_of_true (Leaves.pure _) (by simp)⟩
    | some m =>
      have hin := first_room hline
      rw [List.length_drop, List.length_take, Nat.min_eq_left (by omega)] at hin
      have htext : (buf.drop (n + pszCntLen.length)).take m =
          ((buf.take len).drop (n + pszCntLen.length)).take m := by
        rw [List.drop_take, List.take_take, Nat.min_eq_left (by omega)]
      rw [if_neg (place_not_neg m)]
      have hcopy := copyLine_then (by omega) hgot htext (f := fun sz_cnt => pure
        ({ h with un_content_len := ((scanLlu sz_cnt).map Prod.fst).getD h.un_content_len },
          some (len : Int)))
        ⟨rfl, iff_of_true (Leaves.pure _) trivial⟩
      refine ⟨hcopy.1.trans ?_, hcopy.2.trans ?_⟩
      · rw [List.length_take (i := len), Nat.min_eq_left (by omega)]
        rfl
      · simp

theorem parseResponse_spec (h : Http) (p : Bytes) :
    (parseResponse h (szBuf p) p.length).result = parsed h p ∧
      (Safe p.length (parseResponse h (szBuf p) p.length) ↔ ShortLines p) := by
  have hgot : p.length ≤ (szBuf p).length := by
    unfold szBuf
    rw [List.length_append]
    omega
  have htake (n : Nat) (hn : n ≤ p.length) : (szBuf p).take n = p.take n :=
    List.take_append_of_le_length hn
  have hfound :=
    @findFirstBuf_spec (szBuf p) blankLine 0 p.length p.length (by decide) (by omega) hgot
  rw [List.drop_zero, htake _ (Nat.le_refl _), List.take_length] at hfound
  unfold parseResponse parsed
  refine safe_then hfound ?_
  dsimp only
  cases hfirst : first blankLine p with
  | none =>
    have hhead : headOf p = none := by rw [headOf, hfirst]; rfl
    rw [hhead]
    exact ⟨rfl, iff_of_true (Leaves.pure _) (shortLines_of_none (by simp [hhead]))⟩
  | some n =>
    have hroom : n + 4 ≤ p.length := first_room hfirst
    have hhead : headOf p = some (p.take (n + 4)) := by rw [headOf, hfirst]; rfl
    have hrep : place (some n) + 4 = ((n + 4 : Nat) : Int) := rfl
    have hend := @findFirstBuf_spec (szBuf p) lineEnd 0 (n + 4) p.length (by decide) (by omega) hgot
    rw [List.drop_zero, htake _ hroom] at hend
    rw [if_neg (place_not_neg n), hrep, hhead]
    refine safe_then hend ?_
    dsimp only
    cases hfirst : first lineEnd (p.take (n + 4)) with
    | none =>
      have hline : lineOf (p.take (n + 4)) = none := by rw [lineOf, hfirst]; rfl
      rw [hline]
      refine ⟨rfl, iff_of_true (Leaves.pure _) (shortLines_of_none fun head h => ?_)⟩
      rw [hhead] at h
      cases h
      exact hline
    | some m =>
      have hline : lineOf (p.take (n + 4)) = some ((p.take (n + 4)).take m) := by
        rw [lineOf, hfirst]; rfl
      have hin : m + 2 ≤ (p.take (n + 4)).length := first_room hfirst
      rw [List.length_take, Nat.min_eq_left hroom] at hin
      have htext : ((szBuf p).drop 0).take m = (p.take (n + 4)).take m := by
        rw [List.drop_zero, htake _ (by omega), List.take_take, Nat.min_eq_left (by omega)]
      rw [shortLines_iff hhead hline, if_neg (place_not_neg m), hline]
      refine copyLine_then (by omega) hgot htext ?_
      cases hstatus : scanStatus (cstr ((p.take (n + 4)).take m)) with
      | none => exact ⟨rfl, iff_of_true (Leaves.pure _) (fun h => absurd rfl h)⟩
      | some code =>
        obtain ⟨hresult, hsafe⟩ := parseLength_spec { h with n_http_errcode := code } hroom hgot
        rw [htake _ hroom] at hresult hsafe
        exact ⟨hresult, hsafe.trans ⟨fun h _ => h, fun h => h (Option.some_ne_none _)⟩⟩

/-- Whatever comes first, all that the parser reads is in what was received and all that it writes
is in the array just when the lines that it copies are short. A `Recv` that fails gives nothing to
read. -/
theorem the_parser_stays_in_place_just_when_the_lines_are_short (h : Http) :
    Safe 0 (parseResponse h (szBuf []) (-1)) ∧
      ∀ p : Piece, Safe p.1.length (parseResponse h (szBuf p.1) p.1.length) ↔ ShortLines p.1 := by
  refine ⟨?_, fun p => (parseResponse_spec h p.1).2⟩
  have hnothing : parseResponse h (szBuf []) (-1) = pure (h, none) := rfl
  rw [hnothing]
  exact Leaves.pure _

/-- A response whose first line has 256 bytes, the reason being the last 243. -/
def longLine : Bytes := text "HTTP/1.1 200 " ++ List.replicate 243 79 ++ blankLine

/-- The NUL behind it is written behind the array. -/
theorem a_line_of_256_bytes_is_not_in_place :
    ¬ Safe longLine.length (parseResponse ⟨0, 0, 0⟩ (szBuf longLine) longLine.length) := by
  rw [(parseResponse_spec ⟨0, 0, 0⟩ longLine).2]
  intro h
  have hshort :=
    (h longLine (text "HTTP/1.1 200 " ++ List.replicate 243 79) (by decide +kernel)
      (by decide +kernel)).1
  exact absurd hshort (by decide +kernel)

end util.ao_http
