-- What a download of `CAoHttp` comes to. The runs of `ReadData` that are true are told by the
-- first piece and the count of the pieces; the laws say which responses are downloaded whole, and
-- which are taken for one though they are none.
import Aods.HttpGrammar
import Aods.HttpReads

open machine occurrences scanf traced
open util.json (text)

namespace util.ao_http

variable {takes : Bytes → Bytes → Bool} {h h' : Http} {p taken : Bytes} {n has : Nat}
  {bs : List Piece} {rs : List Recv}

/-! ## The count -/

/-- The count gets to a length with the last of the pieces, and not before. -/
def Reaches (len : Nat) : Nat → List Piece → Prop
  | has, [] => len ≤ has
  | has, b :: bs => has < len ∧ Reaches len (u64 (has + b.1.length)) bs

/-- The stream takes some writes, one behind the other. -/
def TakesAll (takes : Bytes → Bytes → Bool) : Bytes → List Bytes → Prop
  | _, [] => True
  | taken, b :: bs => takes taken b = true ∧ TakesAll takes (taken ++ b) bs

def joined (bs : List Piece) : Bytes := bs.flatMap (·.1)

theorem readRest_reached (hreached : h.un_content_len ≤ has) (rs : List Recv) :
    readRest takes h has taken rs = (true, h, taken) := by
  cases rs with
  | nil => exact congrArg (fun b => (b, h, taken)) (decide_eq_true hreached)
  | cons r rs => exact if_neg (Nat.not_lt_of_le hreached)

theorem readRest_next (hlt : has < h.un_content_len) (b : Piece) (rs : List Recv) :
    readRest takes h has taken (.piece b :: rs) =
      if takes taken b.1 then
        readRest takes { h with un_offset := u64 (h.un_offset + b.1.length) }
          (u64 (has + b.1.length)) (taken ++ b.1) rs
      else (false, h, taken) := if_pos hlt

theorem joined_cons (b : Piece) (bs : List Piece) : joined (b :: bs) = b.1 ++ joined bs :=
  List.flatMap_cons

theorem readRest_of_reaches (bs : List Piece) (rs : List Recv)
    (hreaches : Reaches h.un_content_len has bs) (htakes : TakesAll takes taken (bs.map (·.1))) :
    ∃ offset, readRest takes h has taken (bs.map Recv.piece ++ rs) =
      (true, { h with un_offset := offset }, taken ++ joined bs) := by
  induction bs generalizing h has taken with
  | nil =>
    exact ⟨h.un_offset,
      (readRest_reached hreaches rs).trans (by rw [joined, List.flatMap_nil, List.append_nil])⟩
  | cons b bs ih =>
    obtain ⟨hlt, hreaches⟩ := hreaches
    obtain ⟨htake, htakes⟩ := htakes
    obtain ⟨offset, hrest⟩ :=
      @ih { h with un_offset := u64 (h.un_offset + b.1.length) } _ _ hreaches htakes
    refine ⟨offset, ?_⟩
    rw [List.map_cons, List.cons_append, readRest_next hlt, if_pos htake, hrest, joined_cons,
      List.append_assoc]

theorem reaches_of_readRest (hread : readRest takes h has taken rs = (true, h', p)) :
    ∃ bs rs', rs = bs.map Recv.piece ++ rs' ∧ Reaches h.un_content_len has bs ∧
      TakesAll takes taken (bs.map (·.1)) ∧
      p = taken ++ joined bs := by
  induction rs generalizing h has taken with
  | nil =>
    by_cases hlt : has < h.un_content_len
    · have hfalse : decide (h.un_content_len ≤ has) = true := (Prod.mk.inj hread).1
      exact absurd (of_decide_eq_true hfalse) (Nat.not_le_of_lt hlt)
    · rw [readRest_reached (Nat.le_of_not_lt hlt)] at hread
      cases hread
      exact ⟨[], [], rfl, Nat.le_of_not_lt hlt, trivial, (List.append_nil _).symm⟩
  | cons r rs ih =>
    by_cases hlt : has < h.un_content_len
    · cases r with
      | failed =>
        unfold readRest at hread
        rw [if_pos hlt] at hread
        cases hread
      | closed =>
        unfold readRest at hread
        rw [if_pos hlt] at hread
        cases hread
      | piece b =>
        rw [readRest_next hlt] at hread
        by_cases htake : takes taken b.1 = true
        · rw [if_pos htake] at hread
          obtain ⟨bs, rs', rfl, hreaches, htakes, rfl⟩ := ih hread
          refine ⟨b :: bs, rs', rfl, ⟨hlt, hreaches⟩, ⟨htake, htakes⟩, ?_⟩
          rw [joined_cons, List.append_assoc]
        · rw [if_neg htake] at hread
          cases hread
    · rw [readRest_reached (Nat.le_of_not_lt hlt)] at hread
      cases hread
      exact ⟨[], r :: rs, rfl, Nat.le_of_not_lt hlt, trivial, (List.append_nil _).symm⟩

/-- The loop is true for pieces that the count reaches the length with. -/
theorem readRest_iff (out : Bytes) :
    (∃ h', readRest takes h has taken rs = (true, h', out)) ↔
      ∃ bs rs', rs = bs.map Recv.piece ++ rs' ∧ Reaches h.un_content_len has bs ∧
        TakesAll takes taken (bs.map (·.1)) ∧ out = taken ++ joined bs := by
  constructor
  · rintro ⟨h', hread⟩
    exact reaches_of_readRest hread
  · rintro ⟨bs, rs', rfl, hreaches, htakes, rfl⟩
    obtain ⟨offset, hread⟩ := readRest_of_reaches bs rs' hreaches htakes
    exact ⟨_, hread⟩

theorem readRest_len (takes : Bytes → Bytes → Bool) (h : Http) (has : Nat) (taken : Bytes)
    (rs : List Recv) :
    (readRest takes h has taken rs).2.1.un_content_len = h.un_content_len := by
  induction rs generalizing h has taken with
  | nil => rfl
  | cons r rs ih =>
    by_cases hlt : has < h.un_content_len
    · cases r with
      | failed =>
        unfold readRest
        rw [if_pos hlt]
      | closed =>
        unfold readRest
        rw [if_pos hlt]
      | piece b =>
        rw [readRest_next hlt]
        split
        · exact ih _ _ _
        · rfl
    · rw [readRest_reached (Nat.le_of_not_lt hlt)]

theorem readBody_len (stream : Option (Bytes → Bytes → Bool)) (h : Http) (p : Bytes) (n : Nat)
    (rs : List Recv) :
    (readBody stream h p n rs).2.1.un_content_len = h.un_content_len := by
  unfold readBody
  cases stream with
  | none => rfl
  | some takes =>
    dsimp only
    split
    · rfl
    split
    · split
      · exact readRest_len _ _ _ _ _
      · rfl
    · exact readRest_len _ _ _ _ _

/-! ## True answers -/

/-- The writes of a download: what is behind the head in the first piece, if anything is, and the
pieces. -/
def writes (rest : Bytes) (bs : List Piece) : List Bytes :=
  if rest = [] then bs.map (·.1) else rest :: bs.map (·.1)

theorem writes_nil (bs : List Piece) : writes [] bs = bs.map (·.1) := if_pos rfl

theorem writes_of_ne {rest : Bytes} (h : rest ≠ []) (bs : List Piece) :
    writes rest bs = rest :: bs.map (·.1) := if_neg h

/-- What the stream gets for a length, when the answer is true. -/
def Delivers (takes : Bytes → Bytes → Bool) (len : Nat) (rest : Bytes) (rs : List Recv)
    (taken : Bytes) : Prop :=
  (len = 0 ∧ taken = []) ∨
    (len ≠ 0 ∧ ∃ bs rs', rs = bs.map Recv.piece ++ rs' ∧ Reaches len rest.length bs ∧
      TakesAll takes [] (writes rest bs) ∧ taken = rest ++ joined bs)

/-- A first piece is taken, with its head and the text of the length. -/
structure Accepts (p head v : Bytes) : Prop where
  first_head : headOf p = some head
  status : ∃ line code, lineOf head = some line ∧ line.length < snMaxCntLen ∧
    scanStatus (cstr line) = some code
  length : lengthText head = some v
  short : v.length < snMaxCntLen

theorem length_head {head : Bytes} (hhead : headOf p = some head) :
    head = p.take head.length ∧ head.length ≤ p.length := by
  obtain ⟨k, hk, rfl⟩ := Option.map_eq_some_iff.mp hhead
  have hroom : k + 4 ≤ p.length := first_room hk
  rw [List.length_take, Nat.min_eq_left hroom]
  exact ⟨rfl, hroom⟩

theorem parsed_of_accepts {head v : Bytes} (hacc : Accepts p head v) :
    ∃ code, parsed h p =
      .ok ({ h with n_http_errcode := code, un_content_len := lengthOf h.un_content_len v },
      some (head.length : Int)) := by
  obtain ⟨hhead, ⟨line, code, hline, hshort, hstatus⟩, hlength, hvshort⟩ := hacc
  refine ⟨code, ?_⟩
  unfold parsed
  rw [hhead]
  dsimp only
  rw [hline]
  dsimp only
  rw [if_neg (Nat.not_le_of_lt hshort), hstatus]
  dsimp only
  unfold parsedLength
  rw [hlength]
  dsimp only
  rw [if_neg (Nat.not_le_of_lt hvshort)]

theorem accepts_of_parsed {k : Int} (hparsed : parsed h p = .ok (h', some k)) :
    ∃ head v, Accepts p head v ∧ k = head.length ∧
      h'.un_content_len = lengthOf h.un_content_len v := by
  unfold parsed at hparsed
  cases hhead : headOf p with
  | none => rw [hhead] at hparsed; cases hparsed
  | some head =>
    rw [hhead] at hparsed
    dsimp only at hparsed
    cases hline : lineOf head with
    | none => rw [hline] at hparsed; cases hparsed
    | some line =>
      rw [hline] at hparsed
      dsimp only at hparsed
      split at hparsed
      · cases hparsed
      rename_i hshort
      cases hstatus : scanStatus (cstr line) with
      | none => rw [hstatus] at hparsed; cases hparsed
      | some code =>
        rw [hstatus] at hparsed
        dsimp only at hparsed
        unfold parsedLength at hparsed
        cases hlength : lengthText head with
        | none => rw [hlength] at hparsed; cases hparsed
        | some v =>
          rw [hlength] at hparsed
          dsimp only at hparsed
          split at hparsed
          · cases hparsed
          rename_i hvshort
          cases hparsed
          exact ⟨head, v, ⟨hhead, ⟨line, code, hline, Nat.lt_of_not_le hshort, hstatus⟩, hlength,
            Nat.lt_of_not_le hvshort⟩, rfl, rfl⟩

theorem readBody_iff (n : Nat) (taken : Bytes) :
    (∃ h', readBody (some takes) h p n rs = (true, h', taken)) ↔
      Delivers takes h.un_content_len (p.drop n) rs taken := by
  unfold readBody Delivers
  dsimp only
  by_cases hzero : h.un_content_len = 0
  · rw [if_pos hzero]
    constructor
    · rintro ⟨_, heq⟩
      cases heq
      exact Or.inl ⟨hzero, rfl⟩
    · rintro (⟨_, rfl⟩ | ⟨hne, _⟩)
      · exact ⟨h, rfl⟩
      · exact absurd hzero hne
  · rw [if_neg hzero, or_iff_right (fun hz => hzero hz.1), and_iff_right hzero]
    by_cases hmore : n < p.length
    · have hne : p.drop n ≠ [] := by
        rw [Ne, List.drop_eq_nil_iff]
        exact Nat.not_le_of_lt hmore
      rw [if_pos hmore]
      simp only [writes_of_ne hne]
      by_cases htake : takes [] (p.drop n) = true
      · rw [if_pos htake]
        refine (readRest_iff taken).trans ⟨?_, ?_⟩
        · rintro ⟨bs, rs', hrs, hreaches, htakes, hout⟩
          exact ⟨bs, rs', hrs, hreaches, ⟨htake, htakes⟩, hout⟩
        · rintro ⟨bs, rs', hrs, hreaches, htakes, hout⟩
          exact ⟨bs, rs', hrs, hreaches, htakes.2, hout⟩
      · rw [if_neg htake]
        refine iff_of_false ?_ ?_
        · rintro ⟨_, heq⟩
          cases heq
        · rintro ⟨_, _, _, _, htakes, _⟩
          exact htake htakes.1
    · have hnil : p.drop n = [] := List.drop_eq_nil_of_le (Nat.le_of_not_lt hmore)
      rw [if_neg hmore, hnil]
      simp only [writes_nil]
      exact readRest_iff taken

theorem readData_piece (stream : Option (Bytes → Bytes → Bool)) (h : Http) (b : Piece)
    (rs : List Recv) :
    (readData stream h (.piece b :: rs)).result =
      (parsed h b.1).map fun r =>
        match r.2 with
        | none => (false, r.1, [])
        | some n_rep_len => readBody stream r.1 b.1 n_rep_len.toNat rs := by
  rw [readData, result_bind, (parseResponse_spec h b.1).1]
  cases parsed h b.1 with
  | error e => rfl
  | ok r =>
    obtain ⟨h', n_rep_len⟩ := r
    cases n_rep_len <;> rfl

/-- The answers that are true: the first piece is taken, and what comes behind its head is
delivered. -/
theorem readData_iff (len : Nat) (taken : Bytes) :
    (∃ h', (readData (some takes) h rs).result = .ok (true, h', taken) ∧ h'.un_content_len = len) ↔
      ∃ (b : Piece) (rs' : List Recv) (head v : Bytes), rs = .piece b :: rs' ∧ Accepts b.1 head v ∧
        len = lengthOf h.un_content_len v ∧
          Delivers takes len (b.1.drop head.length) rs' taken := by
  constructor
  · rintro ⟨h', hread, rfl⟩
    -- without a first piece the answer is false
    have hfirst : ∃ b rs', rs = .piece b :: rs' := by
      match rs with
      | [] => cases hread
      | .failed :: _ => cases hread
      | .closed :: _ => cases hread
      | .piece b :: rs' => exact ⟨b, rs', rfl⟩
    obtain ⟨b, rs', rfl⟩ := hfirst
    rw [readData_piece] at hread
    cases hparsed : parsed h b.1 with
    | error e =>
      rw [hparsed] at hread
      cases hread
    | ok r =>
      obtain ⟨h1, n_rep_len⟩ := r
      rw [hparsed] at hread
      cases n_rep_len with
      | none => cases hread
      | some k =>
        obtain ⟨head, v, hacc, rfl, hlen⟩ := accepts_of_parsed hparsed
        have hbody : readBody (some takes) h1 b.1 head.length rs' = (true, h', taken) :=
          Except.ok.inj hread
        have hsame := readBody_len (some takes) h1 b.1 head.length rs'
        rw [hbody] at hsame
        have hdelivers := (readBody_iff head.length taken).mp ⟨h', hbody⟩
        rw [← hsame] at hdelivers
        exact ⟨b, rs', head, v, rfl, hacc, hsame.trans hlen, hdelivers⟩
  · rintro ⟨b, rs', head, v, rfl, hacc, rfl, hdelivers⟩
    obtain ⟨code, hparsed⟩ := parsed_of_accepts (h := h) hacc
    obtain ⟨h', hbody⟩ :=
      (readBody_iff
        (h := { h with n_http_errcode := code, un_content_len := lengthOf h.un_content_len v })
      head.length taken).mpr hdelivers
    have hsame := readBody_len (some takes)
      { h with n_http_errcode := code, un_content_len := lengthOf h.un_content_len v } b.1
        head.length rs'
    rw [hbody] at hsame
    refine ⟨h', ?_, hsame⟩
    rw [readData_piece, hparsed]
    exact congrArg Except.ok hbody

/-! ## What is taken for a response -/

/-- All that a server sent. -/
def received (rs : List Recv) : Bytes :=
  rs.flatMap fun r =>
    match r with
    | .piece b => b.1
    | _ => []

/-- A head says that all went well, and the length. -/
def Says (head : Bytes) (len : Nat) : Prop := http.Succeeds head ∧ http.LengthIs head len

/-- What was taken from the bytes that came is the body of a response of this length. -/
def IsBody (data : Bytes) (len : Nat) (taken : Bytes) : Prop :=
  ∃ head, headOf data = some head ∧ Says head len ∧ taken = (data.drop head.length).take len ∧
    taken.length = len

/-- The answers that are taken though they are no whole response: the first piece is taken and the
pieces are delivered, but the head does not say so, or the pieces have another length. -/
def DoneWrongly (takes : Bytes → Bytes → Bool) (h : Http) (rs : List Recv) : Prop :=
  ∃ (b : Piece) (rs' : List Recv) (head v taken : Bytes), rs = .piece b :: rs' ∧
    Accepts b.1 head v ∧
    Delivers takes (lengthOf h.un_content_len v) (b.1.drop head.length) rs' taken ∧
    ¬ (Says head (lengthOf h.un_content_len v) ∧ taken.length = lengthOf h.un_content_len v)

theorem headOf_append {head : Bytes} (hhead : headOf p = some head) (s : Bytes) :
    headOf (p ++ s) = some head := by
  obtain ⟨k, hk, rfl⟩ := Option.map_eq_some_iff.mp hhead
  have hroom : k + 4 ≤ p.length := first_room hk
  rw [headOf, first_append_of_some hk, Option.map_some, List.take_append_of_le_length hroom]

theorem received_pieces (bs : List Piece) (rs : List Recv) :
    received (bs.map Recv.piece ++ rs) = joined bs ++ received rs := by
  unfold received joined
  rw [List.flatMap_append, List.flatMap_map]

theorem delivered_take {rest : Bytes} {len : Nat} (hdelivers : Delivers takes len rest rs taken)
    (hlen : taken.length = len) : taken = (rest ++ received rs).take len := by
  obtain ⟨rfl, rfl⟩ | ⟨_, bs, rs', rfl, _, _, rfl⟩ := hdelivers
  · rfl
  · rw [received_pieces, ← List.append_assoc, ← hlen, List.take_left]

/-- The downloads that are true give the body of a response just when they are not done wrongly. -/
theorem a_true_download_is_a_body_just_when_it_is_not_done_wrongly (takes : Bytes → Bytes → Bool)
    (h : Http) (rs : List Recv) :
    (∀ h' taken, (readData (some takes) h rs).result = .ok (true, h', taken) →
        IsBody (received rs) h'.un_content_len taken) ↔ ¬ DoneWrongly takes h rs := by
  constructor
  · rintro hall ⟨b, rs', head, v, taken, rfl, hacc, hdelivers, hnot⟩
    obtain ⟨h', hread, hlen⟩ :=
      (readData_iff _ taken).mpr ⟨b, rs', head, v, rfl, hacc, rfl, hdelivers⟩
    obtain ⟨head', hhead, hsaid, _, hlength⟩ := hall h' taken hread
    have hsame : headOf (received (.piece b :: rs')) = some head := headOf_append hacc.first_head _
    rw [hsame] at hhead
    cases hhead
    rw [hlen] at hsaid hlength
    exact hnot ⟨hsaid, hlength⟩
  · intro hnot h' taken hread
    obtain ⟨b, rs', head, v, rfl, hacc, hlen, hdelivers⟩ :=
      (readData_iff _ taken).mp ⟨h', hread, rfl⟩
    by_cases hgood : Says head h'.un_content_len ∧ taken.length = h'.un_content_len
    · refine ⟨head, headOf_append hacc.first_head _, hgood.1, ?_, hgood.2⟩
      have hall : received (.piece b :: rs') = b.1 ++ received rs' := List.flatMap_cons
      rw [hall, List.drop_append_of_le_length (length_head hacc.first_head).2]
      exact delivered_take hdelivers hgood.2
    · rw [hlen] at hdelivers hgood
      exact absurd ⟨b, rs', head, v, taken, rfl, hacc, hdelivers, hgood⟩ hnot

/-- What a server sends for a package that it does not have. -/
def notFound : Piece :=
  ⟨text "HTTP/1.1 404 Not Found" ++ lineEnd ++ text "Content-Length: 1" ++ blankLine ++
    text "x", by decide⟩

/-- Its text is downloaded as the package. -/
theorem what_is_not_found_is_downloaded :
    (readData (some fun _ _ => true) ⟨0, 0, 0⟩ [.piece notFound]).result =
      .ok (true, ⟨1, 1, 404⟩, text "x") ∧
      ¬ IsBody (received [.piece notFound]) 1 (text "x") := by
  refine ⟨by rfl, ?_⟩
  rintro ⟨head, hhead, ⟨⟨code, hcode, hgood⟩, _⟩, _⟩
  have hfirst : headOf (received [.piece notFound]) =
      some (text "HTTP/1.1 404 Not Found" ++ lineEnd ++ text "Content-Length: 1" ++ blankLine) := by
        rfl
  rw [hfirst] at hhead
  cases hhead
  have hstatus : http.statusCode
      ((http.lines (text "HTTP/1.1 404 Not Found" ++ lineEnd ++ text "Content-Length: 1" ++
      blankLine)).headD []) = some 404 := by rfl
  rw [hstatus] at hcode
  cases hcode
  exact absurd hgood (by decide)

/-! ## What is downloaded whole -/

theorem scanStatus_statusLine (d : http.Head) :
    ∃ code, scanStatus (cstr d.statusLine) = some code := by
  obtain ⟨hthree, hdigits⟩ := d.code_good
  have hne : d.code ≠ [] := by
    intro hnil
    rw [hnil] at hthree
    cases hthree
  have hstop : ∀ b ∈ (32 :: d.reason).head?, isDigit b = false := by
    intro b hb
    cases hb
    decide
  obtain ⟨c, hc⟩ : ∃ c, scanD (d.code ++ 32 :: d.reason) = some c :=
    ⟨_, congrArg (Option.map _) (signed_digits hne hdigits hstop [] (by simp))⟩
  have hskip : skipSpace (32 :: (d.code ++ 32 :: d.reason)) = d.code ++ 32 :: d.reason := by
    obtain ⟨b, t, hcons⟩ := List.exists_cons_of_ne_nil hne
    have hb : isSpace b = false :=
      isSpace_of_digit (hdigits b (by rw [hcons]; exact List.mem_cons_self))
    have hblank : isSpace 32 = true := by decide
    simp [skipSpace, hcons, hb, hblank]
  have hline : d.statusLine =
      text "HTTP/" ++ d.major :: 46 :: d.minor :: 32 :: (d.code ++ 32 :: d.reason) := by
    simp [http.Head.statusLine]
    rfl
  refine ⟨c.1, ?_⟩
  rw [cstr_of_notMem d.statusLine_plain.2.2, scanStatus, hline, if_pos (List.prefix_append _ _)]
  have hdrop : (text "HTTP/" ++ d.major :: 46 :: d.minor :: 32 :: (d.code ++ 32 :: d.reason)).drop
      5 =
      d.major :: 46 :: d.minor :: 32 :: (d.code ++ 32 :: d.reason) := rfl
  rw [hdrop, scanF_version d.version_good.1 d.version_good.2]
  dsimp only [Option.bind]
  rw [hskip, hc]
  rfl

theorem headOf_bytes (d : http.Head) (body : Bytes) : headOf (d.bytes ++ body) = some d.bytes := by
  have hfirst : first blankLine (d.bytes ++ body) = some (d.bytes.length - 4) := d.first_blank body
  rw [headOf, hfirst, Option.map_some, Nat.sub_add_cancel d.length_bytes, List.take_left]

theorem lineOf_bytes (d : http.Head) : lineOf d.bytes = some d.statusLine := by
  have hfirst : first lineEnd d.bytes = some d.statusLine.length := d.first_line
  rw [lineOf, hfirst, Option.map_some, http.Head.bytes, List.append_assoc, List.take_left]

/-- The first piece of a response tells of it: it has the whole head, the lines that are copied are
short, and the length that is read is reached with the last piece and not before. A length of 0 is
reached by a response without a body. -/
def Told (h : Http) (r : http.Response) (ps : List Piece) : Prop :=
  ∃ (b : Piece) (bs : List Piece) (v : Bytes), ps = b :: bs ∧ r.head.bytes.length ≤ b.1.length ∧
    r.head.statusLine.length < snMaxCntLen ∧ lengthText r.head.bytes = some v ∧
      v.length < snMaxCntLen ∧
    ((lengthOf h.un_content_len v = 0 ∧ r.body = []) ∨
      (lengthOf h.un_content_len v ≠ 0 ∧
        Reaches (lengthOf h.un_content_len v) (b.1.length - r.head.bytes.length) bs))

theorem joined_eq_nil {bs : List Piece} (h : joined bs = []) : bs = [] := by
  cases bs with
  | nil => rfl
  | cons b bs =>
    rw [joined_cons, List.append_eq_nil_iff] at h
    exact absurd h.1 b.2.1

theorem joined_append (bs cs : List Piece) : joined (bs ++ cs) = joined bs ++ joined cs :=
  List.flatMap_append

/-- The length of all the pieces is reached with the last of them. -/
theorem reaches_of_length {len : Nat} (hlen : len < 18446744073709551616) (bs : List Piece)
    (has : Nat) (hall : has + (joined bs).length = len) : Reaches len has bs := by
  induction bs generalizing has with
  | nil => exact Nat.le_of_eq hall.symm
  | cons b bs ih =>
    have hpos := List.length_pos_iff.mpr b.2.1
    rw [joined_cons, List.length_append] at hall
    have hsum : u64 (has + b.1.length) = has + b.1.length := Nat.mod_eq_of_lt (by omega)
    refine ⟨by omega, ?_⟩
    rw [hsum]
    exact ih _ (by omega)

theorem takesAll_of_always (taken : Bytes) (ws : List Bytes) :
    TakesAll (fun _ _ => true) taken ws := by
  induction ws generalizing taken with
  | nil => trivial
  | cons w ws ih => exact ⟨rfl, ih _⟩

/-- Of a response in pieces the first one has the head when it is long enough, and the body is what
is behind that and the other pieces. -/
theorem body_of_pieces {r : http.Response} {b : Piece} (hroom : r.head.bytes.length ≤ b.1.length)
    (hcut : b.1 ++ joined bs = r.bytes) :
    headOf b.1 = some r.head.bytes ∧ r.body = b.1.drop r.head.bytes.length ++ joined bs := by
  have hfront : b.1.take r.head.bytes.length = r.head.bytes := by
    have htake := congrArg (List.take r.head.bytes.length) hcut
    rwa [List.take_append_of_le_length hroom, http.Response.bytes, List.take_left] at htake
  have hparts := List.take_append_drop r.head.bytes.length b.1
  rw [hfront] at hparts
  constructor
  · rw [← hparts]
    exact headOf_bytes r.head _
  · rw [← hparts, http.Response.bytes, List.append_assoc, List.append_cancel_left_eq] at hcut
    exact hcut.symm

theorem head_of_accepts {r : http.Response} {b : Piece} {head v : Bytes} (hacc : Accepts b.1 head v)
    (hcut : b.1 ++ joined bs = r.bytes) :
    head = r.head.bytes ∧ r.head.statusLine.length < snMaxCntLen := by
  have hfirst := headOf_append hacc.first_head (joined bs)
  rw [hcut, http.Response.bytes, headOf_bytes] at hfirst
  cases hfirst
  obtain ⟨line, code, hline, hshort, _⟩ := hacc.status
  rw [lineOf_bytes] at hline
  cases hline
  exact ⟨rfl, hshort⟩

theorem all_of_delivered {cs : List Piece} {rs' : List Recv} {rest : Bytes}
    (hsplit : bs.map Recv.piece = cs.map Recv.piece ++ rs')
    (hbody : rest ++ joined cs = rest ++ joined bs) :
    cs = bs := by
  obtain ⟨l1, l2, rfl, hl1, rfl⟩ := List.map_eq_append_iff.mp hsplit
  have hinj : Function.Injective Recv.piece := fun _ _ heq => Recv.piece.inj heq
  have hsame : l1 = cs := List.map_injective_iff.mpr hinj hl1
  subst hsame
  have hnone : joined l2 = [] := by
    rw [joined_append, List.append_cancel_left_eq] at hbody
    exact List.append_right_eq_self.mp hbody.symm
  rw [joined_eq_nil hnone, List.append_nil]

/-- Of a response in some pieces the whole body is downloaded just when its first piece tells of
it. -/
theorem a_response_is_downloaded_just_when_its_first_piece_tells_of_it (r : http.Response)
    (ps : List Piece) (hcut : joined ps = r.bytes) (h : Http) :
    (∃ h', (readData (some fun _ _ => true) h (ps.map Recv.piece)).result =
      .ok (true, h', r.body)) ↔ Told h r ps := by
  constructor
  · rintro ⟨h', hread⟩
    obtain ⟨b, rs', head, v, hps, hacc, hlen, hdelivers⟩ :=
      (readData_iff _ r.body).mp ⟨h', hread, rfl⟩
    obtain ⟨b', bs, rfl, hb, rfl⟩ := List.map_eq_cons_iff.mp hps
    cases hb
    rw [joined_cons] at hcut
    obtain ⟨rfl, hshort⟩ := head_of_accepts hacc hcut
    have hroom := (length_head hacc.first_head).2
    refine ⟨b, bs, v, rfl, hroom, hshort, hacc.length, hacc.short, ?_⟩
    rw [hlen] at hdelivers
    obtain ⟨hzero, hnil⟩ | ⟨hne, cs, rs', hsplit, hreaches, _, hbody⟩ := hdelivers
    · exact Or.inl ⟨hzero, hnil⟩
    · have hall := all_of_delivered hsplit (hbody.symm.trans (body_of_pieces hroom hcut).2)
      subst hall
      rw [List.length_drop] at hreaches
      exact Or.inr ⟨hne, hreaches⟩
  · rintro ⟨b, bs, v, rfl, hroom, hline, hlength, hshort, hreached⟩
    rw [joined_cons] at hcut
    obtain ⟨hhead, hbody⟩ := body_of_pieces hroom hcut
    obtain ⟨code, hstatus⟩ := scanStatus_statusLine r.head
    have hacc : Accepts b.1 r.head.bytes v :=
      ⟨hhead, ⟨_, code, lineOf_bytes r.head, hline, hstatus⟩, hlength, hshort⟩
    have hdelivers : Delivers (fun _ _ => true) (lengthOf h.un_content_len v)
        (b.1.drop r.head.bytes.length)
        (bs.map Recv.piece) r.body := by
      obtain ⟨hzero, hnil⟩ | ⟨hne, hreaches⟩ := hreached
      · exact Or.inl ⟨hzero, hnil⟩
      · refine Or.inr ⟨hne, bs, [], (List.append_nil _).symm, ?_, takesAll_of_always _ _, hbody⟩
        rw [List.length_drop]
        exact hreaches
    obtain ⟨h', hread, _⟩ :=
      (readData_iff _ r.body).mpr ⟨b, bs.map Recv.piece, _, v, rfl, hacc, rfl, hdelivers⟩
    exact ⟨h', hread⟩

/-- "HTTP/1.1 200 OK" with one field, and the body "hi". -/
def greeting : http.Response where
  head :=
    { major := 49
      minor := 49
      code := text "200"
      reason := text "OK"
      fields := [⟨text "Content-Length", text " 2", by decide, List.all_eq_true.mp (by decide),
        List.all_eq_true.mp (by decide)⟩]
      version_good := by decide
      code_good := ⟨by decide, List.all_eq_true.mp (by decide)⟩
      reason_good := List.all_eq_true.mp (by decide) }
  body := text "hi"
  framed := by decide +kernel

/-- The response in two pieces, the first one of a length. -/
def cutAt (n : Nat) (h : greeting.bytes.take n ≠ [] ∧ (greeting.bytes.take n).length ≤ n1KBytes)
    (h' : greeting.bytes.drop n ≠ [] ∧ (greeting.bytes.drop n).length ≤ n1KBytes) : List Piece :=
  [⟨greeting.bytes.take n, h⟩, ⟨greeting.bytes.drop n, h'⟩]

theorem a_greeting_cut_in_its_body_is_downloaded :
    ∃ h',
      (readData (some fun _ _ => true) ⟨0, 0, 0⟩
        ((cutAt 39 (by decide) (by decide)).map Recv.piece)).result =
      .ok (true, h', text "hi") :=
  (a_response_is_downloaded_just_when_its_first_piece_tells_of_it greeting
    (cutAt 39 (by decide) (by decide))
    (by decide) ⟨0, 0, 0⟩).mpr
    ⟨_, _, text " 2", rfl, by decide, by decide, by rfl, by decide,
      Or.inr ⟨by decide, reaches_of_length (by decide) _ _ (by decide)⟩⟩

/-- Cut in its head, it is not. -/
theorem a_greeting_cut_in_its_head_is_lost :
    joined (cutAt 10 (by decide) (by decide)) = greeting.bytes ∧ greeting.head.code = text "200" ∧
      ¬ ∃ h',
        (readData (some fun _ _ => true) ⟨0, 0, 0⟩
          ((cutAt 10 (by decide) (by decide)).map Recv.piece)).result =
        .ok (true, h', greeting.body) := by
  refine ⟨by decide, rfl, ?_⟩
  rintro ⟨h', hread⟩
  have hfalse : (readData (some fun _ _ => true) ⟨0, 0, 0⟩
      ((cutAt 10 (by decide) (by decide)).map Recv.piece)).result =
      .ok (false, ⟨0, 0, 0⟩, []) := by rfl
  rw [hfalse] at hread
  cases hread

end util.ao_http
