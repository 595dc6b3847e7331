-- Responses of HTTP/1: a status line, fields, a blank line and a body that is as long as the
-- fields say. What a head says is read from any bytes, and a well-formed head ends at the first
-- blank line.
import Mathlib.Data.List.Basic
import Aods.Occurrences
import Aods.Scanf

open machine occurrences
open scanf (isDigit isAlnum lower number)

namespace http

/-! ## What bytes say -/

def crlf : Bytes := [13, 10]

/-- "HTTP/". -/
def protocol : Bytes := [72, 84, 84, 80, 47]

/-- "content-length". -/
def contentLength : Bytes := [99, 111, 110, 116, 101, 110, 116, 45, 108, 101, 110, 103, 116, 104]

/-- The lines of some bytes, the last one with no end. -/
def lines : Bytes → List Bytes
  | [] => [[]]
  | b :: s =>
    if crlf.isPrefixOf (b :: s) then [] :: (lines s).modifyHead (·.drop 1)
    else (lines s).modifyHead (b :: ·)

/-- The code of a status line "HTTP/d.d ddd", with a space behind it or nothing. -/
def statusCode (line : Bytes) : Option Nat :=
  let ds := (line.drop 9).take 3
  if protocol.isPrefixOf line && isDigit (line.getD 5 0) && line.getD 6 0 = 46 &&
      isDigit (line.getD 7 0) && line.getD 8 0 = 32 && ds.length = 3 && ds.all isDigit &&
      ((line.drop 12).head?.getD 32) = 32 then
    some (number ds)
  else none

def isBlank (b : UInt8) : Bool := b = 32 || b = 9

/-- A text without the blanks around it. -/
def trim (v : Bytes) : Bytes := ((v.dropWhile isBlank).reverse.dropWhile isBlank).reverse

/-- The value of a Content-Length field. -/
def lengthValue (v : Bytes) : Option Nat :=
  if trim v ≠ [] && (trim v).all isDigit then some (number (trim v)) else none

/-- The values of the Content-Length fields of a head, whatever the case of their names. -/
def contentLengths (head : Bytes) : List (Option Nat) :=
  ((lines head).drop 1).filterMap fun line =>
    if (line.takeWhile (· ≠ 58)).map lower = contentLength && line.contains 58 then
      some (lengthValue ((line.dropWhile (· ≠ 58)).drop 1))
    else none

/-- There are Content-Length fields, and all of them say this length. -/
def LengthIs (head : Bytes) (n : Nat) : Prop :=
  contentLengths head ≠ [] ∧ ∀ l ∈ contentLengths head, l = some n

instance (head : Bytes) (n : Nat) : Decidable (LengthIs head n) := instDecidableAnd

/-- The status of a head is 2xx. -/
def Succeeds (head : Bytes) : Prop :=
  ∃ code, statusCode ((lines head).headD []) = some code ∧ code / 100 = 2

/-! ## Well-formed responses -/

/-- The bytes of the name of a field. -/
def isTchar (b : UInt8) : Bool :=
  isAlnum b || [33, 35, 36, 37, 38, 39, 42, 43, 45, 46, 94, 95, 96, 124, 126].contains b

/-- The bytes of a reason and of the value of a field. -/
def isText (b : UInt8) : Bool := b = 9 || (32 ≤ b && b ≠ 127)

structure Field where
  name : Bytes
  value : Bytes
  name_ne : name ≠ []
  name_good : ∀ b ∈ name, isTchar b = true
  value_good : ∀ b ∈ value, isText b = true

def Field.line (f : Field) : Bytes := f.name ++ 58 :: f.value

structure Head where
  major : UInt8
  minor : UInt8
  code : Bytes
  reason : Bytes
  fields : List Field
  version_good : isDigit major = true ∧ isDigit minor = true
  code_good : code.length = 3 ∧ ∀ b ∈ code, isDigit b = true
  reason_good : ∀ b ∈ reason, isText b = true

def Head.statusLine (h : Head) : Bytes :=
  protocol ++ [h.major, 46, h.minor, 32] ++ h.code ++ 32 :: h.reason

/-- The lines of the fields and the blank line. -/
def ends (fields : List Field) : Bytes := fields.flatMap (fun f => f.line ++ crlf) ++ crlf

def Head.bytes (h : Head) : Bytes := h.statusLine ++ crlf ++ ends h.fields

/-- A response whose fields give the length of its body. -/
structure Response where
  head : Head
  body : Bytes
  framed : LengthIs head.bytes body.length

def Response.bytes (r : Response) : Bytes := r.head.bytes ++ r.body

/-! ## Lines -/

/-- No byte of a text ends a line, or a string. -/
def Plain (s : Bytes) : Prop := 13 ∉ s ∧ 10 ∉ s ∧ 0 ∉ s

theorem plain_of {p : UInt8 → Bool} {s : Bytes} (h : ∀ b ∈ s, p b = true)
    (hp : p 13 = false ∧ p 10 = false ∧ p 0 = false) : Plain s := by
  have hnot (c : UInt8) (hc : p c = false) : c ∉ s := by
    intro hm
    rw [h c hm] at hc
    cases hc
  exact ⟨hnot 13 hp.1, hnot 10 hp.2.1, hnot 0 hp.2.2⟩

theorem Plain.append {s t : Bytes} (hs : Plain s) (ht : Plain t) : Plain (s ++ t) := by
  simp only [Plain, List.mem_append, not_or]
  exact ⟨⟨hs.1, ht.1⟩, ⟨hs.2.1, ht.2.1⟩, hs.2.2, ht.2.2⟩

theorem Field.line_plain (f : Field) : Plain f.line := by
  have hname := plain_of f.name_good (by decide)
  have hvalue := plain_of f.value_good (by decide)
  have hcolon : Plain [58] := ⟨by decide, by decide, by decide⟩
  exact hname.append (hcolon.append hvalue)

theorem Head.statusLine_plain (h : Head) : Plain h.statusLine := by
  have hversion : Plain [h.major, 46, h.minor, 32] := by
    apply plain_of (p := fun b => isDigit b || b = 46 || b = 32)
    · simp [h.version_good]
    · decide
  have hcode := plain_of h.code_good.2 (by decide)
  have hreason := plain_of h.reason_good (by decide)
  have hprotocol : Plain protocol := ⟨by decide, by decide, by decide⟩
  have hspace : Plain [32] := ⟨by decide, by decide, by decide⟩
  exact ((hprotocol.append hversion).append hcode).append (hspace.append hreason)

/-! ## The end of a head -/

theorem Field.line_head (f : Field) : ∃ c t, f.line = c :: t ∧ c ≠ 13 := by
  obtain ⟨c, t, hname⟩ := List.exists_cons_of_ne_nil f.name_ne
  refine ⟨c, t ++ 58 :: f.value, by rw [Field.line, hname, List.cons_append], ?_⟩
  rintro rfl
  have hgood := f.name_good 13 (by rw [hname]; exact List.mem_cons_self)
  exact absurd hgood (by decide)

theorem length_ends (fields : List Field) : 2 ≤ (ends fields).length := by
  unfold ends
  rw [List.length_append]
  exact Nat.le_add_left _ _

/-- Behind the end of a line the first blank line is the one behind the fields. -/
theorem first_blank_ends (fields : List Field) (s : Bytes) :
    first (crlf ++ crlf) (crlf ++ ends fields ++ s) = some ((ends fields).length - 2) := by
  induction fields with
  | nil => rfl
  | cons f fields ih =>
    obtain ⟨c, t, hline, hc⟩ := f.line_head
    have hends : crlf ++ ends (f :: fields) ++ s =
        13 :: 10 :: (f.line ++ (crlf ++ ends fields ++ s)) := by
      simp [ends, crlf]
    have hlen : (ends (f :: fields)).length = f.line.length + 2 + (ends fields).length := by
      simp [ends, crlf]
      omega
    have hmore := length_ends fields
    have hskip : first (crlf ++ crlf) (13 :: 10 :: (f.line ++ (crlf ++ ends fields ++ s))) =
        (first (crlf ++ crlf) (f.line ++ (crlf ++ ends fields ++ s))).map (· + 2) := by
      have hthird : ¬ (crlf ++ crlf).isPrefixOf (13 :: 10 ::
          (f.line ++ (crlf ++ ends fields ++ s))) = true := by
        rw [hline]
        simp [crlf, List.isPrefixOf, Ne.symm hc]
      rw [first, if_neg hthird, first, if_neg (by simp [crlf, List.isPrefixOf]), Option.map_map]
      rfl
    rw [hends, hskip, first_append (c := 13) rfl f.line_plain.1, ih, hlen]
    simp only [Option.map_some, Option.some.injEq]
    omega

theorem Head.first_blank (h : Head) (s : Bytes) :
    first (crlf ++ crlf) (h.bytes ++ s) = some (h.bytes.length - 4) := by
  have hmore := length_ends h.fields
  have hlen : h.bytes.length = h.statusLine.length + 2 + (ends h.fields).length := by
    simp [Head.bytes, crlf]
    omega
  rw [Head.bytes, List.append_assoc, List.append_assoc,
    first_append (c := 13) rfl h.statusLine_plain.1, ← List.append_assoc, first_blank_ends,
    ← Head.bytes, hlen]
  simp only [Option.map_some, Option.some.injEq]
  omega

theorem Head.first_line (h : Head) : first crlf h.bytes = some h.statusLine.length := by
  rw [Head.bytes, List.append_assoc, first_append (c := 13) rfl h.statusLine_plain.1]
  rfl

theorem Head.length_bytes (h : Head) : 4 ≤ h.bytes.length := by
  have hmore := length_ends h.fields
  simp [Head.bytes, crlf]
  omega

end http
