-- How the shell reads a simple command: the words between its blanks, with texts in double
-- quotes and, in these, the values of parameters. At what it does otherwise with a command
-- (other quotes, patterns, several commands, substitutions) the reader gives up.
import Aods.Machine

open machine

namespace shell

/-! ## The reader -/

/-- A blank ends a word: a space or a tab. -/
def blank (b : UInt8) : Bool := b = 32 || b = 9

/-- The bytes that are more than themselves outside of quotes, or can be: a newline and
`| & ; < > ( ) $ \ " '`, the backquote, and `* ? [ ] # ~ = % { } ! ^`. -/
def special : Bytes :=
  [10, 124, 38, 59, 60, 62, 40, 41, 36, 92, 34, 39, 96, 42, 63, 91, 93, 35, 126, 61, 37, 123, 125,
  33, 94]

/-- The bytes that are more than themselves in double quotes: `"`, `$`, `\` and the backquote. -/
def quoteSpecial : Bytes := [34, 36, 92, 96]

def letter (b : UInt8) : Bool := (65 ≤ b && b ≤ 90) || (97 ≤ b && b ≤ 122) || b = 95

def digit (b : UInt8) : Bool := 48 ≤ b && b ≤ 57

/-- Where the reader stands, with what it has of the open word. -/
inductive Mode where
  | between
  | word (w : Bytes)
  | quoted (w : Bytes)
  /-- Behind a `$` in double quotes, with the name of the parameter so far. -/
  | param (w name : Bytes)

/-- A byte in double quotes. -/
def quotedStep (w : Bytes) (b : UInt8) : Option Mode :=
  if b = 34 then some (.word w)
  else if b = 36 then some (.param w [])
  else if b ∈ quoteSpecial then none
  else some (.quoted (w ++ [b]))

/-- One byte: the words that it ends, and where the reader stands then. `none`: it gives up. -/
def step (env : Bytes → Bytes) : Mode → UInt8 → Option (List Bytes × Mode)
  | .between, b =>
    if blank b then some ([], .between)
    else if b = 34 then some ([], .quoted [])
    else if b ∈ special then none
    else some ([], .word [b])
  | .word w, b =>
    if blank b then some ([w], .between)
    else if b = 34 then some ([], .quoted w)
    else if b ∈ special then none
    else some ([], .word (w ++ [b]))
  | .quoted w, b => (quotedStep w b).map (fun m => ([], m))
  | .param w name, b =>
    if letter b ∨ digit b ∧ name ≠ [] then some ([], .param w (name ++ [b]))
    else if name = [] then none
    else (quotedStep (w ++ env name) b).map (fun m => ([], m))

/-- The words that the end of the command ends. A quote that stays open is not read. -/
def ends : Mode → Option (List Bytes)
  | .between => some []
  | .word w => some [w]
  | .quoted _ => none
  | .param _ _ => none

/-- The words from some place on. -/
def scan (env : Bytes → Bytes) : Mode → Bytes → Option (List Bytes)
  | m, [] => ends m
  | m, b :: p =>
    match step env m b with
    | none => none
    | some (ws, m') => (scan env m' p).map (fun ws' => ws ++ ws')

/-- The words of a command, with the values of the parameters. -/
def words (env : Bytes → Bytes) (cmd : Bytes) : Option (List Bytes) := scan env .between cmd

/-- A text that the shell takes as it is outside of quotes. -/
def Bare (p : Bytes) : Prop := ∀ b ∈ p, blank b = false ∧ b ∉ special

instance (p : Bytes) : Decidable (Bare p) := inferInstanceAs (Decidable (∀ b ∈ p, _))

/-- A text that it takes as it is in double quotes. -/
def Quotable (p : Bytes) : Prop := ∀ b ∈ p, b ∉ quoteSpecial

instance (p : Bytes) : Decidable (Quotable p) := inferInstanceAs (Decidable (∀ b ∈ p, _))

/-- A command calls a program with one option and some operands. A word that begins with "-"
would be an option too. -/
def Calls (env : Bytes → Bytes) (cmd program option : Bytes) (operands : List Bytes) : Prop :=
  words env cmd = some (program :: option :: operands) ∧ ∀ o ∈ operands, o.head? ≠ some 45

/-! ## Texts that are taken as they are -/

variable {env : Bytes → Bytes} {m m' : Mode} {ws : List Bytes} {p q w : Bytes} {b : UInt8}

theorem scan_step (h : step env m b = some (ws, m')) (p : Bytes) :
    scan env m (b :: p) = (scan env m' p).map (fun ws' => ws ++ ws') := by
  rw [scan, h]

theorem scan_on (h : step env m b = some ([], m')) (p : Bytes) :
    scan env m (b :: p) = scan env m' p := by
  rw [scan_step h]
  exact Option.map_id'

theorem scan_blank (w p : Bytes) :
    scan env (.word w) (32 :: p) = (words env p).map (fun ws => w :: ws) := by
  have hstep : step env (.word w) 32 = some ([w], .between) := rfl
  exact scan_step hstep p

theorem scan_open (p : Bytes) : scan env .between (34 :: p) = scan env (.quoted []) p := by
  have hstep : step env .between 34 = some ([], .quoted []) := rfl
  exact scan_on hstep p

theorem scan_close (w p : Bytes) : scan env (.quoted w) (34 :: p) = scan env (.word w) p := by
  have hstep : step env (.quoted w) 34 = some ([], .word w) := rfl
  exact scan_on hstep p

theorem step_bare (hb : blank b = false ∧ b ∉ special) (w : Bytes) :
    step env .between b = some ([], .word [b]) ∧
      step env (.word w) b = some ([], .word (w ++ [b])) := by
  obtain ⟨hblank, hspecial⟩ := hb
  have hquote : b ≠ 34 := by
    rintro rfl
    exact hspecial (by decide)
  constructor
  · simp [step, hblank, hquote, hspecial]
  · simp [step, hblank, hquote, hspecial]

theorem scan_bare (hq : Bare q) (w p : Bytes) :
    scan env (.word w) (q ++ p) = scan env (.word (w ++ q)) p := by
  induction q generalizing w with
  | nil => rw [List.nil_append, List.append_nil]
  | cons b q ih =>
    have hrest : Bare q := fun c hc => hq c (List.mem_cons_of_mem b hc)
    rw [List.cons_append, scan_on (step_bare (hq b List.mem_cons_self) w).2, ih hrest,
      List.append_assoc]
    rfl

theorem scan_quoted (hq : Quotable q) (w p : Bytes) :
    scan env (.quoted w) (q ++ p) = scan env (.quoted (w ++ q)) p := by
  induction q generalizing w with
  | nil => rw [List.nil_append, List.append_nil]
  | cons b q ih =>
    have hrest : Quotable q := fun c hc => hq c (List.mem_cons_of_mem b hc)
    have hb : b ∉ quoteSpecial := hq b List.mem_cons_self
    have hstep : step env (.quoted w) b = some ([], .quoted (w ++ [b])) := by
      simp only [quoteSpecial, List.mem_cons, List.not_mem_nil, or_false, not_or] at hb
      simp [step, quotedStep, quoteSpecial, hb]
    rw [List.cons_append, scan_on hstep, ih hrest, List.append_assoc]
    rfl

/-! ## Words -/

theorem words_bare (hq : Bare q) (hne : q ≠ []) : words env q = some [q] := by
  obtain ⟨b, q', rfl⟩ := List.exists_cons_of_ne_nil hne
  have hrest : Bare q' := fun c hc => hq c (List.mem_cons_of_mem b hc)
  have hscan : scan env (.word [b]) (q' ++ []) = scan env (.word ([b] ++ q')) [] :=
    scan_bare hrest [b] []
  rw [List.append_nil] at hscan
  unfold words
  rw [scan_on (step_bare (hq b List.mem_cons_self) []).1, hscan]
  rfl

theorem words_bare_cons (hq : Bare q) (hne : q ≠ []) (p : Bytes) :
    words env (q ++ 32 :: p) = (words env p).map (fun ws => q :: ws) := by
  obtain ⟨b, q', rfl⟩ := List.exists_cons_of_ne_nil hne
  have hrest : Bare q' := fun c hc => hq c (List.mem_cons_of_mem b hc)
  unfold words
  rw [List.cons_append, scan_on (step_bare (hq b List.mem_cons_self) []).1, scan_bare hrest]
  exact scan_blank _ p

theorem words_quoted (hq : Quotable q) : words env (34 :: (q ++ [34])) = some [q] := by
  unfold words
  rw [scan_open, scan_quoted hq, scan_close]
  rfl

theorem words_quoted_cons (hq : Quotable q) (p : Bytes) :
    words env (34 :: (q ++ 34 :: 32 :: p)) = (words env p).map (fun ws => q :: ws) := by
  unfold words
  rw [scan_open, scan_quoted hq, scan_close]
  exact scan_blank _ p

end shell
