-- The cJSON printer as the code has it. Each buffer is asked for with a length that is counted
-- before it is filled, so what is written is held against that length.
import Aods.CJsonParse

open machine scanf
open util.json (text)

namespace util.cjson

/-! ## Buffers -/

/-- `cJSON_malloc(len)` and then `out` with its NUL in that buffer. A negative length asks for more
than there is. -/
def filled (len : Int) (out : Bytes) : Except Fault (Option Bytes) :=
  if i32 len < 0 then .ok none
  else if (out.length : Int) + 1 ≤ i32 len then .ok (some out)
  else .error .overrun

/-- `cJSON_strdup` -/
def cJSON_strdup (str : Bytes) : Option Bytes := some (cstr str)

/-! ## Numbers and strings -/

section

variable {D : Type} (fp : Doubles D)

def printNumber (valueint : Int) (valuedouble : D) : Except Fault (Option Bytes) :=
  if fp.isZero valuedouble then filled 2 (text "0")
  else if fp.sameInt valueint valuedouble then filled 21 (printedInt valueint)
  else filled 64 (fp.render valuedouble)

end

/-- The bytes that make `flag`: from 1 to 31 as a signed `char` sees them, quotes and
backslashes. -/
def flagged (b : UInt8) : Bool := (b ≠ 0 && b < 32) || b = 34 || b = 92

/-- The bytes that `strchr` finds in its seven. -/
def hasEscape (token : UInt8) : Bool :=
  token = 34 || token = 92 || token = 8 || token = 12 || token = 10 || token = 13 || token = 9

/-- What the second loop counts for one byte. -/
def counted (token : UInt8) : Nat := if hasEscape token then 2 else if token < 32 then 6 else 1

def hexChar (n : Nat) : UInt8 := if n < 10 then UInt8.ofNat (48 + n) else UInt8.ofNat (87 + n)

/-- "u%04x" of a byte. -/
def printedUnit (token : UInt8) : Bytes :=
  [117, 48, 48, hexChar (token.toNat / 16), hexChar (token.toNat % 16)]

/-- What is written for one byte. -/
def printedByte (b : UInt8) : Bytes :=
  if 31 < b && b ≠ 34 && b ≠ 92 then [b]
  else if b = 92 then [92, 92]
  else if b = 34 then [92, 34]
  else if b = 8 then [92, 98]
  else if b = 12 then [92, 102]
  else if b = 10 then [92, 110]
  else if b = 13 then [92, 114]
  else if b = 9 then [92, 116]
  else 92 :: printedUnit b

def printStringPtr (str : Bytes) : Except Fault (Option Bytes) :=
  let str := cstr str
  if str.any flagged then
    filled (((str.map counted).sum : Nat) + 3) (34 :: (str.flatMap printedByte ++ [34]))
  else filled ((str.length : Nat) + 3) (34 :: (str ++ [34]))

/-! ## Documents -/

/-- The entries of an array one after the other. -/
def joinItems (fmt : Bool) : List Bytes → Bytes
  | [] => []
  | [entry] => entry
  | entry :: entries => entry ++ (44 :: ((if fmt then [32] else []) ++ joinItems fmt entries))

def tabs (n : Nat) : Bytes := List.replicate n 9

/-- The members of an object one after the other, each on a line of its own when it is formatted. -/
def joinMembers (fmt : Bool) (depth : Nat) : List (Bytes × Bytes) → Bytes
  | [] => []
  | (name, entry) :: members =>
    (if fmt then tabs depth else []) ++ (name ++ (58 :: ((if fmt then [9] else []) ++ (entry ++
      ((if members = [] then [] else [44]) ++
        ((if fmt then [10] else []) ++ joinMembers fmt depth members))))))

section

variable {D : Type} (fp : Doubles D) (fmt : Bool)

mutual

/-- The text of an item, or nothing when a buffer is not had. -/
def printValue (depth : Nat) : Item D → Except Fault (Option Bytes)
  | .null => .ok (cJSON_strdup (text "null"))
  | .bool false => .ok (cJSON_strdup (text "false"))
  | .bool true => .ok (cJSON_strdup (text "true"))
  | .number valueint valuedouble => printNumber fp valueint valuedouble
  | .string valuestring => printStringPtr valuestring
  | .array [] => filled 3 (text "[]")
  | .array (item :: items) => do
    match ← printItems (depth + 1) (item :: items) with
    | none => return none
    | some entries =>
      filled (5 + ((entries.map fun e => e.length + 2 + (if fmt then 1 else 0)).sum : Nat))
        (91 :: (joinItems fmt entries ++ [93]))
  | .object [] =>
    filled (if fmt then depth + 4 else 3)
      (123 :: ((if fmt then 10 :: tabs (depth - 1) else []) ++ [125]))
  | .object (member :: members) => do
    match ← printMembers (depth + 1) (member :: members) with
    | none => return none
    | some entries =>
      filled (7 + (if fmt then depth + 1 else 0) + ((entries.map fun e =>
          e.2.length + e.1.length + 2 + (if fmt then 2 + (depth + 1) else 0)).sum : Nat))
        (123 :: ((if fmt then [10] else []) ++ (joinMembers fmt (depth + 1) entries ++
          ((if fmt then tabs depth else []) ++ [125]))))

/-- The entries of an array. The first one that is not had is the last one that is tried. -/
def printItems (depth : Nat) : List (Item D) → Except Fault (Option (List Bytes))
  | [] => .ok (some [])
  | item :: items => do
    match ← printValue depth item with
    | none => return none
    | some entry => return (← printItems depth items).map (entry :: ·)

/-- The names and the entries of an object. All are tried. -/
def printMembers (depth : Nat) :
    List (Bytes × Item D) → Except Fault (Option (List (Bytes × Bytes)))
  | [] => .ok (some [])
  | (name, item) :: members => do
    let str ← printStringPtr name
    let ret ← printValue depth item
    let entries ← printMembers depth members
    match str, ret, entries with
    | some str, some ret, some entries => return some ((str, ret) :: entries)
    | _, _, _ => return none

end

end

section

variable {D : Type} (fp : Doubles D)

/-- `print_value` of a document. It calls itself for each array and object in another, of which the
stack holds `stack`. -/
def printTop (fmt : Bool) (stack : Nat) (item : Item D) : Except Fault (Option Bytes) :=
  if item.nesting ≤ stack then printValue fp fmt 0 item else .error .stack_overflow

def cJSON_Print (stack : Nat) (item : Item D) : Except Fault (Option Bytes) :=
  printTop fp true stack item

def cJSON_PrintUnformatted (stack : Nat) (item : Item D) : Except Fault (Option Bytes) :=
  printTop fp false stack item

end

end util.cjson
