-- The cJSON parser as the code has it: the digits of a number, the two loops over a string with
-- the buffer that the first one measures and the second one fills, and the items of arrays and
-- objects, which the parser calls itself for on the stack of its thread. A text is the bytes of a
-- block from a pointer on, its NUL among them.
import Aods.Json
import Aods.Scanf
import Mathlib.Algebra.GroupWithZero.Nat
import Mathlib.Algebra.Ring.Int.Defs

open machine scanf
open util.json (text)

namespace util.cjson

/-! ## Items -/

/-- "%d" -/
def printedInt (n : Int) : Bytes := (if n < 0 then [45] else []) ++ decimal n.natAbs

/-- The double arithmetic that the code rests on, and `sprintf` of a double. -/
structure Doubles (D : Type) where
  /-- `n*10.0+digit` -/
  push : D → Nat → D
  /-- `sign*n*pow(10.0,k)`, the sign negative or not. -/
  scaled : Bool → D → Int → D
  /-- `(int)n` -/
  toInt : D → Int
  /-- An `int` as a double. -/
  ofInt : Int → D
  /-- `d==0` -/
  isZero : D → Bool
  /-- `fabs((double)i-d)<=DBL_EPSILON && d<=INT_MAX && d>=INT_MIN` -/
  sameInt : Int → D → Bool
  /-- "%.0f", "%e" or "%f", as the size of the number asks for. -/
  render : D → Bytes

/-- The doubles that are whole numbers, as long as they are exact. -/
def wholeDoubles : Doubles Int where
  push n d := n * 10 + d
  scaled negative n k := (if negative then -n else n) * 10 ^ k.toNat / 10 ^ (-k).toNat
  toInt := id
  ofInt := id
  isZero n := decide (n = 0)
  sameInt i n := decide (i = n ∧ n ≤ 2147483647 ∧ -2147483648 ≤ n)
  render n := if n.natAbs < 10 ^ 60 then printedInt n else text "1.000000e+60"

/-- A cJSON item with what is below it. -/
inductive Item (D : Type) where
  | null
  | bool (b : Bool)
  | number (valueint : Int) (valuedouble : D)
  | string (valuestring : Bytes)
  | array (child : List (Item D))
  | object (child : List (Bytes × Item D))

mutual

/-- How many arrays and objects lie in one another. -/
def Item.nesting {D : Type} : Item D → Nat
  | .array child => Item.nestingItems child + 1
  | .object child => Item.nestingMembers child + 1
  | _ => 0

def Item.nestingItems {D : Type} : List (Item D) → Nat
  | [] => 0
  | item :: items => max item.nesting (Item.nestingItems items)

def Item.nestingMembers {D : Type} : List (Bytes × Item D) → Nat
  | [] => 0
  | (_, item) :: members => max item.nesting (Item.nestingMembers members)

end

/-- How a parse function comes back: behind the text that it took, with null and `ep` at the
text that it could not take, or not at all, since the stack is used up or a buffer is left. -/
inductive Parsed (α : Type) where
  | deep
  | overrun
  | failed (ep : Bytes)
  | taken (a : α) (rest : Bytes)
  deriving DecidableEq

def Parsed.map {α β : Type} (f : α → β) : Parsed α → Parsed β
  | .deep => .deep
  | .overrun => .overrun
  | .failed ep => .failed ep
  | .taken a rest => .taken (f a) rest

/-- What is parsed behind something that was taken. -/
def Parsed.bind {α β : Type} (p : Parsed α) (f : α → Bytes → Parsed β) : Parsed β :=
  match p with
  | .deep => .deep
  | .overrun => .overrun
  | .failed ep => .failed ep
  | .taken a rest => f a rest

/-! ## Numbers -/

def skip (inp : Bytes) : Bytes := inp.dropWhile (fun b => b ≠ 0 && b ≤ 32)

/-- The byte `c` in front of a text, and what is behind it. -/
def behind (c : UInt8) (num : Bytes) : Bool × Bytes :=
  match num with
  | [] => (false, [])
  | b :: t => if b = c then (true, t) else (false, b :: t)

/-- The digits of a number that are not a zero in front. -/
def wholeDigits (num : Bytes) : Bytes :=
  match num with
  | [] => []
  | b :: t => if 49 ≤ b && b ≤ 57 then b :: t.takeWhile isDigit else []

/-- The digits behind a point. Without one right behind it the point is not taken. -/
def fraction (num : Bytes) : Option (Bytes × Bytes) :=
  match num with
  | [] => none
  | b :: t =>
    if b = 46 then
      match t with
      | [] => none
      | d :: _ =>
        if isDigit d then some (t.takeWhile isDigit, t.dropWhile isDigit) else some ([], b :: t)
    else some ([], b :: t)

/-- The sign of an exponent and what is behind it. -/
def exponentSign (num : Bytes) : Bool × Bytes :=
  match num with
  | [] => (false, [])
  | b :: t => if b = 43 then (false, t) else if b = 45 then (true, t) else (false, b :: t)

/-- The exponent of a number: its sign and its digits. -/
def exponent (num : Bytes) : Option (Bool × Bytes × Bytes) :=
  match num with
  | [] => none
  | b :: t =>
    if b = 101 || b = 69 then
      let s := exponentSign t
      some (s.1, s.2.takeWhile isDigit, s.2.dropWhile isDigit)
    else some (false, [], b :: t)

/-- `subscale=(subscale*10)+(*num++ - '0')` over digits. -/
def subscale (ds : Bytes) : Int := ds.foldl (fun n d => i32 (n * 10 + (d.toNat - 48 : Nat))) 0

section

variable {D : Type} (fp : Doubles D)

/-- `n=(n*10.0)+(*num++ -'0')` over digits. -/
def digitsValue (ds : Bytes) : D := ds.foldl (fun n d => fp.push n (d.toNat - 48)) (fp.ofInt 0)

/-- The double of a number's parts. -/
def numberValue (negative : Bool) (whole frac : Bytes) (signsubscale : Bool) (exp : Bytes) : D :=
  fp.scaled negative (digitsValue fp (whole ++ frac))
    (-(frac.length : Int) + subscale exp * (if signsubscale then -1 else 1))

def parseNumber (num : Bytes) : Parsed (Item D) :=
  let signed := behind 45 num
  let num := (behind 48 signed.2).2
  let whole := wholeDigits num
  match fraction (num.drop whole.length) with
  | none => .overrun
  | some (frac, num) =>
    match exponent num with
    | none => .overrun
    | some (_, _, []) => .overrun
    | some (signsubscale, exp, rest) =>
      let n := numberValue fp signed.1 whole frac signsubscale exp
      .taken (.number (fp.toInt n) n) rest

end

/-! ## Strings -/

/-- The value of a hexadecimal digit. -/
def hexDigit (b : UInt8) : Option Nat :=
  if 48 ≤ b && b ≤ 57 then some (b.toNat - 48)
  else if 65 ≤ b && b ≤ 70 then some (10 + b.toNat - 65)
  else if 97 ≤ b && b ≤ 102 then some (10 + b.toNat - 97)
  else none

/-- `k` digits more behind the ones that gave `h`. The first byte that is none ends it with 0. -/
def hexFrom (k h : Nat) (str : Bytes) : Option Nat :=
  match k, str with
  | 0, _ => some h
  | _ + 1, [] => none
  | k + 1, b :: t =>
    match hexDigit b with
    | none => some 0
    | some d => hexFrom k ((h <<< 4) + d) t

def parseHex4 (str : Bytes) : Option Nat := hexFrom 4 0 str

def firstByteMark : List Nat := [0x00, 0x00, 0xC0, 0xE0, 0xF0, 0xF8, 0xFC]

/-- The cases of the switch that fall through: `k` bytes from the last one back. -/
def tailBytes (k uc : Nat) (out : Bytes) : Nat × Bytes :=
  match k with
  | 0 => (uc, out)
  | k + 1 => tailBytes k (uc >>> 6) (UInt8.ofNat ((uc ||| 0x80) &&& 0xBF) :: out)

/-- The bytes of a code point. -/
def utf8 (uc : Nat) : Bytes :=
  let len := if uc < 0x80 then 1 else if uc < 0x800 then 2 else if uc < 0x10000 then 3 else 4
  let r := tailBytes (len - 1) uc []
  UInt8.ofNat (r.1 ||| firstByteMark.getD len 0) :: r.2

/-- The code point of a surrogate pair. -/
def surrogates (uc uc2 : Nat) : Nat := 0x10000 + (((uc &&& 0x3FF) <<< 10) ||| (uc2 &&& 0x3FF))

/-- `\u` and what is behind it: the bytes that it writes, and how far `ptr` goes from the `u`. -/
def transcode (str : Bytes) : Option (Bytes × Nat) := do
  let uc ← parseHex4 str
  if (0xDC00 ≤ uc ∧ uc ≤ 0xDFFF) ∨ uc = 0 then return ([], 5)
  else if 0xD800 ≤ uc ∧ uc ≤ 0xDBFF then
    match str.drop 4 with
    | [] => none
    | b :: t =>
      if b ≠ 92 then return ([], 5)
      else
        match t with
        | [] => none
        | c :: t =>
          if c ≠ 117 then return ([], 5)
          else
            let uc2 ← parseHex4 t
            if uc2 < 0xDC00 ∨ 0xDFFF < uc2 then return ([], 11)
            else return (utf8 (surrogates uc uc2), 11)
  else return (utf8 uc, 5)

/-- What a byte behind a backslash stands for. -/
def escaped (b : UInt8) : UInt8 :=
  if b = 98 then 8 else if b = 102 then 12 else if b = 110 then 10 else if b = 114 then 13
  else if b = 116 then 9 else b

/-- Behind a backslash: the bytes that are written, and how far `ptr` goes. -/
def escape (str : Bytes) : Option (Bytes × Nat) :=
  match str with
  | [] => none
  | b :: t => if b = 117 then transcode t else some ([escaped b], 1)

/-- The first loop over a string, which counts a backslash and the byte behind it as one. -/
def measure : Bytes → Option Nat
  | [] => none
  | [b] => if b = 34 ∨ b = 0 then some 0 else none
  | b :: c :: t =>
    if b = 34 ∨ b = 0 then some 0
    else if b = 92 then (measure t).map (· + 1)
    else (measure (c :: t)).map (· + 1)

/-- The second loop, with `k` bytes to go by first: the bytes that it writes, and the text from
the quote or the NUL on that ends it. -/
def unescape (k : Nat) : Bytes → Option (Bytes × Bytes)
  | [] => none
  | b :: t =>
    match k with
    | k + 1 => unescape k t
    | 0 =>
      if b = 34 ∨ b = 0 then some ([], b :: t)
      else if b ≠ 92 then (unescape 0 t).map (fun r => (b :: r.1, r.2))
      else
        match escape t with
        | none => none
        | some (w, n) => (unescape n t).map (fun r => (w ++ r.1, r.2))

/-- `out` has a byte more than the first loop counted, for the NUL behind what is written. -/
def parseString (str : Bytes) : Parsed Bytes :=
  match str with
  | [] => .overrun
  | q :: t =>
    if q ≠ 34 then .failed str
    else
      match measure t, unescape 0 t with
      | some len, some (out, rest) =>
        if out.length ≤ len then .taken out (behind 34 rest).2 else .overrun
      | _, _ => .overrun

/-! ## Documents -/

/-- `!strncmp(value, word, n)` of a word of `n` bytes. -/
def startsWith : Bytes → Bytes → Option Bool
  | [], _ => some true
  | _ :: _, [] => none
  | w :: ws, b :: bs => if b = w then startsWith ws bs else some false

/-- The words that `parse_value` looks for before anything else. -/
def keyword {D : Type} (value : Bytes) : Option (Option (Item D × Bytes)) := do
  if ← startsWith (text "null") value then return some (.null, value.drop 4)
  if ← startsWith (text "false") value then return some (.bool false, value.drop 5)
  if ← startsWith (text "true") value then return some (.bool true, value.drop 4)
  return none

section

variable {D : Type} (fp : Doubles D)

mutual

/-- The stack has room for `stack` calls of `parse_array` and `parse_object` in one another. -/
def parseValue : Nat → Nat → Bytes → Parsed (Item D)
  | 0, _, _ => .deep
  | fuel + 1, stack, value =>
    match keyword value with
    | none => .overrun
    | some (some (item, rest)) => .taken item rest
    | some none =>
      match value with
      | [] => .overrun
      | b :: t =>
        if b = 34 then (parseString value).map .string
        else if b = 45 ∨ isDigit b then parseNumber fp value
        else if b = 91 then parseArray fuel stack (skip t)
        else if b = 123 then parseObject fuel stack (skip t)
        else .failed value

/-- `parse_array` behind the bracket. -/
def parseArray : Nat → Nat → Bytes → Parsed (Item D)
  | 0, _, _ => .deep
  | _ + 1, 0, _ => .deep
  | fuel + 1, stack + 1, value =>
    match value with
    | [] => .overrun
    | b :: t => if b = 93 then .taken (.array []) t else (parseItems fuel stack value).map .array

/-- The items from `value` on, up to the bracket behind the last one. -/
def parseItems : Nat → Nat → Bytes → Parsed (List (Item D))
  | 0, _, _ => .deep
  | fuel + 1, stack, value =>
    (parseValue fuel stack (skip value)).bind fun child value =>
      match skip value with
      | [] => .overrun
      | b :: t =>
        if b = 44 then (parseItems fuel stack t).map (child :: ·)
        else if b = 93 then .taken [child] t
        else .failed (b :: t)

/-- `parse_object` behind the brace. -/
def parseObject : Nat → Nat → Bytes → Parsed (Item D)
  | 0, _, _ => .deep
  | _ + 1, 0, _ => .deep
  | fuel + 1, stack + 1, value =>
    match value with
    | [] => .overrun
    | b :: t =>
      if b = 125 then .taken (.object []) t else (parseMembers fuel stack value).map .object

/-- The members from `value` on, up to the brace behind the last one. -/
def parseMembers : Nat → Nat → Bytes → Parsed (List (Bytes × Item D))
  | 0, _, _ => .deep
  | fuel + 1, stack, value =>
    (parseString (skip value)).bind fun name value =>
      match skip value with
      | [] => .overrun
      | c :: t =>
        if c ≠ 58 then .failed (c :: t)
        else
          (parseValue fuel stack (skip t)).bind fun child value =>
            match skip value with
            | [] => .overrun
            | b :: t =>
              if b = 44 then (parseMembers fuel stack t).map ((name, child) :: ·)
              else if b = 125 then .taken [(name, child)] t
              else .failed (b :: t)

end

/-- Fuel for the items and the members of a text, however many there are. -/
def fuelFor (value : Bytes) : Nat := 3 * value.length + 3

def cJSON_ParseWithOpts (stack : Nat) (value : Bytes) (require_null_terminated : Bool) :
    Parsed (Item D) :=
  (parseValue fp (fuelFor value) stack (skip value)).bind fun c rest =>
    if require_null_terminated then
      match skip rest with
      | [] => .overrun
      | b :: t => if b ≠ 0 then .failed (b :: t) else .taken c (b :: t)
    else .taken c rest

def cJSON_Parse (stack : Nat) (value : Bytes) : Parsed (Item D) :=
  cJSON_ParseWithOpts fp stack value false

end

end util.cjson
