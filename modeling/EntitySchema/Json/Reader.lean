import EntitySchema.Value

/-!
# Reading JSON

A reader for JSON text that keeps the order of members. A number with a point or an exponent becomes a floating-point number,
any other an integer of any size; escaped surrogate pairs become one character.

* `Value.ofJson?`: the value of a text, if the text is one value and nothing else.

A step gives what it read and what is left. Every step takes at least one character, so the length of the text bounds the
depth of the recursion.
-/
namespace EntitySchema

namespace Json

def skipBlanks (cs : List Char) : List Char :=
  cs.dropWhile fun c => c == ' ' || c == '\n' || c == '\r' || c == '\t'

def hexValue? (c : Char) : Option Nat :=
  if '0' ≤ c ∧ c ≤ '9' then some (c.toNat - 48)
  else if 'a' ≤ c ∧ c ≤ 'f' then some (c.toNat - 87)
  else if 'A' ≤ c ∧ c ≤ 'F' then some (c.toNat - 55)
  else none

/-- Four hexadecimal digits. -/
def unit? : List Char → Option (Nat × List Char)
  | a :: b :: c :: d :: rest => do
    let n := (((← hexValue? a) * 16 + (← hexValue? b)) * 16 + (← hexValue? c)) * 16 + (← hexValue? d)
    some (n, rest)
  | _ => none

/-- The character behind an escape's `u`, written by one unit or by a pair of them. -/
def character? (cs : List Char) : Option (Char × List Char) := do
  let (high, rest) ← unit? cs
  if 0xd800 ≤ high ∧ high < 0xdc00 then
    match rest with
    | '\\' :: 'u' :: more =>
      let (low, rest) ← unit? more
      if 0xdc00 ≤ low ∧ low < 0xe000 then
        some (Char.ofNat (0x10000 + (high - 0xd800) * 1024 + (low - 0xdc00)), rest)
      else none
    | _ => none
  else some (Char.ofNat high, rest)

def escape? : Char → Option Char
  | '"' => some '"'
  | '\\' => some '\\'
  | '/' => some '/'
  | 'b' => some '\x08'
  | 'f' => some '\x0c'
  | 'n' => some '\n'
  | 'r' => some '\r'
  | 't' => some '\t'
  | _ => none

/-- The rest of a string behind its opening quote; what was read is kept in reverse. -/
def stringTail? : Nat → List Char → List Char → Option (String × List Char)
  | 0, _, _ => none
  | _ + 1, _, [] => none
  | fuel + 1, read, c :: rest =>
    if c = '"' then some (String.ofList read.reverse, rest)
    else if c = '\\' then
      match rest with
      | 'u' :: more =>
        match character? more with
        | some (d, rest) => stringTail? fuel (d :: read) rest
        | none => none
      | e :: more =>
        match escape? e with
        | some d => stringTail? fuel (d :: read) more
        | none => none
      | [] => none
    else stringTail? fuel (c :: read) rest

def string? (cs : List Char) : Option (String × List Char) :=
  match cs with
  | '"' :: rest => stringTail? cs.length [] rest
  | _ => none

/-- The number that a run of decimal digits writes. -/
def natOfDigits (ds : List Char) : Nat :=
  ds.foldl (fun n c => n * 10 + (c.toNat - 48)) 0

/-- Digits and the rest behind them; at least one digit is needed. -/
def digits? (cs : List Char) : Option (List Char × List Char) :=
  match cs.takeWhile Char.isDigit with
  | [] => none
  | ds => some (ds, cs.dropWhile Char.isDigit)

def fraction? : List Char → Option (List Char × List Char)
  | '.' :: rest => digits? rest
  | cs => some ([], cs)

/-- The exponent of a number, none if there is no exponent. -/
def exponent? (cs : List Char) : Option (Option Int × List Char) :=
  match cs with
  | e :: rest =>
    if e = 'e' ∨ e = 'E' then
      match rest with
      | '-' :: more => (digits? more).map fun (ds, left) => (some (-(natOfDigits ds : Int)), left)
      | '+' :: more => (digits? more).map fun (ds, left) => (some (natOfDigits ds : Int), left)
      | more => (digits? more).map fun (ds, left) => (some (natOfDigits ds : Int), left)
    else some (none, cs)
  | [] => some (none, [])

def number? (cs : List Char) : Option (Value × List Char) := do
  let (negative, cs) := match cs with
    | '-' :: rest => (true, rest)
    | cs => (false, cs)
  let (whole, cs) ← digits? cs
  let (fraction, cs) ← fraction? cs
  let (exponent, cs) ← exponent? cs
  if fraction.isEmpty && exponent.isNone then
    let n : Int := natOfDigits whole
    some (.int (if negative then -n else n), cs)
  else
    let e := exponent.getD 0 - fraction.length
    some (.float (Binary64.ofDecimal negative (natOfDigits (whole ++ fraction)) e), cs)

/-- The rest behind a fixed word. -/
def word? (w : String) (v : Value) (cs : List Char) : Option (Value × List Char) :=
  if w.toList.isPrefixOf cs then some (v, cs.drop w.length) else none

mutual

def value? : Nat → List Char → Option (Value × List Char)
  | 0, _ => none
  | fuel + 1, cs =>
    match skipBlanks cs with
    | '\x7b' :: rest =>
      match skipBlanks rest with
      | '\x7d' :: left => some (.object [], left)
      | more => (entries? fuel more).map fun (m, left) => (.object m, left)
    | '[' :: rest =>
      match skipBlanks rest with
      | ']' :: left => some (.list [], left)
      | more => (elements? fuel more).map fun (xs, left) => (.list xs, left)
    | '"' :: rest => (string? ('"' :: rest)).map fun (s, left) => (.str s, left)
    | 't' :: rest => word? "true" (.bool true) ('t' :: rest)
    | 'f' :: rest => word? "false" (.bool false) ('f' :: rest)
    | 'n' :: rest => word? "null" .null ('n' :: rest)
    | more => number? more

/-- Elements up to the closing bracket. -/
def elements? : Nat → List Char → Option (List Value × List Char)
  | 0, _ => none
  | fuel + 1, cs =>
    match value? fuel cs with
    | none => none
    | some (v, rest) =>
      match skipBlanks rest with
      | ']' :: left => some ([v], left)
      | ',' :: more => (elements? fuel more).map fun (vs, left) => (v :: vs, left)
      | _ => none

/-- Members up to the closing brace. -/
def entries? : Nat → List Char → Option (List (Key × Value) × List Char)
  | 0, _ => none
  | fuel + 1, cs =>
    match string? (skipBlanks cs) with
    | none => none
    | some (key, rest) =>
      match skipBlanks rest with
      | ':' :: rest =>
        match value? fuel rest with
        | none => none
        | some (v, rest) =>
          match skipBlanks rest with
          | '\x7d' :: left => some ([(.text key, v)], left)
          | ',' :: more => (entries? fuel more).map fun (m, left) => ((.text key, v) :: m, left)
          | _ => none
      | _ => none

end

end Json

/-- The value that a JSON text writes. -/
def Value.ofJson? (text : String) : Option Value :=
  match Json.value? (text.length + 1) text.toList with
  | some (v, rest) => if (Json.skipBlanks rest).isEmpty then some v else none
  | none => none

end EntitySchema
