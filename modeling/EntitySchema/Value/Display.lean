import EntitySchema.Value
import EntitySchema.Number.Decimal
import EntitySchema.Text.Printable

/-!
# Values inside a message

A text stands in a message as it is; any other value is spelled out, and texts inside lists and objects are quoted.

* `Value.display`, `Key.display`: the value or the key by itself.
* `Value.spelled`, `Key.spelled`: the value or the key inside another value.
-/
namespace EntitySchema

namespace Display

/-- The two spellings of truth and the word for nothing. -/
structure Words where
  yes : String
  no : String
  nothing : String

def words : Words := ⟨"True", "False", "None"⟩

def hexDigits (width n : Nat) : List Char :=
  let ds := Nat.toDigits 16 n
  List.replicate (width - ds.length) '0' ++ ds

/-- A character between quotes; one without a shape is written by its number. -/
def shown (quote c : Char) : List Char :=
  if c = quote ∨ c = '\\' then ['\\', c]
  else if c = '\n' then ['\\', 'n']
  else if c = '\r' then ['\\', 'r']
  else if c = '\t' then ['\\', 't']
  else if Text.isPrintable c then [c]
  else if c.toNat < 0x100 then '\\' :: 'x' :: hexDigits 2 c.toNat
  else if c.toNat < 0x10000 then '\\' :: 'u' :: hexDigits 4 c.toNat
  else '\\' :: 'U' :: hexDigits 8 c.toNat

/-- Single quotes, or double ones around a text that holds single quotes only. -/
def quoted (s : String) : String :=
  let cs := s.toList
  let quote := if cs.contains '\'' && !cs.contains '"' then '"' else '\''
  String.ofList (quote :: cs.flatMap (shown quote) ++ [quote])

end Display

/-- A key as it stands inside a value. -/
def Key.spelled : Key → String
  | .text s => Display.quoted s
  | .null => Display.words.nothing
  | .bool b => if b then Display.words.yes else Display.words.no
  | .int n => toString n
  | .float x => x.text

/-- A key as it stands in a message. -/
def Key.display : Key → String
  | .text s => s
  | key => key.spelled

mutual

/-- A value as it stands inside another one. -/
def Value.spelled : Value → String
  | .null => Key.null.spelled
  | .bool b => (Key.bool b).spelled
  | .int n => (Key.int n).spelled
  | .float x => (Key.float x).spelled
  | .str s => (Key.text s).spelled
  | .list xs => "[" ++ ", ".intercalate (Value.spelledElements xs) ++ "]"
  | .object m => "\x7b" ++ ", ".intercalate (Value.spelledMembers m) ++ "\x7d"

def Value.spelledElements : List Value → List String
  | [] => []
  | v :: rest => v.spelled :: Value.spelledElements rest

def Value.spelledMembers : List (Key × Value) → List String
  | [] => []
  | (key, v) :: rest => (key.spelled ++ ": " ++ v.spelled) :: Value.spelledMembers rest

end

/-- A value as it stands in a message. -/
def Value.display : Value → String
  | .str s => s
  | v => v.spelled

end EntitySchema
