import EntitySchema.Value
import EntitySchema.Number.Decimal

/-!
# JSON text of a value

Values are written on one line, members in their order, with a blank behind each comma and colon. Only printable ASCII is
used: every other character is written by its UTF-16 units.

* `Value.json`: the text of a value.
* `quoted`: the text of a string.
* `Key.json`: the text of a key, which is always a string.
-/
namespace EntitySchema

namespace Json

def hexDigit (n : Nat) : Char :=
  if n < 10 then Char.ofNat (48 + n) else Char.ofNat (87 + n)

/-- A UTF-16 unit as an escape of four hexadecimal digits. -/
def unitEscape (n : Nat) : List Char :=
  ['\\', 'u', hexDigit (n / 4096 % 16), hexDigit (n / 256 % 16), hexDigit (n / 16 % 16), hexDigit (n % 16)]

/-- A character inside a quoted string. -/
def escaped (c : Char) : List Char :=
  if c = '"' then ['\\', '"']
  else if c = '\\' then ['\\', '\\']
  else if c = '\n' then ['\\', 'n']
  else if c = '\r' then ['\\', 'r']
  else if c = '\t' then ['\\', 't']
  else if c.toNat = 8 then ['\\', 'b']
  else if c.toNat = 12 then ['\\', 'f']
  else if c.toNat < 0x20 then unitEscape c.toNat
  else if c.toNat < 0x7f then [c]
  else if c.toNat < 0x10000 then unitEscape c.toNat
  else
    let n := c.toNat - 0x10000
    unitEscape (0xd800 + n / 1024) ++ unitEscape (0xdc00 + n % 1024)

def quoted (s : String) : String :=
  String.ofList ('"' :: s.toList.flatMap escaped ++ ['"'])

/-- The text of a scalar. -/
def scalar : Key → String
  | .text s => quoted s
  | .null => "null"
  | .bool b => if b then "true" else "false"
  | .int n => toString n
  | .float x => x.text

end Json

/-- The JSON text of a key; one that is no text is written as the text of its own. -/
def Key.json : Key → String
  | .text s => Json.quoted s
  | key => Json.quoted (Json.scalar key)

mutual

/-- The JSON text of a value. -/
def Value.json : Value → String
  | .null => Json.scalar .null
  | .bool b => Json.scalar (.bool b)
  | .int n => Json.scalar (.int n)
  | .float x => Json.scalar (.float x)
  | .str s => Json.scalar (.text s)
  | .list xs => "[" ++ ", ".intercalate (Value.jsonElements xs) ++ "]"
  | .object m => "\x7b" ++ ", ".intercalate (Value.jsonMembers m) ++ "\x7d"

def Value.jsonElements : List Value → List String
  | [] => []
  | v :: rest => v.json :: Value.jsonElements rest

def Value.jsonMembers : List (Key × Value) → List String
  | [] => []
  | (key, v) :: rest => (key.json ++ ": " ++ v.json) :: Value.jsonMembers rest

end

end EntitySchema
