import EntitySchema.Value

/-!
# Shapes of records

A record is an object with known attributes; each attribute has a name in lower case with underscores, a key in camel case
and a shape for its value. `Shape` describes values, `Fault` says what is wrong with one and where, `Rejection` is the report
on a whole record.

* `Fault.label`, `Fault.text`: how a fault is named and described.
* `Rejection.message`: the report as a text.
-/
namespace EntitySchema.Record

/-- How an attribute may be written. -/
structure Attribute where
  name : String
  key : String
  required : Bool := false
deriving DecidableEq, Repr

/-- What a value has to look like. -/
inductive Shape where
  /-- Any value. -/
  | anything
  /-- A text. -/
  | text
  /-- A truth value, or a number or word that stands for one. -/
  | flag
  /-- An integer, or a number or text that stands for one. -/
  | whole
  /-- One of a few words. -/
  | oneOf (words : List String)
  /-- A truth value or a text; a number may stand for a truth value. -/
  | flagOrText
  /-- A text or a list of texts. -/
  | textOrTexts
  /-- Null or a value of the shape. -/
  | nullable (s : Shape)
  /-- A list with elements of the shape. -/
  | listOf (s : Shape)
  /-- A fixed list with elements of the shape. -/
  | tupleOf (s : Shape)
  /-- An object with values of the shape under any keys. -/
  | mapOf (s : Shape)
  /-- An object with known attributes; other keys are kept if the record is open, else left out. -/
  | record (title : String) (isOpen : Bool) (attributes : List (Attribute × Shape))

/-- What is wrong with a value. -/
inductive Flaw where
  | notText
  | notFlag
  | flagUnreadable
  | notWhole
  | wholeUnreadable
  | wholeFractional
  | wholeTooLarge
  | notList
  | notTuple
  | notObject
  | notRecord (title : String)
  | notOneOf (words : List String)
  | keyNotText
  | missing
deriving DecidableEq, Repr

namespace Flaw

/-- The short name of a flaw. -/
def label : Flaw → String
  | notText => "string_type"
  | notFlag => "bool_type"
  | flagUnreadable => "bool_parsing"
  | notWhole => "int_type"
  | wholeUnreadable => "int_parsing"
  | wholeFractional => "int_from_float"
  | wholeTooLarge => "int_parsing_size"
  | notList => "list_type"
  | notTuple => "tuple_type"
  | notObject => "dict_type"
  | notRecord _ => "model_type"
  | notOneOf _ => "enum"
  | keyNotText => "invalid_key"
  | missing => "missing"

/-- Words between quotes, the last one behind `or`. -/
def choices : List String → String
  | [] => ""
  | [w] => "'" ++ w ++ "'"
  | [w, v] => "'" ++ w ++ "' or '" ++ v ++ "'"
  | w :: rest => "'" ++ w ++ "', " ++ choices rest

/-- The description of a flaw. -/
def text : Flaw → String
  | notText => "Input should be a valid string"
  | notFlag => "Input should be a valid boolean"
  | flagUnreadable => "Input should be a valid boolean, unable to interpret input"
  | notWhole => "Input should be a valid integer"
  | wholeUnreadable => "Input should be a valid integer, unable to parse string as an integer"
  | wholeFractional => "Input should be a valid integer, got a number with a fractional part"
  | wholeTooLarge => "Unable to parse input string as an integer, exceeded maximum size"
  | notList => "Input should be a valid list"
  | notTuple => "Input should be a valid tuple"
  | notObject => "Input should be a valid dictionary"
  | notRecord title => "Input should be a valid dictionary or instance of " ++ title
  | notOneOf words => "Input should be " ++ choices words
  | keyNotText => "Keys should be strings"
  | missing => "Field required"

end Flaw

/-- A step of the way to a place in a record. -/
inductive Segment where
  /-- An attribute, a key or a part of a shape. -/
  | key (name : String)
  /-- A position in a list, or a key that is a number. -/
  | index (n : Int)
deriving DecidableEq, Repr

/-- A flaw and the way to the value that has it. -/
structure Fault where
  place : List Segment
  flaw : Flaw
deriving DecidableEq, Repr

/-- The same fault seen from one step further out. -/
def Fault.under (step : Segment) (f : Fault) : Fault :=
  { f with place := step :: f.place }

/-- All that is wrong with a record. -/
structure Rejection where
  title : String
  faults : List Fault
deriving DecidableEq, Repr

namespace Segment

/-- A step in a report; a key with a dot in it stands between grave accents. -/
def text : Segment → String
  | key name => if name.toList.contains '.' then "\x60" ++ name ++ "\x60" else name
  | index n => toString n

def value : Segment → Value
  | key name => .str name
  | index n => .int n

end Segment

namespace Fault

def lines (f : Fault) : List String :=
  (if f.place.isEmpty then [] else [".".intercalate (f.place.map Segment.text)]) ++
    ["  " ++ f.flaw.text ++ " [type=" ++ f.flaw.label ++ "]"]

def value (f : Fault) : Value :=
  .object [("type", .str f.flaw.label), ("loc", .list (f.place.map Segment.value)), ("msg", .str f.flaw.text)]

end Fault

/-- The report: how many faults there are, then each with its place. -/
def Rejection.message (r : Rejection) : String :=
  let n := r.faults.length
  "\n".intercalate
    ((toString n ++ (if n = 1 then " validation error for " else " validation errors for ") ++ r.title) ::
      r.faults.flatMap Fault.lines)

end EntitySchema.Record
