/-!
# Field kinds

The field types that the storage understands.

Results:
* `ofText?_word`: a kind is found by its word.
-/
namespace EntitySchema

/-- mirrors src/entityforge/core/types:23-44 (`SchemaFieldType`) -/
inductive FieldKind where
  | id
  | varchar
  | int
  | float
  | text
  | bool
  | foreignId
  | foreign
  | foreignType
  | date
  | datetime
  | jsonArray
  | jsonObject
  | password
deriving DecidableEq, Repr

namespace FieldKind

/-- The word for a kind. -/
def word : FieldKind → String
  | id => "id"
  | varchar => "varchar"
  | int => "int"
  | float => "float"
  | text => "text"
  | bool => "bool"
  | foreignId => "foreignId"
  | foreign => "foreign"
  | foreignType => "foreignType"
  | date => "date"
  | datetime => "datetime"
  | jsonArray => "jsonArray"
  | jsonObject => "jsonObject"
  | password => "password"

def all : List FieldKind :=
  [id, varchar, int, float, text, bool, foreignId, foreign, foreignType, date, datetime, jsonArray, jsonObject, password]

def words : List String :=
  all.map word

def ofText? (s : String) : Option FieldKind :=
  all.find? fun k => k.word == s

theorem ofText?_word (k : FieldKind) : ofText? k.word = some k := by
  cases k <;> decide

end FieldKind

end EntitySchema
