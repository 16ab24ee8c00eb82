import EntitySchema.Value
import EntitySchema.Text.Case

/-!
# Defaults of fields

A declared default is a value that the storage can keep, or an expression that is computed when a row is made and so never
reaches the schema.

Results:
* `ofValue_of_not_text`: only a text can be computed.
-/
namespace EntitySchema

/-- mirrors src/entityforge/core/types:81-92 -/
inductive FieldDefault where
  /-- Known when the schema is made. -/
  | fixed (v : Value)
  /-- Computed when a row is made. -/
  | computed (expression : String)

namespace FieldDefault

/-- Whether a text begins with another one, in capital or small letters. -/
def startsWith (text start : String) : Bool :=
  (Text.lower start).toList.isPrefixOf (Text.lower text).toList

/-- A text that begins with `start` is computed from what follows; everything else is fixed.
mirrors src/entityforge/core/types:95-103 (`parse_default`) -/
def ofValue (start : String) : Value → FieldDefault
  | .str s =>
    if startsWith s start then computed (String.ofList (s.toList.drop start.toList.length)) else fixed (.str s)
  | v => fixed v

theorem ofValue_of_not_text {start : String} {v : Value} (h : v.text? = none) : ofValue start v = fixed v := by
  cases v <;> simp_all [ofValue, Value.text?]

end FieldDefault

end EntitySchema
