import EntitySchema.Field.Kind
import EntitySchema.Naming
import EntitySchema.Tree.WrittenPath
import EntitySchema.Value.Display

/-!
# Field processors

Some field types change the schema beyond their own attributes. The processor of a type sees the schema compiled so far and
contributes a fragment to merge into it, together with places to take away first.

* `Contribution`: what a processor wants to be changed.
* `Contribution.apply`: the schema with the change.
* `personName`, `currency`, `linkMultiple`: the processors that come with the compiler.
* `fixed`, `written`: processors that always contribute the same.
-/
namespace EntitySchema

/-- What a processor wants to be changed, as it is written: an object to merge into the schema, and the paths of what is to be
taken away before.
mirrors src/entityforge/compiler/processors:21-26 (`ProcessorResult`) -/
structure Contribution where
  fragment : Value := .object []
  unset : Value := .list []

instance : Inhabited Contribution := ⟨{}⟩

/-- The schema after a contribution.
mirrors src/entityforge/compiler/entity:191-193 (`EntityCompiler._correct_fields`) -/
def Contribution.apply (c : Contribution) (schema : Members Key Value) : Except Misuse (Members Key Value) := do
  let cleared ← if c.unset.truthy then schema.unsetListed (← WrittenPath.listed c.unset) else pure schema
  return cleared.overlay (← c.fragment.openMembers)

/-- What a field, an entity and the schema compiled so far make a processor contribute, if it has anything to contribute with.
mirrors src/entityforge/compiler/processors:29-44 (`FieldProcessor`) -/
structure Processor where
  contribute : (field : String) → (entity : Key) → (schema : Members Key Value) → Except Misuse Contribution

namespace Processor

/-- Always contributes the same. -/
def fixed (c : Contribution) : Processor :=
  ⟨fun _ _ _ => .ok c⟩

/-- Contributes what is written as an object with a fragment and with places to take away, either of which may be left out. -/
def written (v : Value) : Processor :=
  ⟨fun _ _ _ => v.openMembers.map fun m =>
    { fragment := (m.get? "fragment").getD (.object []), unset := (m.get? "unset").getD (.list []) }⟩

/-- Contributes what follows from the field and the entity alone. -/
def ofNames (contribution : String → Key → Contribution) : Processor :=
  ⟨fun field entity _ => .ok (contribution field entity)⟩

/-- A fragment that gives fields to an entity. -/
def fieldsOf (entity : Key) (fields : Members Key Value) : Value :=
  .object [(entity, .object [("fields", .object fields)])]

/-- A field of a kind that is computed from others. -/
def unstored (kind : FieldKind) (more : Members Key Value) : Value :=
  .object (("type", .str kind.word) :: ("notStorable", .bool true) :: more)

/-! ## Names of persons -/

/-- The place of a compared value in a condition. -/
def valueMark : String := "\x7bvalue\x7d"

/-- The place of the direction in an ordering. -/
def directionMark : String := "\x7bdirection\x7d"

/-- The column of a part of a person's name. -/
def nameColumn (part field : String) : String :=
  Naming.underscored (Naming.composed field part .first)

/-- The alternatives that a column, another one or an expression over both compares with a value. -/
def anyCompares (operator first last full : String) : String :=
  let compares (operand : String) := operand ++ " " ++ operator ++ " " ++ valueMark
  "(" ++ " OR ".intercalate [compares first, compares last, compares full] ++ ")"

/-- The attributes of a full name over the columns of the first and the last name.
mirrors src/entityforge/compiler/processors:53,61-67 (`PersonNameProcessor.process`) -/
def fullName (first last : String) : Members Key Value :=
  let full := "CONCAT(" ++ first ++ ", ' ', " ++ last ++ ")"
  [("select", .str ("TRIM(" ++ full ++ ")")),
    ("where", .object [
      ("LIKE", .str (anyCompares "LIKE" first last full)),
      ("=", .str (anyCompares "=" first last full))]),
    ("orderBy", .str (first ++ " " ++ directionMark ++ ", " ++ last ++ " " ++ directionMark))]

/-- A person's name is read from the columns of its parts.
mirrors src/entityforge/compiler/processors:47-72 (`PersonNameProcessor`) -/
def personName : Processor :=
  ofNames fun field entity =>
    { fragment := fieldsOf entity
        [(field, unstored .varchar (fullName (nameColumn "first" field) (nameColumn "last" field)))] }

/-! ## Amounts and multiple links -/

/-- An amount also has a field with the amount in the default currency.
mirrors src/entityforge/compiler/processors:75-90 (`CurrencyProcessor`) -/
def currency : Processor :=
  ofNames fun field entity => { fragment := fieldsOf entity [(field ++ "Converted", unstored .float [])] }

/-- A field of many links gives way to the lists of their keys and names.
mirrors src/entityforge/compiler/processors:93-113 (`LinkMultipleProcessor`) -/
def linkMultiple : Processor :=
  ofNames fun field entity =>
    { fragment := fieldsOf entity
        [(field ++ "Ids", unstored .jsonArray []), (field ++ "Names", unstored .jsonObject [])]
      unset := .ofTexts [entity.display ++ ".fields." ++ field] }

/-- The processors that come with the compiler, under their field types.
mirrors src/entityforge/compiler/processors:116-120 (`BUILTIN_PROCESSORS`) -/
def builtins : Members Key Processor :=
  [("personName", personName), ("currency", currency), ("linkMultiple", linkMultiple)]

end Processor

instance : Inhabited Processor := ⟨.fixed {}⟩

end EntitySchema
