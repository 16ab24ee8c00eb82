import EntitySchema.Config
import EntitySchema.Field.Kind
import EntitySchema.Journal
import EntitySchema.Text.Blank
import EntitySchema.Text.Case
import EntitySchema.Value.Access

/-!
# Normal form of fields

The last pass over every compiled field: identifiers get their column type, truth values a default, unknown types the default
type. A field without a type is dropped unless it is not stored.

* `normalize`: the normal form of a field, or nothing for one that is dropped.
* `normalizeAll`: the same for the fields of an entity.
-/
namespace EntitySchema.Field

/-- Types that the storage reads although they are no kinds of its own.
mirrors src/entityforge/compiler/fields:47 (`PASSTHROUGH_TYPES`) -/
def passedTypes : List String := ["email", "phone"]

/-- Text defaults that stand for false; any other text stands for true.
mirrors src/entityforge/compiler/fields:50 (`FALSE_STRINGS`) -/
def falseTexts : List String := ["", "0", "false"]

/-- The truth value that a default stands for.
mirrors src/entityforge/compiler/fields:170-173 (`_to_bool`) -/
def toFlag : Value → Bool
  | .str s => !falseTexts.contains (Text.lower (String.ofList (Text.trim Text.isSpace s.toList)))
  | v => v.truthy

/-- The column of an identifier.
mirrors src/entityforge/compiler/fields:193-198 (`normalize_field`) -/
def identifier (c : Config) (params : Members Key Value) : Members Key Value :=
  if c.integerDbTypes.any fun t => (params.value "dbType").isText t then params
  else (params.set "dbType" (.str c.idDbType)).setNew "len" (.int c.idLength)

/-- The column that names the entity of a parent.
mirrors src/entityforge/compiler/fields:200-203 (`normalize_field`) -/
def discriminator (c : Config) (params : Members Key Value) : Members Key Value :=
  let params := params.set "dbType" (.str FieldKind.varchar.word)
  if (params.value "len").truthy then params
  else params.set "len" (.int ((c.defaultLength.get? FieldKind.varchar.word).getD 255))

/-- A truth value always has a default.
mirrors src/entityforge/compiler/fields:205-207 (`normalize_field`) -/
def flag (c : Config) (params : Members Key Value) : Members Key Value :=
  let default := params.value "default"
  params.set "default" (.bool (if default.isNull then c.boolDefault else toFlag default))

/-- The normal form of a field that has a type.
mirrors src/entityforge/compiler/fields:191-215 (`normalize_field`) -/
def normalizeTyped (c : Config) (declared : Value) (params : Members Key Value) : Except Misuse (Members Key Value) :=
  declared.word?.map fun word =>
    match word.bind FieldKind.ofText? with
    | some .id => identifier c params
    | some .foreignId => (identifier c params).set "notNull" (.bool false)
    | some .foreignType => discriminator c params
    | some .bool => flag c params
    | some _ => params
    | none => if word.any passedTypes.contains then params else params.set "type" (.str c.defaultFieldType)

/-- The normal form of a field, or nothing if the field is dropped.
mirrors src/entityforge/compiler/fields:176-215 (`normalize_field`) -/
def normalize (c : Config) (params : Members Key Value) : Except Misuse (Option (Members Key Value)) :=
  let declared := params.value "type"
  if declared.isNull then .ok (if (params.value "notStorable").truthy then some params else none)
  else (normalizeTyped c declared params).map some

/-- The normal forms of an entity's fields, in their order.
mirrors src/entityforge/compiler/fields:218-229 (`normalize_fields`) -/
def normalizeAll (c : Config) (entity : Key) : List (Key × Value) → Run (Members Key Value)
  | [] => pure []
  | (name, v) :: rest => do
    let params ← v.openMembers
    match ← normalize c params with
    | some normal => return (name, .object normal) :: (← normalizeAll c entity rest)
    | none =>
      Run.note (.debug .fields (entity.display ++ "." ++ name.display ++ " dropped: no type and not marked notStorable"))
      normalizeAll c entity rest

end EntitySchema.Field
