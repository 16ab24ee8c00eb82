import EntitySchema.Field.Normal
import EntitySchema.Link.Kind
import EntitySchema.Link.Relation

/-!
# Junction entities

The rows of a many-to-many relation are kept in an entity of their own: an identifier, a mark for deleted rows, a key column
for either side and the additional columns of the link.

* `fields`: the declarations of a junction's fields.
* `entities`: the junctions of all relations of a compiled entity, a later one replacing an earlier one of its name.
-/
namespace EntitySchema.Junction

/-- The fields of a junction under their names.
mirrors src/entityforge/compiler/schema:156-167 (`SchemaCompiler.junction_entities`) -/
def fields (c : Config) (relation : Members Key Value) : Except Misuse (Members Key Value) := do
  let base : Members Key Value := [
    ("id", .object [("type", .str FieldKind.id.word), ("autoincrement", .bool true),
      ("dbType", .str c.junctionIdDbType)]),
    ("deleted", .object [("type", .str FieldKind.bool.word), ("default", .bool false)])]
  let keys ← (relation.value "midKeys").givenParts
  let keyed ← keys.foldlM (fun acc key => do
    return Members.set acc (← key.key) (.object [("type", .str FieldKind.foreignId.word)])) base
  let columns ← (relation.value "additionalColumns").givenMembers
  columns.foldlM (fun acc column => do
    let defs : Members Key Value ← column.2.givenMembers
    let type := (Members.get? defs "type").getD (.str FieldKind.varchar.word)
    return Members.set acc column.1 (.object [("type", type)])) keyed

/-- The junction of a relation, if it is a many-to-many one: its name and its schema.
mirrors src/entityforge/compiler/schema:152-172 (`SchemaCompiler.junction_entities`) -/
def ofRelation (c : Config) (relation : Value) : Run (Option (Key × Value)) := do
  let members ← relation.openMembers
  if (members.value "type").isText LinkKind.manyMany.word then
    let name ← (← relation.item "relationName").nameText
    let entity := Naming.junctionEntity name
    let declared ← fields c members
    let normal ← Field.normalizeAll c entity declared
    return some (entity, .object [("skipRebuild", .bool true), ("fields", .object normal)])
  else return none

/-- The junctions of all relations of a compiled entity.
mirrors src/entityforge/compiler/schema:147-174 (`SchemaCompiler.junction_entities`) -/
def entities (c : Config) (compiled : Value) : Run (Members Key Value) := do
  let members ← compiled.openMembers
  let relations ← (members.value "relations").givenMembers
  relations.foldlM (fun acc relation => do
    match ← ofRelation c relation.2 with
    | some (entity, schema) => return Members.set acc entity schema
    | none => return acc) []

end EntitySchema.Junction
