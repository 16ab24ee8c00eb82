import EntitySchema.Error
import EntitySchema.Record.Catalog
import EntitySchema.Value.Access

/-!
# Metadata of field types and link types

What a declared type brings to every field or relation of that type. Metadata is kept in canonical form; a type without
metadata brings nothing.

* `FieldType`, `LinkType`: views on the canonical records.
* `Metadata.typeOf`: the metadata of the type that a field declares.
-/
namespace EntitySchema

/-- Parameters of a field or a link under their names. -/
abbrev Params := Members Key Value

namespace Params

/-- Named parameters from an object of objects. -/
def ofObjects (m : Members Key Value) : Members String Params :=
  m.named.map fun entry => (entry.1, entry.2.members)

/-- Named parameters as an object of objects. -/
def toObjects (ps : Members String Params) : Members Key Value :=
  Members.keyed (ps.map fun entry => (entry.1, .object entry.2))

@[simp] theorem ofObjects_toObjects (ps : Members String Params) : ofObjects (toObjects ps) = ps := by
  simp [ofObjects, toObjects, Function.comp_def, Value.members]

end Params

/-- What a field type brings to its fields, as a canonical record.
mirrors src/entityforge/core/types:187-204 (`FieldTypeMetadata`) -/
structure FieldType where
  body : Members Key Value := []

namespace FieldType

/-- Reads the metadata of a field type. -/
def ofValue (v : Value) : Except Record.Rejection FieldType :=
  (Record.fieldType.accept "FieldTypeMetadata" v).map fun w => ⟨w.members⟩

/-- Parameters that lie beneath those of every field. -/
def fieldDefs (t : FieldType) : Params :=
  (t.body.value "fieldDefs").members

/-- The parts of a composite type with their declarations. -/
def parts (t : FieldType) : Members String Params :=
  Params.ofObjects (t.body.value "fields").members

/-- The link that every field adds to its entity. -/
def linkDefs (t : FieldType) : Params :=
  (t.body.value "linkDefs").members

/-- Whether fields of the type are left out. -/
def isSkipped (t : FieldType) : Bool :=
  (t.body.value "skipOrmDefs").truthy

/-- Whether fields of the type can be searched. -/
def isSearchable (t : FieldType) : Bool :=
  (t.body.value "fullTextSearch").truthy

/-- The parts that are searched; none of them if the field is searched itself. -/
def searchedParts (t : FieldType) : List String :=
  (t.body.value "fullTextSearchColumnList").texts

/-- The word that says where the parts go. -/
def naming? (t : FieldType) : Option String :=
  (t.body.value "naming").text?

end FieldType

/-- What a link type brings to its relations, as a canonical record.
mirrors src/entityforge/core/types:207-215 (`LinkTypeMetadata`) -/
structure LinkType where
  body : Members Key Value := []

namespace LinkType

/-- Reads the metadata of a link type. -/
def ofValue (v : Value) : Except Record.Rejection LinkType :=
  (Record.linkType.accept "LinkTypeMetadata" v).map fun w => ⟨w.members⟩

/-- Members that lie beneath those of every relation. -/
def relationDefs (t : LinkType) : Members Key Value :=
  (t.body.value "relationDefs").members

/-- Whether links of the type are left out. -/
def isSkipped (t : LinkType) : Bool :=
  (t.body.value "skipOrmDefs").truthy

end LinkType

/-- The metadata of all field types and link types.
mirrors src/entityforge/sources/definitions:40-90 (`MetadataSnapshot`) -/
structure Metadata where
  fieldTypes : Members String FieldType := []
  linkTypes : Members String LinkType := []

namespace Metadata

/-- mirrors src/entityforge/sources/definitions:86-87 (`MetadataSnapshot.get_field_type_metadata`) -/
def fieldType (m : Metadata) (name : String) : FieldType :=
  (m.fieldTypes.get? name).getD {}

/-- mirrors src/entityforge/sources/definitions:89-90 (`MetadataSnapshot.get_link_type_metadata`) -/
def linkType (m : Metadata) (name : String) : LinkType :=
  (m.linkTypes.get? name).getD {}

/-- The metadata of the type that parameters declare; a field without a type has none.
mirrors src/entityforge/compiler/fields:71-76 (`FieldTypeResolver.type_metadata`) -/
def typeOf (m : Metadata) (params : Params) : Except Misuse FieldType :=
  let declared := params.value "type"
  if declared.truthy then declared.word?.map fun word => (word.map m.fieldType).getD {} else .ok {}

/-- Reads every entry of a table, the first one that has a fault giving the report. -/
def readAll {α : Type} (read : Value → Except Record.Rejection α) (table : Members Key Value) :
    Except Error (Members String α) :=
  table.named.mapM fun entry =>
    match read entry.2 with
    | .ok a => .ok (entry.1, a)
    | .error report => .error (.rejected report)

/-- Reads the metadata of field types, then that of link types, from objects that may be left out.
mirrors src/entityforge/sources/definitions:54-81 (`MetadataSnapshot.from_mappings`) -/
def ofValues (fieldTypes linkTypes : Value) : Except Error Metadata := do
  let fieldTypes ← readAll FieldType.ofValue (← fieldTypes.givenMembers)
  let linkTypes ← readAll LinkType.ofValue (← linkTypes.givenMembers)
  return { fieldTypes, linkTypes }

end Metadata

end EntitySchema
