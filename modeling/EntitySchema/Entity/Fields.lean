import EntitySchema.Compiler
import EntitySchema.Entity.Declared

/-!
# Compiled fields of an entity

Every entity has an identifier, a name and a mark for deleted rows, whether they are declared or not. The declarations are
resolved over those; then processors, default attributes and the fields of followed entities correct the schema.

* `seeds`: the fields that every entity has.
* `resolveAll`: the resolved fields.
* `correct`: the schema after processors and the rest.
-/
namespace EntitySchema.Entity

/-- The fields that every entity has; a declared name keeps its declared type.
mirrors src/entityforge/compiler/entity:152-159 (`EntityCompiler._seed_fields`) -/
def seeds (d : Definition) : Members String Params :=
  let declared := (d.field "name").value "type"
  let nameType := if declared.truthy then declared else .str FieldKind.varchar.word
  [("id", [("type", .str FieldKind.id.word), ("dbType", .str FieldKind.varchar.word)]),
    ("name", [("type", nameType), ("notStorable", .bool true)]),
    ("deleted", [("type", .str FieldKind.bool.word), ("default", .bool false)])]

/-- Adds a resolved field: over the field of its name, save that a resolved name takes the place of the one that was there.
mirrors src/entityforge/compiler/entity:172-175 (`EntityCompiler._compile_fields`) -/
def addField (fields : Members String Params) (name : String) (resolved : Params) : Members String Params :=
  match fields.get? name with
  | some old => if name = "name" then fields.set name resolved else fields.set name (old.overlay resolved)
  | none => fields.set name resolved

/-- Resolves the declarations that have a type and adds the fields that are not left out.
mirrors src/entityforge/compiler/entity:161-177 (`EntityCompiler._compile_fields`) -/
def resolveAll (c : Config) (m : Metadata) (fields : Members String Params) :
    List (String × Params) → Run (Members String Params)
  | [] => pure fields
  | (name, params) :: rest => do
    if (params.value "type").truthy then
      match ← Field.resolve c name params (← m.typeOf params) with
      | some resolved => resolveAll c m (addField fields name resolved) rest
      | none => resolveAll c m fields rest
    else resolveAll c m fields rest

/-! ## Corrections -/

/-- A fragment that concerns the fields of an entity. -/
def fieldsFragment (entity : Key) (fields : Members Key Value) : Members Key Value :=
  [(entity, .object [("fields", .object fields)])]

/-- The schema after the processor of a field's type, if there is one.
mirrors src/entityforge/compiler/entity:188-193 (`EntityCompiler._correct_fields`) -/
def process (r : Registry) (entity : Key) (field : String) (declared : Value) (schema : Members Key Value) :
    Except Misuse (Members Key Value) := do
  match ← r.lookupType declared with
  | some p => (← p.contribute field entity schema).apply schema
  | none => return schema

/-- The schema after the default that a declared field gives to itself among its default attributes.
mirrors src/entityforge/compiler/entity:195-201 (`EntityCompiler._correct_fields`) -/
def withDefaultAttribute (d : Definition) (entity : Key) (field : String) (schema : Members Key Value) :
    Members Key Value :=
  match ((d.field field).value "defaultAttributes").members.get? field with
  | some default => schema.overlay (fieldsFragment entity [(field, .object [("default", default)])])
  | none => schema

/-- The schema after the corrections of one field.
mirrors src/entityforge/compiler/entity:183-201 (`EntityCompiler._correct_fields`) -/
def correctField (r : Registry) (d : Definition) (entity : Key) (schema : Members Key Value)
    (field : String × Params) : Except Misuse (Members Key Value) :=
  let declared := field.2.value "type"
  if declared.truthy then (process r entity field.1 declared schema).map (withDefaultAttribute d entity field.1)
  else .ok schema

/-- The fields of an entity that users may follow.
mirrors src/entityforge/compiler/entity:39-43 (`STREAM_FIELDS`) -/
def streamFields : Members Key Value :=
  let hidden (kind : FieldKind) : Value :=
    .object [("type", .str kind.word), ("notStorable", .bool true), ("notExportable", .bool true)]
  [("isFollowed", hidden .varchar), ("followersIds", hidden .jsonArray), ("followersNames", hidden .jsonObject)]

/-- The schema after the corrections of the given fields, and with the fields of a followed entity.
mirrors src/entityforge/compiler/entity:179-206 (`EntityCompiler._correct_fields`) -/
def correct (r : Registry) (d : Definition) (entity : Key) (fields : Members String Params) (schema : Members Key Value) :
    Except Misuse (Members Key Value) := do
  let schema ← fields.foldlM (correctField r d entity) schema
  return if d.isStream && !d.fields.contains "isFollowed" then schema.overlay (fieldsFragment entity streamFields)
    else schema

end EntitySchema.Entity
