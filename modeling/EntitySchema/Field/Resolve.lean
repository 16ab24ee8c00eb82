import EntitySchema.Config
import EntitySchema.Field.Default
import EntitySchema.Journal
import EntitySchema.Metadata
import EntitySchema.Naming
import EntitySchema.Tree.Merge

/-!
# Resolving fields

A declaration becomes the attributes of a compiled field: parameters of the type lie beneath the declared ones, declared names
become compiled names, computed defaults are left out, and a type's default length is filled in. A composite type also
declares parts, and some types add a link.

* `resolve`: the compiled attributes, or nothing for a field that is left out.
* `parts`: declarations of a composite field's parts.
* `contributedLink`: the link that a field adds.
-/
namespace EntitySchema.Field

/-- Declared names and the compiled names they become, in the order of the compiled attributes.
mirrors src/entityforge/compiler/fields:24-44 (`FIELD_ACCORDANCES`) -/
def compiledNames : List (String × String) := [
  ("type", "type"),
  ("dbType", "dbType"),
  ("maxLength", "len"),
  ("len", "len"),
  ("notNull", "notNull"),
  ("exportDisabled", "notExportable"),
  ("autoincrement", "autoincrement"),
  ("entity", "entity"),
  ("notStorable", "notStorable"),
  ("link", "relation"),
  ("field", "foreign"),
  ("unique", "unique"),
  ("index", "index"),
  ("default", "default"),
  ("select", "select"),
  ("orderBy", "orderBy"),
  ("where", "where"),
  ("storeArrayValues", "storeArrayValues"),
  ("binary", "binary")]

/-- Declared parameters over those of the type. A field of type `base` with a column type is stored.
mirrors src/entityforge/compiler/fields:97-101 (`FieldTypeResolver.resolve`) -/
def withTypeDefs (t : FieldType) (params : Params) : Params :=
  let params := t.fieldDefs.overlay params
  if (params.value "type").isText "base" && params.contains "dbType" then params.set "notStorable" (.bool false)
  else params

/-- A field that is required by the application need not be so in the storage: a false `notNull` then says nothing.
mirrors src/entityforge/compiler/fields:107-109 (`FieldTypeResolver.resolve`) -/
def withoutIdleNotNull (params : Params) : Params :=
  if params.contains "notNull" && !(params.value "notNull").truthy && (params.value "required").truthy then
    params.erase "notNull"
  else params

/-- The compiled attribute that a declared one becomes, if it becomes one.
mirrors src/entityforge/compiler/fields:126-134 (`FieldTypeResolver._init_values`) -/
def attribute? (c : Config) (declared : String) (v : Value) : Option Value :=
  if declared = "default" then
    match FieldDefault.ofValue c.computedDefaultStart v with
    | .fixed v => some v
    | .computed _ => none
  else some v

/-- The compiled attributes of declared parameters, and the declared type besides.
mirrors src/entityforge/compiler/fields:122-139 (`FieldTypeResolver._init_values`) -/
def attributes (c : Config) (params : Params) : Params :=
  let renamed := compiledNames.foldl (fun acc name =>
    match (params.get? name.1).bind (attribute? c name.1) with
    | some v => Members.set acc name.2 v
    | none => acc) []
  let declared := params.value "type"
  if declared.truthy then Members.set renamed "fieldType" declared else renamed

/-- A field without a length gets the default length of its type.
mirrors src/entityforge/compiler/fields:116-118 (`FieldTypeResolver.resolve`) -/
def withDefaultLength (c : Config) (defs : Params) : Except Misuse Params :=
  let declared := defs.value "type"
  if declared.truthy && !defs.contains "len" then
    declared.word?.map fun word =>
      match word.bind c.defaultLength.get? with
      | some n => defs.set "len" (.int n)
      | none => defs
  else .ok defs

/-- The compiled attributes of a field that is not left out.
mirrors src/entityforge/compiler/fields:107-120 (`FieldTypeResolver.resolve`) -/
def compiled (c : Config) (params : Params) : Except Misuse Params :=
  let defs := attributes c (withoutIdleNotNull params)
  let defs :=
    match params.value "db" with
    | .bool false => defs.set "notStorable" (.bool true)
    | _ => defs
  withDefaultLength c defs

/-- Resolves a field whose type has the metadata `t`.
mirrors src/entityforge/compiler/fields:78-120 (`FieldTypeResolver.resolve`) -/
def resolve (c : Config) (name : String) (params : Params) (t : FieldType) : Run (Option Params) := do
  let params := withTypeDefs t params
  if t.isSkipped || (params.value "skipOrmDefs").truthy then
    Run.note (.debug .fields ("Field " ++ name ++ " skipped: skipOrmDefs"))
    return none
  else
    return some (← compiled c params)

/-- The declarations of a composite field's parts under their names.
mirrors src/entityforge/compiler/fields:141-155 (`FieldTypeResolver.sub_field_declarations`) -/
def parts (c : Config) (name : String) (t : FieldType) : Members String Params :=
  let place := Naming.PartPlace.ofText (t.naming?.getD c.defaultNaming)
  Members.ofEntries (t.parts.map fun part => (Naming.composed name part.1 place, part.2))

/-- The link that a field adds; an entity that the field declares takes the place of the type's.
mirrors src/entityforge/compiler/fields:157-167 (`FieldTypeResolver.link_declaration`) -/
def contributedLink (params : Params) (t : FieldType) : Option Params :=
  if t.linkDefs.isEmpty then none
  else
    let entity := params.value "entity"
    some (if entity.truthy then t.linkDefs.set "entity" entity else t.linkDefs)

end EntitySchema.Field
