import EntitySchema.Entity.Fields
import EntitySchema.FullText
import EntitySchema.Index.Synthesis

/-!
# Compiling an entity

An entity starts from its options and its compiled fields. Relations, full-text search and indexes join it one after the other,
each made from what is there by then; the ordering of its collection comes last.

* `base`: an entity before anything is compiled.
* `relate`, `search`, `indexed`: the schema with relations, full-text search and indexes.
* `collection?`: the ordering of an entity's collection.
* `compile`: the schema of one entity.
-/
namespace EntitySchema.Entity

/-- An entity without fields and relations, with the options that are copied as they are declared.
mirrors src/entityforge/compiler/entity:84-89 (`EntityCompiler.compile`) -/
def base (c : Config) (d : Definition) : Members Key Value :=
  let start : Members Key Value := [("fields", .object []), ("relations", .object [])]
  c.permittedEntityOptions.foldl (fun acc (option : String) =>
    let declared := d.body.value option
    if declared.isNull then acc else acc.set option declared) start

/-- The schema with a relation for every link that is not left out.
mirrors src/entityforge/compiler/entity:97-100 (`EntityCompiler.compile`) -/
def relate (m : Metadata) (entity : Key) (links : Members String Params) (schema : Members Key Value) : Run (Members Key Value) :=
  links.foldlM (fun acc link => do
    let compiled ← (Value.object acc).item entity
    return Members.overlay acc (← Link.resolve m (.ofKey entity) (.str link.1) link.2 compiled)) schema

/-- The schema with full-text search, if the entity has it.
mirrors src/entityforge/compiler/entity:102-104 (`EntityCompiler.compile`) -/
def search (c : Compiler) (m : Metadata) (entity : Key) (d : Definition) (schema : Members Key Value) :
    Run (Members Key Value) := do
  let found ← FullText.fragment c.config m c.probe entity d
  return if found.isEmpty then schema else schema.overlay [(entity, .object found)]

/-- The schema with the indexes of the entity and of its relations.
mirrors src/entityforge/compiler/entity:106 (`EntityCompiler.compile`) -/
def indexed (c : Config) (entity : Key) (schema : Members Key Value) : Except Misuse (Members Key Value) := do
  let compiled ← (Value.object schema).item entity
  return schema.overlay [(entity, .object (← Index.synthesize c compiled))]

/-! ## Ordering -/

/-- The column or the field by which a collection is ordered; a field has to be there.
mirrors src/entityforge/compiler/entity:216-219 (`EntityCompiler._compile_collection`) -/
def orderBy? (options : Members Key Value) (fields : Value) : Except Misuse (Option Value) := do
  let column := options.value "orderByColumn"
  if !column.isNull then return some column
  match options.value "orderBy" with
  | .str name => return if ← fields.holds (.str name) then some (.str name) else none
  | _ => return none

/-- The direction in which a collection is ordered.
mirrors src/entityforge/compiler/entity:221 (`EntityCompiler._compile_collection`) -/
def direction (options : Members Key Value) : String :=
  match options.value "order" with
  | .str "" => "ASC"
  | .str order => Text.upper order
  | _ => "ASC"

/-- The ordering of a collection, if the definition gives it any options.
mirrors src/entityforge/compiler/entity:208-222 (`EntityCompiler._compile_collection`) -/
def collection? (options : Members Key Value) (fields : Value) : Except Misuse (Option (Members Key Value)) := do
  if options.isEmpty then return none
  let ordering : Members Key Value := [("order", .str (direction options))]
  match ← orderBy? options fields with
  | some v => return some (("orderBy", v) :: ordering)
  | none => return some ordering

/-- The schema with the ordering of the entity's collection.
mirrors src/entityforge/compiler/entity:108-110 (`EntityCompiler.compile`) -/
def ordered (entity : Key) (d : Definition) (schema : Members Key Value) : Except Misuse (Members Key Value) := do
  let compiled ← (Value.object schema).item entity
  match ← collection? d.collection (← compiled.item "fields") with
  | some ordering => return schema.set entity (.object (compiled.members.set "collection" (.object ordering)))
  | none => return schema

/-! ## The whole -/

/-- The schema of one entity under its name.
mirrors src/entityforge/compiler/entity:71-112 (`EntityCompiler.compile`) -/
def compile (c : Compiler) (m : Metadata) (entity : Key) (d : Definition) : Run (Members Key Value) := do
  let links ← links m d
  let declared ← fields c.config m entity d links
  let compiled ← resolveAll c.config m (seeds d) declared
  let own := (base c.config d).set "fields" (.object (Params.toObjects compiled))
  let schema : Members Key Value := [(entity, .object own)]
  let schema ← correct c.registry d entity compiled schema
  let schema ← relate m entity links schema
  let schema ← search c m entity d schema
  let schema ← indexed c.config entity schema
  ordered entity d schema

end EntitySchema.Entity
