import EntitySchema.Error
import EntitySchema.Json.Text
import EntitySchema.Record.Catalog

/-!
# Compiled schemas

The schema of every entity in canonical form, under the names of the entities.

* `Schema.ofTree`: reads a tree as a schema, or reports all that is wrong with it.
* `Schema.json`: the text that the storage reads.
-/
namespace EntitySchema

/-- mirrors src/entityforge/core/types:299-317 (`CompiledSchema`) -/
structure Schema where
  entities : Members Key Value := []

namespace Schema

/-- Reads a tree of entities.
mirrors src/entityforge/compiler/schema:176-183 (`SchemaCompiler._validate`) -/
def ofTree (v : Value) : Except Record.Rejection Schema :=
  (Record.compiledSchema.accept "CompiledSchema" v).map fun w => ⟨w.members⟩

def toValue (s : Schema) : Value :=
  .object s.entities

/-- The schema as a text; equal schemas have equal texts.
mirrors src/entityforge/core/types:315-317 (`CompiledSchema.dumps`) -/
def json (s : Schema) : String :=
  s.toValue.json

/-- The names of the entities in their order.
mirrors src/entityforge/core/types:308-309 (`CompiledSchema.entity_types`) -/
def entityNames (s : Schema) : List Key :=
  s.entities.keys

/-- The schema of an entity.
mirrors src/entityforge/core/types:302-303 (`CompiledSchema.__getitem__`) -/
def entity? (s : Schema) (name : Key) : Option Value :=
  s.entities.get? name

end Schema

instance : Inhabited Schema := ⟨{}⟩

end EntitySchema
