import EntitySchema.Definition

/-!
# Snapshots

One consistent set of metadata: all entities, as they are written or already read, with the metadata of field types and link
types.

* `Snapshot.ofValues`: reads the metadata of types; entities are read one by one when they are compiled.
-/
namespace EntitySchema

/-- What stands for an entity in a snapshot. -/
inductive Declared where
  /-- A definition that is still to be read. -/
  | written (v : Value)
  /-- A definition that has been read. -/
  | checked (d : Definition)

instance : Inhabited Declared := ⟨.written .null⟩

/-- The definition as a value: as it was written, or in canonical form. -/
def Declared.toValue : Declared → Value
  | written v => v
  | checked d => .object d.body

/-- mirrors src/entityforge/sources/definitions:40-90 (`MetadataSnapshot`) -/
structure Snapshot where
  entities : Members Key Declared := []
  metadata : Metadata := {}

namespace Snapshot

/-- A snapshot of entities as they are written. -/
def ofWritten (entities : Members Key Value) (metadata : Metadata) : Snapshot :=
  { entities := entities.map fun entity => (entity.1, .written entity.2), metadata }

/-- Reads the metadata of types from two objects, either of which may be left out, and takes the entities as written.
mirrors src/entityforge/sources/definitions:54-81 (`MetadataSnapshot.from_mappings`) -/
def ofValues (entities fieldTypes linkTypes : Value) : Except Error Snapshot := do
  let metadata ← Metadata.ofValues fieldTypes linkTypes
  return ofWritten (← entities.toMembers) metadata

end Snapshot

instance : Inhabited Snapshot := ⟨{}⟩

end EntitySchema
