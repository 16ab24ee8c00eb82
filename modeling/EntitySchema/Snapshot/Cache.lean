import EntitySchema.Snapshot

/-!
# Cached snapshots

A cache keeps the snapshot that was last loaded. It loads on first use and on request; a load that fails is counted but
leaves the cache as it was. The loader is asked with the number of calls before, so that its answers may differ from call to
call.

* `Cache.reload`, `Cache.access`: the snapshot or the error, with the cache afterwards.
* `Cache.entities`, `Cache.fieldType`, `Cache.linkType`: what the current snapshot holds, with the cache afterwards.

Results:
* `current_reload`: the snapshot after a load.
* `access_of_current`: a snapshot that is there is not loaded again.
-/
namespace EntitySchema

/-- What each call of a loader gives, by the number of calls before it. -/
abbrev Loader := Nat → Except Error Snapshot

/-- mirrors src/entityforge/sources/definitions:93-125 (`SnapshotCache`) -/
structure Cache where
  /-- The snapshot that was last loaded. -/
  current : Option Snapshot := none
  /-- How often the loader was called. -/
  loads : Nat := 0

namespace Cache

/-- Loads a new snapshot.
mirrors src/entityforge/sources/definitions:112-116 (`SnapshotCache.reload`) -/
def reload (load : Loader) (c : Cache) : Except Error Snapshot × Cache :=
  match load c.loads with
  | .ok s => (.ok s, { current := some s, loads := c.loads + 1 })
  | .error e => (.error e, { c with loads := c.loads + 1 })

/-- The current snapshot, which is loaded if there is none.
mirrors src/entityforge/sources/definitions:105-110 (`SnapshotCache.snapshot`) -/
def access (load : Loader) (c : Cache) : Except Error Snapshot × Cache :=
  match c.current with
  | some s => (.ok s, c)
  | none => c.reload load

/-- Loads a new snapshot on request, else gives the current one.
mirrors src/entityforge/compiler/schema:107-110 (`SchemaCompiler._snapshot`) -/
def get (load : Loader) (reload : Bool) (c : Cache) : Except Error Snapshot × Cache :=
  if reload then c.reload load else c.access load

/-- What is read off the current snapshot. -/
def read {α : Type} (load : Loader) (f : Snapshot → α) (c : Cache) : Except Error α × Cache :=
  let (found, c) := c.access load
  (found.map f, c)

/-- The entities of the current snapshot.
mirrors src/entityforge/sources/definitions:118-119 (`SnapshotCache.get_entity_definitions`) -/
def entities (load : Loader) (c : Cache) : Except Error (Members Key Declared) × Cache :=
  c.read load Snapshot.entities

/-- The metadata of a field type in the current snapshot.
mirrors src/entityforge/sources/definitions:121-122 (`SnapshotCache.get_field_type_metadata`) -/
def fieldType (load : Loader) (name : String) (c : Cache) : Except Error FieldType × Cache :=
  c.read load (·.metadata.fieldType name)

/-- The metadata of a link type in the current snapshot.
mirrors src/entityforge/sources/definitions:124-125 (`SnapshotCache.get_link_type_metadata`) -/
def linkType (load : Loader) (name : String) (c : Cache) : Except Error LinkType × Cache :=
  c.read load (·.metadata.linkType name)

theorem access_of_current {c : Cache} {s : Snapshot} (h : c.current = some s) (load : Loader) :
    c.access load = (.ok s, c) := by
  simp [access, h]

/-- A load that fails leaves the snapshot as it was. -/
theorem current_reload (load : Loader) (c : Cache) :
    (c.reload load).2.current =
      match load c.loads with
      | .ok s => some s
      | .error _ => c.current := by
  unfold reload
  cases load c.loads <;> rfl

theorem loads_reload (load : Loader) (c : Cache) : (c.reload load).2.loads = c.loads + 1 := by
  unfold reload; split <;> rfl

end Cache

end EntitySchema
