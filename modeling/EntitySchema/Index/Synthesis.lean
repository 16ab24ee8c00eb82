import EntitySchema.Config
import EntitySchema.Index.Key

/-!
# Indexes of an entity

Fields ask for indexes by flags: a true flag makes an index of the field's own name, a text flag names an index that the field
shares with every other field that carries it. Indexes that are there already take precedence over those; then every index
gets its key.

* `ofFields`: the indexes that fields ask for.
* `synthesize`: all indexes of a compiled entity and those of its relations, as a fragment.
-/
namespace EntitySchema.Index

/-- The kind of index that a field asks for. A long text cannot carry a plain unique key.
mirrors src/entityforge/compiler/indexes:55-61 (`_field_index_type`) -/
def fieldKind? (params : Members Key Value) : Option IndexKind :=
  if !(params.value "dbType").isText "text" && (params.value "unique").truthy then some .unique
  else if (params.value "index").truthy then some .plain
  else none

/-- An index that fields ask for. -/
structure Derived where
  kind : IndexKind
  columns : List Key

def Derived.toValue (d : Derived) : Value :=
  .object [("type", .str d.kind.word), ("columns", .list (d.columns.map Value.ofKey))]

/-- Adds a field to the indexes: under its own name for a true flag, to the named index for a text.
mirrors src/entityforge/compiler/indexes:72-84 (`field_index_list`) -/
def addField (indexes : Members Key Derived) (field : Key) (params : Members Key Value) : Members Key Derived :=
  if (params.value "notStorable").truthy then indexes
  else
    match fieldKind? params with
    | none => indexes
    | some kind =>
      match params.value kind.word with
      | .bool true => indexes.set field ⟨kind, [field]⟩
      | .str name =>
        match indexes.get? name with
        | some d => indexes.set name { d with columns := d.columns ++ [field] }
        | none => indexes.set name ⟨kind, [field]⟩
      | _ => indexes

/-- The indexes that fields ask for, in the order in which they are first asked for.
mirrors src/entityforge/compiler/indexes:64-86 (`field_index_list`) -/
def ofFields (fields : Members Key Value) : Except Misuse (Members Key Derived) :=
  fields.foldlM (fun acc field => do return addField acc field.1 (← field.2.openMembers)) []

/-- The key of an index with the given definition.
mirrors src/entityforge/compiler/indexes:95-98 (`IndexSynthesizer.key_for`) -/
def keyFor (c : Config) (name : Key) (defs : Members Key Value) : Except Misuse Value := do
  let kind ← IndexKind.ofDefs defs
  return .str (key kind (← name.word) c.indexNameMaxLength)

/-- The definition with a key, which is made unless one is given.
mirrors src/entityforge/compiler/indexes:121-122 (`IndexSynthesizer.synthesize`) -/
def withKey (c : Config) (name : Key) (defs : Members Key Value) : Except Misuse (Members Key Value) :=
  if (defs.value "key").truthy then .ok defs else (keyFor c name defs).map (defs.set "key")

/-- The definition with a key that is always made anew.
mirrors src/entityforge/compiler/indexes:135 (`IndexSynthesizer.synthesize`) -/
def withNewKey (c : Config) (name : Key) (defs : Value) : Except Misuse Value := do
  let members ← defs.spread
  -- the kind is read from the definition itself
  return .object (members.set "key" (← keyFor c name members))

/-- The indexes of an entity: those that are there, then those that its fields ask for under other names.
mirrors src/entityforge/compiler/indexes:112-122 (`IndexSynthesizer.synthesize`) -/
def entityIndexes (c : Config) (entity : Members Key Value) : Except Misuse (Members Key Value) := do
  let given ← (entity.value "indexes").givenMembers
  let explicit ← given.mapM fun index => do return (index.1, ← index.2.toMembers)
  let derived ← ofFields (← (entity.value "fields").givenMembers)
  let all := derived.foldl (fun acc index => Members.setNew acc index.1 index.2.toValue.members) explicit
  all.mapM fun index => do return (index.1, .object (← withKey c index.1 index.2))

/-- The indexes of a relation with their keys, if it has any.
mirrors src/entityforge/compiler/indexes:130-138 (`IndexSynthesizer.synthesize`) -/
def relationIndexes (c : Config) (relation : Value) : Except Misuse (Option (Members Key Value)) := do
  let indexes ← relation.lookup "indexes"
  if indexes.truthy then
    let members ← indexes.openMembers
    return some (← members.mapM fun index => do return (index.1, ← withNewKey c index.1 index.2))
  else return none

/-- The indexes of all relations that have any.
mirrors src/entityforge/compiler/indexes:128-138 (`IndexSynthesizer.synthesize`) -/
def allRelationIndexes (c : Config) : List (Key × Value) → Except Misuse (Members Key Value)
  | [] => .ok []
  | (name, relation) :: rest => do
    match ← relationIndexes c relation with
    | some indexes => return (name, .object [("indexes", .object indexes)]) :: (← allRelationIndexes c rest)
    | none => allRelationIndexes c rest

/-- A member that holds an object, left out if the object is empty. -/
def unlessEmpty (key : Key) (m : Members Key Value) : Members Key Value :=
  if m.isEmpty then [] else [(key, .object m)]

/-- The fragment that gives a compiled entity its indexes.
mirrors src/entityforge/compiler/indexes:100-142 (`IndexSynthesizer.synthesize`) -/
def synthesize (c : Config) (entity : Value) : Except Misuse (Members Key Value) := do
  let members ← entity.openMembers
  let indexes ← entityIndexes c members
  let relations ← allRelationIndexes c (← (members.value "relations").givenMembers)
  return unlessEmpty "indexes" indexes ++ unlessEmpty "relations" relations

end EntitySchema.Index
