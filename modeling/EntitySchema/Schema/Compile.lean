import EntitySchema.Entity.Compile
import EntitySchema.Link.Junction
import EntitySchema.Schema
import EntitySchema.Snapshot.Cache

/-!
# Compiling a schema

Entities are compiled one after the other and merged into one tree. An entity that cannot be read or that compiles to a wrong
shape is given up with a message, and the others go on. Then all fields are brought into normal form, the junctions of
many-to-many relations join the tree, and the tree is checked as a whole.

* `load`: the definition of an entity.
* `compileEntities`: the tree of all entities that are not given up.
* `normalize`: the tree with all fields in normal form.
* `withJunctions`: the tree with the junctions, and how many were made.
* `compileTree`, `compile`: the tree before it is checked, and the schema.
-/
namespace EntitySchema.Schema

/-! ## One entity -/

/-- The definition of an entity; one that is not given or has faults is malformed.
mirrors src/entityforge/compiler/schema:112-120 (`SchemaCompiler._load_definition`) -/
def load (entity : Key) : Declared → Except Error Definition
  | .checked d => .ok d
  | .written v =>
    if v.truthy then
      match Definition.ofValue v with
      | .ok d => .ok d
      | .error report => .error (.malformed (.ofKey entity) (.str report.message))
    else .error (.malformed (.ofKey entity) (.str "metadata is empty or missing"))

/-- The members of an entity with its fields in normal form.
mirrors src/entityforge/compiler/schema:128-131,140-143 (`SchemaCompiler._validate_entity`) -/
def normalizeEntity (c : Config) (entity : Key) (compiled : Value) : Run (Members Key Value) := do
  let members ← compiled.spread
  let normal ← Field.normalizeAll c entity (← (members.value "fields").givenMembers)
  return members.set "fields" (.object normal)

/-- Checks the shape that an entity compiles to.
mirrors src/entityforge/compiler/schema:122-135 (`SchemaCompiler._validate_entity`) -/
def checkEntity (c : Config) (entity : Key) (compiled : Value) : Run Unit := do
  let members ← normalizeEntity c entity compiled
  match Record.compiledEntity.accept "CompiledEntitySchema" (.object members) with
  | .ok _ => return ()
  | .error report => Run.fail (.malformed (.ofKey entity) (.str report.message))

/-- What an entity adds to the tree. -/
structure Compiled where
  skipsRebuild : Bool
  tree : Members Key Value

/-- Loads, compiles and checks an entity.
mirrors src/entityforge/compiler/schema:83-86 (`SchemaCompiler.compile`) -/
def compileEntity (c : Compiler) (m : Metadata) (entity : Key) (declared : Declared) : Run Compiled := do
  let d ← load entity declared
  let tree ← Entity.compile c m entity d
  let own := tree.value entity
  checkEntity c.config entity (if own.truthy then own else .object [])
  return { skipsRebuild := d.skipsRebuild, tree }

/-! ## All entities -/

/-- The tree with a compiled entity.
mirrors src/entityforge/compiler/schema:91-94 (`SchemaCompiler.compile`) -/
def addEntity (tree : Members Key Value) (entity : Key) (compiled : Compiled) : Members Key Value :=
  let marked :=
    if compiled.skipsRebuild then tree.overlay [(entity, .object [("skipRebuild", .bool true)])] else tree
  marked.overlay compiled.tree

/-- Adds the entities that are not given up to a tree.
mirrors src/entityforge/compiler/schema:82-94 (`SchemaCompiler.compile`) -/
def compileEntities (c : Compiler) (m : Metadata) (tree : Members Key Value) :
    List (Key × Declared) → Run (Members Key Value)
  | [] => pure tree
  | (entity, declared) :: rest => do
    match ← (compileEntity c m entity declared).orGiveUp with
    | some compiled => compileEntities c m (addEntity tree entity compiled) rest
    | none => compileEntities c m tree rest

/-- The tree with all fields in normal form.
mirrors src/entityforge/compiler/schema:137-145 (`SchemaCompiler.after_process`) -/
def normalize (c : Config) : List (Key × Value) → Run (Members Key Value)
  | [] => pure []
  | (entity, compiled) :: rest => do
    let members ← normalizeEntity c entity compiled
    return (entity, .object members) :: (← normalize c rest)

/-- The tree with the junctions of all relations of the given entities, and how many were made.
mirrors src/entityforge/compiler/schema:98-102 (`SchemaCompiler.compile`) -/
def withJunctions (c : Config) (tree : Members Key Value) (count : Nat) :
    List Value → Run (Members Key Value × Nat)
  | [] => pure (tree, count)
  | entity :: rest => do
    let junctions ← Junction.entities c entity
    withJunctions c (tree.overlay junctions) (count + junctions.length) rest

/-- The tree of all entities and junctions in normal form, before it is checked.
mirrors src/entityforge/compiler/schema:81-104 (`SchemaCompiler.compile`) -/
def compileTree (c : Compiler) (s : Snapshot) : Run (Members Key Value) := do
  let compiled ← compileEntities c s.metadata [] s.entities
  let normal ← normalize c.config compiled
  let (tree, junctions) ← withJunctions c.config normal 0 normal.values
  Run.note (.info .schema
    ("Compiled " ++ toString tree.length ++ " entities (" ++ toString junctions ++ " junction definitions)"))
  return tree

/-- The schema of a snapshot.
mirrors src/entityforge/compiler/schema:66-105 (`SchemaCompiler.compile`) -/
def compile (c : Compiler) (s : Snapshot) : Run Schema := do
  let tree ← compileTree c s
  match ofTree (.object tree) with
  | .ok schema => return schema
  | .error report => Run.fail (.mismatch report)

/-- The schema of the snapshot that a cache gives, which is loaded anew on request, with the cache afterwards.
mirrors src/entityforge/compiler/schema:66-79,107-110 (`SchemaCompiler.compile`) -/
def compileCached (c : Compiler) (load : Loader) (reload : Bool) (cache : Cache) : Run Schema × Cache :=
  let (snapshot, cache) := cache.get load reload
  (Run.ofExcept snapshot >>= compile c, cache)

end EntitySchema.Schema
