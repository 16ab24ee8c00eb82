import EntitySchema.Text.Case

/-!
# Names

How the names of tables, columns, junctions and composite parts are made from the names that are declared.

* `underscored`: `AccountContact` becomes `account_contact`.
* `composed`: the name of a part of a composite field.
* `relationName`: the name of a many-to-many junction.
* `pairKeys`, `sideKeys`: its key columns.
-/
namespace EntitySchema.Naming

def isAsciiUpper (c : Char) : Bool := 'A' ≤ c && c ≤ 'Z'

def isAsciiLowerOrDigit (c : Char) : Bool := ('a' ≤ c && c ≤ 'z') || ('0' ≤ c && c ≤ '9')

/-- Puts an underscore before every capital letter that stands behind a small letter or a digit. -/
def splitWords (before : Option Char) : List Char → List Char
  | [] => []
  | c :: rest =>
    (if isAsciiUpper c && before.any isAsciiLowerOrDigit then ['_', c] else [c]) ++ splitWords (some c) rest

/-- The name in small letters with underscores between its words.
mirrors src/entityforge/core/naming:7,10-12 (`to_underscore`) -/
def underscored (name : String) : String :=
  Text.lower (String.ofList (splitWords none name.toList))

/-- Where a composite field puts the name of a part.
mirrors src/entityforge/core/types:71-75 (`Naming`) -/
inductive PartPlace where
  /-- The part comes first: `firstName`. -/
  | first
  /-- The part comes last: `addressCity`. -/
  | last
deriving DecidableEq, Repr

/-- The word for parts that come first; any other word puts them last. -/
def PartPlace.ofText (word : String) : PartPlace :=
  if word = "prefix" then .first else .last

/-- The name of a composite field's part.
mirrors src/entityforge/core/naming:23-31 (`compose`) -/
def composed (field part : String) : PartPlace → String
  | .first => part ++ Text.capitalize field
  | .last => field ++ Text.capitalize part

/-- The column that refers to a row of an entity or of a link. -/
def idColumn (name : String) : String :=
  name ++ "Id"

/-- The name that both sides of a many-to-many relation give their junction: the entities in order of their names, the first
with a small initial.
mirrors src/entityforge/compiler/relations:265-269 (`RelationshipResolver.relation_name`) -/
def relationName (entity target : String) : String :=
  if target < entity then Text.uncapitalize target ++ entity else Text.uncapitalize entity ++ target

/-- The key columns of a junction between two entities, the own side first.
mirrors src/entityforge/compiler/relations:274-276 (`RelationshipResolver.mid_keys`) -/
def pairKeys (entity target : String) : List String :=
  [idColumn (Text.uncapitalize entity), idColumn (Text.uncapitalize target)]

/-- The key columns of a junction of an entity with itself: of its two links, the one whose name comes first is left.
mirrors src/entityforge/compiler/relations:278-282 (`RelationshipResolver.mid_keys`) -/
def sideKeys (isFirst : Bool) : List String :=
  if isFirst then ["leftId", "rightId"] else ["rightId", "leftId"]

/-- The entity that stores a junction.
mirrors src/entityforge/compiler/schema:155 (`SchemaCompiler.junction_entities`) -/
def junctionEntity (relation : String) : String :=
  Text.capitalize relation

end EntitySchema.Naming
