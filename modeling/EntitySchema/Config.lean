import EntitySchema.Record.Check

/-!
# Configuration

The constants that the compiler applies while it resolves fields and indexes. A configuration is written as an object; keys
that are left out keep their defaults and unknown keys do not count.

* `Config.ofValue`: the configuration that an object writes, or what is wrong with it.
* `Config.toValue`: all constants as an object.
-/
namespace EntitySchema

/-- mirrors src/entityforge/core/config:8-32 (`CompilerConfig`) -/
structure Config where
  /-- Fields of unknown type get this type. -/
  defaultFieldType : String := "varchar"
  /-- Where a composite type that does not say so puts its parts. -/
  defaultNaming : String := "postfix"
  /-- Lengths of types for fields that declare none. -/
  defaultLength : Members String Int := [("varchar", 255), ("int", 11)]
  /-- The default of truth values that declare none. -/
  boolDefault : Bool := false
  /-- Text defaults that begin with this are computed at run time. -/
  computedDefaultStart : String := "javascript:"
  /-- Column type of identifiers that are no integers. -/
  idDbType : String := "varchar"
  /-- Length of such identifiers. -/
  idLength : Int := 24
  /-- Column types of identifiers that are integers. -/
  integerDbTypes : List String := ["int", "bigint"]
  /-- Length of the column that names a parent's entity. -/
  foreignTypeLength : Int := 100
  /-- Options of an entity that are copied into its schema. -/
  permittedEntityOptions : List String := ["indexes", "additionalTables"]
  /-- Most characters of an index key. -/
  indexNameMaxLength : Int := 60
  /-- Name of the full-text index. -/
  fullTextIndexName : String := "system_fullTextSearch"
  /-- Column type of a junction's identifier. -/
  junctionIdDbType : String := "bigint"

instance : Inhabited Config := ⟨{}⟩

namespace Config

open Record

/-- A constant is written under its name only. -/
def constant (name : String) (s : Shape) : Attribute × Shape :=
  (⟨name, name, false⟩, s)

def shape : Shape := .record "CompilerConfig" false [
  constant "default_field_type" .text,
  constant "default_naming" .text,
  constant "default_length" (.mapOf .whole),
  constant "bool_default" .flag,
  constant "computed_default_prefix" .text,
  constant "id_db_type" .text,
  constant "id_length" .whole,
  constant "integer_db_types" (.tupleOf .text),
  constant "foreign_type_length" .whole,
  constant "permitted_entity_options" (.tupleOf .text),
  constant "index_name_max_length" .whole,
  constant "full_text_index_name" .text,
  constant "junction_id_db_type" .text]

def int? : Value → Option Int
  | .int n => some n
  | _ => none

def bool? : Value → Option Bool
  | .bool b => some b
  | _ => none

/-- The constants that an accepted object gives, the others at their defaults. -/
def ofMembers (m : Members Key Value) : Config :=
  let d : Config := {}
  let text (key : String) (default : String) := (m.value key |>.text?).getD default
  let whole (key : String) (default : Int) := (int? (m.value key)).getD default
  let textList (key : String) (default : List String) := if m.contains key then (m.value key).texts else default
  { defaultFieldType := text "default_field_type" d.defaultFieldType
    defaultNaming := text "default_naming" d.defaultNaming
    defaultLength :=
      if m.contains "default_length" then
        (Members.named (m.value "default_length").members).filterMap fun entry =>
          (int? entry.2).map fun n => (entry.1, n)
      else d.defaultLength
    boolDefault := (bool? (m.value "bool_default")).getD d.boolDefault
    computedDefaultStart := text "computed_default_prefix" d.computedDefaultStart
    idDbType := text "id_db_type" d.idDbType
    idLength := whole "id_length" d.idLength
    integerDbTypes := textList "integer_db_types" d.integerDbTypes
    foreignTypeLength := whole "foreign_type_length" d.foreignTypeLength
    permittedEntityOptions := textList "permitted_entity_options" d.permittedEntityOptions
    indexNameMaxLength := whole "index_name_max_length" d.indexNameMaxLength
    fullTextIndexName := text "full_text_index_name" d.fullTextIndexName
    junctionIdDbType := text "junction_id_db_type" d.junctionIdDbType }

/-- The configuration that an object writes. -/
def ofValue (v : Value) : Except Rejection Config :=
  (shape.accept "CompilerConfig" v).map fun w => ofMembers w.members

/-- All constants under their names. -/
def toValue (c : Config) : Value :=
  .object [
    ("default_field_type", .str c.defaultFieldType),
    ("default_naming", .str c.defaultNaming),
    ("default_length", .object (Members.keyed (c.defaultLength.map fun entry => (entry.1, .int entry.2)))),
    ("bool_default", .bool c.boolDefault),
    ("computed_default_prefix", .str c.computedDefaultStart),
    ("id_db_type", .str c.idDbType),
    ("id_length", .int c.idLength),
    ("integer_db_types", .ofTexts c.integerDbTypes),
    ("foreign_type_length", .int c.foreignTypeLength),
    ("permitted_entity_options", .ofTexts c.permittedEntityOptions),
    ("index_name_max_length", .int c.indexNameMaxLength),
    ("full_text_index_name", .str c.fullTextIndexName),
    ("junction_id_db_type", .str c.junctionIdDbType)]

end Config

end EntitySchema
