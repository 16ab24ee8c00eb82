import EntitySchema.Record.Shape
import EntitySchema.Value.Access
import EntitySchema.Value.Display

/-!
# Errors

Why an operation stopped. A definition that cannot be read and a storage that cannot be asked concern one entity and let the
others go on; a link that breaks its contract stops the whole compilation. Names and reasons are kept as they were given.

* `Error.message`: what went wrong and what to do about it.
* `Error.context`: the same as members for tools.
* `Error.skips`: the errors that concern one entity only.
-/
namespace EntitySchema

/-- mirrors src/entityforge/exceptions:13-93 -/
inductive Error where
  /-- A message with its context. -/
  | general (subject details : Value)
  /-- Definitions break a contract that the compiler relies on. -/
  | configuration (subject details : Value)
  /-- The compiled schema does not have the shape that the storage reads. -/
  | mismatch (report : Record.Rejection)
  /-- The definition of an entity is empty, missing or cannot be read. -/
  | malformed (entity reason : Value)
  /-- A link lacks a parameter. -/
  | invalidLink (entity link missing : Value)
  /-- A link declares a kind that does not exist. -/
  | unknownLinkType (entity link declared valid : Value)
  /-- The storage could not be asked about a table. -/
  | unprobed (table reason : Value)
  /-- A record does not have its shape. -/
  | rejected (report : Record.Rejection)
  /-- A value was used in a way its kind does not allow. -/
  | misused (cause : Misuse)

namespace Error

/-- mirrors src/entityforge/exceptions:33-93 -/
def message : Error → String
  | general subject _ => subject.display
  | configuration subject _ => subject.display
  | mismatch report => "Compiled schema does not match the storage schema model: " ++ report.message
  | malformed entity reason =>
    "Entity '" ++ entity.display ++ "' metadata cannot be converted into a storage schema: " ++ reason.display
  | invalidLink entity link missing =>
    "Link '" ++ link.display ++ "' on '" ++ entity.display ++ "' has no '" ++ missing.display ++ "'. Declare '" ++
      missing.display ++ "' or mark the link with skipOrmDefs."
  | unknownLinkType entity link declared valid =>
    "Link '" ++ link.display ++ "' on '" ++ entity.display ++ "' has unknown type '" ++ declared.display ++
      "'. Valid types: " ++ ", ".intercalate valid.partTexts
  | unprobed table reason =>
    "Cannot probe full-text support for table '" ++ table.display ++ "': " ++ reason.display
  | rejected report => report.message
  | misused _ => ""

/-- The message as it was given, or as it is made. -/
def subject : Error → Value
  | general subject _ => subject
  | configuration subject _ => subject
  | e => .str e.message

/-- mirrors src/entityforge/exceptions:33-93 -/
def context : Error → Value
  | general _ details => details
  | configuration _ details => details
  | mismatch report => .object [("errors", .list (report.faults.map Record.Fault.value))]
  | malformed entity reason => .object [("entity_type", entity), ("reason", reason)]
  | invalidLink entity link missing =>
    .object [("entity_type", entity), ("link_name", link), ("missing", missing)]
  | unknownLinkType entity link declared valid =>
    .object [("entity_type", entity), ("link_name", link), ("link_type", declared), ("valid_types", valid)]
  | unprobed table reason => .object [("table_name", table), ("reason", reason)]
  | rejected _ => .object []
  | misused _ => .object []

/-- Whether only the entity at hand is given up, with a message to the diagnostics.
mirrors src/entityforge/compiler/schema:87 (`SchemaCompiler.compile`) -/
def skips : Error → Bool
  | malformed _ _ => true
  | unprobed _ _ => true
  | _ => false

/-- Whether the definitions break a contract.
mirrors src/entityforge/exceptions:42-45 (`ConfigurationError`) -/
def isConfiguration : Error → Bool
  | configuration _ _ => true
  | mismatch _ => true
  | invalidLink _ _ _ => true
  | unknownLinkType _ _ _ _ => true
  | _ => false

/-- Whether the definition of an entity could not be read.
mirrors src/entityforge/exceptions:30-39 (`MalformedEntityDefinitionError`) -/
def isMalformed : Error → Bool
  | malformed _ _ => true
  | _ => false

end Error

instance : MonadLift (Except Misuse) (Except Error) where
  monadLift
    | .ok a => .ok a
    | .error cause => .error (.misused cause)

end EntitySchema
