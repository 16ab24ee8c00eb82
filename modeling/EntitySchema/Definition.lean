import EntitySchema.Metadata

/-!
# Entity definitions

What is declared of an entity: its fields and links with their parameters, options of its collection and of the entity itself.
A definition is kept in canonical form.

* `Definition.ofValue`: reads a definition, or reports all that is wrong with it.
-/
namespace EntitySchema

/-- A definition as a canonical record.
mirrors src/entityforge/core/types:173-184 (`EntityDefinition`) -/
structure Definition where
  body : Members Key Value := []

namespace Definition

/-- Reads a definition. -/
def ofValue (v : Value) : Except Record.Rejection Definition :=
  (Record.entityDefinition.accept "EntityDefinition" v).map fun w => ⟨w.members⟩

/-- The declared fields with their parameters. -/
def fields (d : Definition) : Members String Params :=
  Params.ofObjects (d.body.value "fields").members

/-- The declared links with their parameters. -/
def links (d : Definition) : Members String Params :=
  Params.ofObjects (d.body.value "links").members

/-- The parameters of a declared field; none if it is not declared. -/
def field (d : Definition) (name : String) : Params :=
  (d.fields.get? name).getD []

/-- The options of the collection; none if there are no options. -/
def collection (d : Definition) : Members Key Value :=
  (d.body.value "collection").members

/-- Whether users may follow the entity. -/
def isStream (d : Definition) : Bool :=
  (d.body.value "stream").truthy

/-- Whether the tables of the entity are left as they are. -/
def skipsRebuild (d : Definition) : Bool :=
  (d.body.value "skipRebuild").truthy

end Definition

instance : Inhabited Definition := ⟨{}⟩

end EntitySchema
