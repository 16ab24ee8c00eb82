import EntitySchema.Definition
import EntitySchema.Field.Resolve
import EntitySchema.Link.Relation

/-!
# Links and fields of an entity

An entity has more links and fields than its definition lists: field types add links, links add fields, and composite fields
add their parts. What is declared lies over what is added.

* `links`: all links of an entity with their parameters.
* `fields`: all declarations of fields, before they are resolved.
-/
namespace EntitySchema.Entity

/-- Named parameters over others, name by name and key by key. -/
def layered (lower upper : Members String Params) : Members String Params :=
  Params.ofObjects ((Params.toObjects lower).overlay (Params.toObjects upper))

/-- The link that a field adds, if its type adds one.
mirrors src/entityforge/compiler/entity:122-127 (`EntityCompiler._collect_links`) -/
def linkOf (m : Metadata) (params : Params) : Except Misuse (Option Params) := do
  if !(params.value "type").truthy then return none
  return (Field.contributedLink params (← m.typeOf params)).filter fun link => !link.isEmpty

/-- The links that the fields of an entity add, each under the name of its field.
mirrors src/entityforge/compiler/entity:120-127 (`EntityCompiler._collect_links`) -/
def contributedLinks (m : Metadata) (d : Definition) : Except Misuse (Members String Params) :=
  d.fields.foldlM (fun acc field => do
    match ← linkOf m field.2 with
    | some link => return Members.set acc field.1 link
    | none => return acc) []

/-- All links of an entity.
mirrors src/entityforge/compiler/entity:116-129 (`EntityCompiler._collect_links`) -/
def links (m : Metadata) (d : Definition) : Except Misuse (Members String Params) :=
  (contributedLinks m d).map fun added => layered added d.links

/-- The fields that links imply.
mirrors src/entityforge/compiler/entity:138-141 (`EntityCompiler._collect_declarations`) -/
def impliedFields (c : Config) (m : Metadata) (entity : Key) (links : Members String Params) :
    Except Error (Members String Params) :=
  links.foldlM (fun acc link => do
    return layered acc (Params.ofObjects (← Link.impliedFields c m (.ofKey entity) (.str link.1) link.2))) []

/-- The parts that the declared fields have.
mirrors src/entityforge/compiler/entity:145-148 (`EntityCompiler._collect_declarations`) -/
def partsOf (c : Config) (m : Metadata) (field : String) (params : Params) : Except Misuse (Members String Params) := do
  if !(params.value "type").truthy then return []
  return Field.parts c field (← m.typeOf params)

/-- All declarations of fields: the declared ones over the parts of composite fields over those that links imply.
mirrors src/entityforge/compiler/entity:131-150 (`EntityCompiler._collect_declarations`) -/
def fields (c : Config) (m : Metadata) (entity : Key) (d : Definition) (links : Members String Params) :
    Except Error (Members String Params) := do
  let implied ← impliedFields c m entity links
  let withParts ← d.fields.foldlM (fun acc field => do return layered acc (← partsOf c m field.1 field.2)) implied
  return layered withParts d.fields

end EntitySchema.Entity
