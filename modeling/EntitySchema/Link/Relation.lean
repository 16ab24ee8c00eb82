import EntitySchema.Config
import EntitySchema.Field.Kind
import EntitySchema.Journal
import EntitySchema.Link.Kind
import EntitySchema.Metadata
import EntitySchema.Naming
import EntitySchema.Tree.Merge
import EntitySchema.Value.Order

/-!
# Resolving links

A link adds two things to its entity: fields that hold or show the keys of its targets, declared before fields are compiled,
and a relation, which joins the compiled schema afterwards.

* `kind?`: the kind of a link, nothing for one that is left out.
* `impliedFields`: the field declarations that a link adds.
* `relation`: the relation of a link.
* `resolve`: the relation with the fields that show columns of a junction, as a fragment of the schema.
-/
namespace EntitySchema.Link

/-- The kind of a link; nothing if the link or its type asks to be left out.
mirrors src/entityforge/compiler/relations:70-94 (`RelationshipResolver.link_type`) -/
def kind? (m : Metadata) (entity link : Value) (params : Params) : Except Error (Option LinkKind) :=
  match params.value "skipOrmDefs" with
  | .bool true => .ok none
  | _ =>
    let declared := params.value "type"
    if !declared.truthy then .error (.invalidLink entity link (.str "type"))
    else
      match declared.text?.bind LinkKind.ofText? with
      | none => .error (.unknownLinkType entity link declared (.ofTexts LinkKind.words))
      | some kind =>
        if (m.linkType kind.word).isSkipped then .ok none
        else if kind ≠ .belongsToParent ∧ !(params.value "entity").truthy then
          .error (.invalidLink entity link (.str "entity"))
        else .ok (some kind)

/-! ## Fields that a link implies -/

def ofKind (kind : FieldKind) (more : List (Key × Value)) : Value :=
  .object (("type", .str kind.word) :: more)

/-- A field that is computed from others. -/
def unstored (kind : FieldKind) : Value :=
  ofKind kind [("notStorable", .bool true)]

/-- A field that shows a field of the target. -/
def shown (link : Value) (field : String) : Value :=
  ofKind .foreign [("link", link), ("field", .str field), ("notStorable", .bool true)]

/-- The keys and names of many targets.
mirrors src/entityforge/compiler/relations:27-31 (`_collection_fields`) -/
def collectionFields (link : Value) : Members Key Value :=
  [(link.display ++ "Ids", unstored .jsonArray), (link.display ++ "Names", unstored .jsonObject)]

/-- The field declarations that a link of a kind adds to its entity.
mirrors src/entityforge/compiler/relations:59-66,147-187 -/
def fieldsOf (c : Config) (link : Value) : LinkKind → Members Key Value
  | .belongsTo => [
    (link.display ++ "Id", ofKind .foreignId [("index", .bool true)]),
    (link.display ++ "Name", shown link "name")]
  | .hasMany => collectionFields link
  | .hasOne => [
    (link.display ++ "Id", shown link "id"),
    (link.display ++ "Name", shown link "name")]
  | .manyMany => collectionFields link
  | .hasChildren => collectionFields link
  | .belongsToParent => [
    (link.display ++ "Id", ofKind .foreignId [("index", link)]),
    (link.display ++ "Type", ofKind .foreignType
      [("notNull", .bool false), ("index", link), ("len", .int c.foreignTypeLength)]),
    (link.display ++ "Name", unstored .varchar)]

/-- The field declarations that a link adds; none if it is left out.
mirrors src/entityforge/compiler/relations:96-103 (`RelationshipResolver.implied_fields`) -/
def impliedFields (c : Config) (m : Metadata) (entity link : Value) (params : Params) :
    Except Error (Members Key Value) :=
  (kind? m entity link params).map fun kind => (kind.map (fieldsOf c link)).getD []

/-! ## Relations -/

/-- Members, followed by those under the keys whose values are given.
mirrors src/entityforge/compiler/relations:213-214,224-225,246-247,260-262 -/
def withGiven (params : Params) (keys : List Key) (built : Members Key Value) : Members Key Value :=
  built ++ keys.filterMap fun key =>
    let v := params.value key
    if v.truthy then some (key, v) else none

/-- The column of a key that refers to `foreign`. -/
def keyColumn (foreign : Value) : Value :=
  .str (foreign.display ++ "Id")

/-- The declared value, or another one if none is given. -/
def orElse (v w : Value) : Value :=
  if v.truthy then v else w

/-- The name of the junction between an entity and a target: the names have to have an order, and to be texts.
mirrors src/entityforge/compiler/relations:265-269 (`RelationshipResolver.relation_name`) -/
def junctionName (entity target : Value) : Except Misuse String :=
  match entity.atMost? target with
  | some _ => do return Naming.relationName (← entity.nameText) (← target.nameText)
  | none => .error .badOperand

/-- The key columns of the junction between an entity and the target of a link.
mirrors src/entityforge/compiler/relations:271-282 (`RelationshipResolver.mid_keys`) -/
def junctionKeys (entity link : Value) (params : Params) : Except Misuse (List String) := do
  let target ← (Value.object params).item "entity"
  if !target.same entity then return Naming.pairKeys (← entity.nameText) (← target.nameText)
  else
    match link.atMost? (orElse (params.value "foreign") link) with
    | some isFirst => return Naming.sideKeys isFirst
    | none => .error .badOperand

/-- The name by which the targets of a link refer to the entity, if the link does not declare one.
mirrors src/entityforge/compiler/relations:218,222 (`RelationshipResolver._has_many`) -/
def inverseOf (entity foreign : Value) : Except Misuse Value :=
  if foreign.truthy then .ok foreign else entity.nameText.map fun name => .str (Text.uncapitalize name)

/-- The relation of a link to many targets, or to one that holds the key.
mirrors src/entityforge/compiler/relations:217-226 (`RelationshipResolver._has_many`) -/
def hasMany (entity : Value) (kind : LinkKind) (params : Params) : Except Misuse (Members Key Value) := do
  let inverse ← inverseOf entity (params.value "foreign")
  return withGiven params ["foreign"]
    [("type", .str kind.word), ("entity", params.value "entity"), ("foreignKey", keyColumn inverse)]

/-- mirrors src/entityforge/compiler/relations:228-236 (`RelationshipResolver._has_children`) -/
def hasChildren (params : Params) : Members Key Value :=
  let foreign := orElse (params.value "foreign") (.str "parent")
  [("type", .str LinkKind.hasChildren.word), ("entity", params.value "entity"), ("foreignKey", keyColumn foreign),
    ("foreignType", .str (foreign.display ++ "Type")), ("foreign", foreign)]

/-- mirrors src/entityforge/compiler/relations:250-263 (`RelationshipResolver._many_many`) -/
def manyMany (entity link : Value) (params : Params) : Except Misuse (Members Key Value) := do
  let target := params.value "entity"
  let declaredName := params.value "relationName"
  let name ← if declaredName.truthy then pure declaredName else (junctionName entity target).map .str
  let declaredKeys := params.value "midKeys"
  let keys ← if declaredKeys.truthy then pure declaredKeys else (junctionKeys entity link params).map .ofTexts
  return withGiven params ["foreign", "conditions", "additionalColumns", "indexes"]
    [("type", .str LinkKind.manyMany.word), ("entity", target), ("relationName", name), ("key", .str "id"),
      ("foreignKey", .str "id"), ("midKeys", keys)]

/-- The relation of a link of a kind.
mirrors src/entityforge/compiler/relations:51-58,206-263 -/
def relationOf (entity link : Value) (params : Params) : LinkKind → Except Misuse (Members Key Value)
  | .belongsTo => .ok (withGiven params ["foreign"]
      [("type", .str LinkKind.belongsTo.word), ("entity", params.value "entity"), ("key", .str (link.display ++ "Id")),
        ("foreignKey", .str "id")])
  | .hasMany => hasMany entity .hasMany params
  | .hasOne => hasMany entity .hasOne params
  | .manyMany => manyMany entity link params
  | .hasChildren => .ok (hasChildren params)
  | .belongsToParent => .ok (withGiven params ["foreign"]
      [("type", .str LinkKind.belongsToParent.word), ("key", .str (link.display ++ "Id")),
        ("foreignType", .str (link.display ++ "Type"))])

/-- Parameters that a relation keeps as they are declared.
mirrors src/entityforge/compiler/relations:21 (`PASSTHROUGH_LINK_PARAMS`) -/
def keptParams : List Key := ["orderBy", "order", "noJoin"]

/-- The relation of a link over the template of its type.
mirrors src/entityforge/compiler/relations:129-136 (`RelationshipResolver.resolve`) -/
def relation (m : Metadata) (entity link : Value) (params : Params) (kind : LinkKind) :
    Except Misuse (Members Key Value) :=
  (relationOf entity link params kind).map fun built =>
    let kept := keptParams.foldl (fun acc key =>
      match params.get? key with
      | some v => Members.set acc key v
      | none => acc) built
    (m.linkType kind.word).relationDefs.overlay kept

/-- The type that additional columns give to a column, if they have it.
mirrors src/entityforge/compiler/relations:199 (`RelationshipResolver._attribute_fields`) -/
def columnType (columns : Value) (column : Key) : Except Misuse Value := do
  match Members.get? (← columns.openMembers) column with
  | none => return .str FieldKind.varchar.word
  | some defs => return (Members.get? (← defs.openMembers) "type").getD (.str FieldKind.varchar.word)

/-- Fields that show columns of the junction; a field that is there already is left alone.
mirrors src/entityforge/compiler/relations:189-202 (`RelationshipResolver._attribute_fields`) -/
def attributeFields (params : Params) (fields : Value) : Except Misuse (Members Key Value) := do
  let columns := orElse (params.value "additionalColumns") (.object [])
  let map ← (params.value "columnAttributeMap").givenMembers
  map.foldlM (fun acc entry => do
    if ← fields.holds entry.2 then return acc
    else
      let type ← columnType columns entry.1
      return Members.set acc (← entry.2.key) (.object [("type", type), ("notStorable", .bool true)])) []

/-- The fields of a compiled entity, an empty object if there are none. -/
def fieldsIn (compiled : Value) : Except Misuse Value :=
  compiled.openMembers.map fun m => (Members.get? m (.text "fields")).getD (.object [])

/-- The fragment that a link adds to the schema compiled so far; only there the names of the entity and the link have to be
keys.
mirrors src/entityforge/compiler/relations:105-143 (`RelationshipResolver.resolve`) -/
def resolve (m : Metadata) (entity link : Value) (params : Params) (compiled : Value) : Run (Members Key Value) := do
  match ← kind? m entity link params with
  | none =>
    Run.note (.debug .relations ("Link " ++ entity.display ++ "." ++ link.display ++ " skipped: skipOrmDefs"))
    return []
  | some kind =>
    let built ← relation m entity link params kind
    let name ← link.key
    let shown ← attributeFields params (← fieldsIn compiled)
    let owner ← entity.key
    return [(owner, .object
      (("relations", .object [(name, .object built)]) ::
        if shown.isEmpty then [] else [("fields", .object shown)]))]

end EntitySchema.Link
