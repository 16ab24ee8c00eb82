import EntitySchema.Config
import EntitySchema.Definition
import EntitySchema.Index.Kind
import EntitySchema.Journal
import EntitySchema.Naming
import EntitySchema.Probe

/-!
# Full-text search

The columns in which an entity is searched, and the index over them. The fields that are filtered by text count if their type
can be searched; a composite field is searched in some of its parts.

* `columns`: the columns of the fields that can be searched.
* `fragment`: the list of columns and the index, if the storage can keep one.
-/
namespace EntitySchema.FullText

/-- The fields that are filtered by text if the collection does not list any.
mirrors src/entityforge/compiler/fulltext:18 (`DEFAULT_TEXT_FILTER_FIELDS`) -/
def defaultFields : List String := ["name"]

/-- The fields that are filtered by text.
mirrors src/entityforge/compiler/fulltext:36-39 (`FullTextAggregator.column_list`) -/
def filteredFields (d : Definition) : List String :=
  match d.collection.value "textFilterFields" with
  | .list xs => xs.filterMap Value.text?
  | _ => defaultFields

/-- The columns of a field that can be searched.
mirrors src/entityforge/compiler/fulltext:53-58 (`FullTextAggregator.column_list`) -/
def columnsOf (c : Config) (field : String) (t : FieldType) : List String :=
  if t.searchedParts.isEmpty then [field]
  else
    let place := Naming.PartPlace.ofText (t.naming?.getD c.defaultNaming)
    t.searchedParts.map fun part => Naming.composed field part place

/-- The columns of one of the listed fields; none if it is not declared, not stored or of a type that is not searched.
mirrors src/entityforge/compiler/fulltext:43-58 (`FullTextAggregator.column_list`) -/
def fieldColumns (c : Config) (m : Metadata) (d : Definition) (field : String) : List String :=
  let params := d.field field
  match (params.value "type").text? with
  | none => []
  | some type =>
    let t := m.fieldType type
    if type ≠ "" && !(params.value "notStorable").truthy && t.isSearchable then columnsOf c field t else []

/-- The columns in which an entity is searched.
mirrors src/entityforge/compiler/fulltext:34-60 (`FullTextAggregator.column_list`) -/
def columns (c : Config) (m : Metadata) (d : Definition) : List String :=
  (filteredFields d).flatMap (fieldColumns c m d)

/-- The index over the columns.
mirrors src/entityforge/compiler/fulltext:83-86 (`FullTextAggregator.aggregate`) -/
def index (columns : List String) : Value :=
  .object [("columns", .ofTexts columns), ("flags", .ofTexts [IndexKind.fullText.word])]

/-- The members that full-text search adds to an entity, if it is asked for and the storage has it.
mirrors src/entityforge/compiler/fulltext:62-88 (`FullTextAggregator.aggregate`) -/
def fragment (c : Config) (m : Metadata) (p : Probe) (entity : Key) (d : Definition) : Run (Members Key Value) := do
  if !(d.collection.value "fullTextSearch").truthy then return []
  let name ← entity.word
  if !(← p.ask (Naming.underscored name)) then
    Run.note (.debug .fullText (name ++ ": storage does not support full-text search"))
    return []
  let columns := columns c m d
  if columns.isEmpty then return []
  return [("fullTextSearchColumnList", .ofTexts columns),
    ("indexes", .object [(c.fullTextIndexName, index columns)])]

end EntitySchema.FullText
