import EntitySchema.Record.Check

/-!
# The records

The shapes of everything that is declared and of everything that is compiled. Declarations are open: a key that is not listed
here is kept.

* Declared: `fieldDeclaration`, `linkDeclaration`, `collectionOptions`, `entityDefinition`, `fieldType`, `linkType`.
* Compiled: `compiledField`, `compiledIndex`, `compiledRelation`, `compiledCollection`, `compiledEntity`, `compiledSchema`.
-/
namespace EntitySchema.Record

/-- An attribute that may be null. -/
def maybe (name key : String) (s : Shape) : Attribute × Shape :=
  ({ name, key }, .nullable s)

/-- An attribute that may be left out but is never null. -/
def plain (name key : String) (s : Shape) : Attribute × Shape :=
  ({ name, key }, s)

/-- An attribute that has to be given. -/
def required (name key : String) (s : Shape) : Attribute × Shape :=
  ({ name, key, required := true }, s)

/-- An object with any members. -/
def anyObject : Shape := .mapOf .anything

/-- An object whose values are objects with any members. -/
def objects : Shape := .mapOf anyObject

def texts : Shape := .listOf .text

/-! ## Declared -/

/-- The parameters of a field, as declared.
mirrors src/entityforge/core/types:109-135 (`FieldDeclaration`) -/
def fieldDeclaration : Shape := .record "FieldDeclaration" true [
  maybe "type" "type" .text,
  maybe "db_type" "dbType" .text,
  maybe "len" "len" .whole,
  maybe "max_length" "maxLength" .whole,
  maybe "not_null" "notNull" .flag,
  maybe "required" "required" .flag,
  maybe "unique" "unique" .flagOrText,
  maybe "index" "index" .flagOrText,
  plain "default" "default" .anything,
  maybe "not_storable" "notStorable" .flag,
  maybe "db" "db" .flag,
  maybe "export_disabled" "exportDisabled" .flag,
  maybe "autoincrement" "autoincrement" .flag,
  maybe "link" "link" .text,
  maybe "field" "field" .text,
  maybe "entity" "entity" .text,
  maybe "skip_orm_defs" "skipOrmDefs" .flag,
  maybe "default_attributes" "defaultAttributes" anyObject]

/-- The parameters of a link, as declared.
mirrors src/entityforge/core/types:138-158 (`LinkDeclaration`) -/
def linkDeclaration : Shape := .record "LinkDeclaration" true [
  maybe "type" "type" .text,
  maybe "entity" "entity" .text,
  maybe "foreign" "foreign" .text,
  maybe "relation_name" "relationName" .text,
  maybe "mid_keys" "midKeys" texts,
  maybe "additional_columns" "additionalColumns" objects,
  maybe "column_attribute_map" "columnAttributeMap" (.mapOf .text),
  maybe "conditions" "conditions" anyObject,
  maybe "indexes" "indexes" objects,
  maybe "order_by" "orderBy" .text,
  maybe "order" "order" .text,
  maybe "no_join" "noJoin" .flag,
  maybe "skip_orm_defs" "skipOrmDefs" .flag]

/-- The ordering and the full-text search of an entity's collection.
mirrors src/entityforge/core/types:161-170 (`CollectionOptions`) -/
def collectionOptions : Shape := .record "CollectionOptions" true [
  maybe "order_by" "orderBy" .text,
  maybe "order_by_column" "orderByColumn" .text,
  maybe "order" "order" .text,
  plain "full_text_search" "fullTextSearch" .flag,
  maybe "text_filter_fields" "textFilterFields" texts]

/-- An entity, as declared.
mirrors src/entityforge/core/types:173-184 (`EntityDefinition`) -/
def entityDefinition : Shape := .record "EntityDefinition" true [
  plain "fields" "fields" (.mapOf fieldDeclaration),
  plain "links" "links" (.mapOf linkDeclaration),
  maybe "collection" "collection" collectionOptions,
  maybe "indexes" "indexes" objects,
  maybe "additional_tables" "additionalTables" anyObject,
  plain "skip_rebuild" "skipRebuild" .flag,
  plain "stream" "stream" .flag]

/-- What a field type adds to the fields of that type.
mirrors src/entityforge/core/types:187-204 (`FieldTypeMetadata`) -/
def fieldType : Shape := .record "FieldTypeMetadata" true [
  maybe "field_defs" "fieldDefs" anyObject,
  maybe "fields" "fields" objects,
  maybe "link_defs" "linkDefs" anyObject,
  plain "skip_orm_defs" "skipOrmDefs" .flag,
  plain "full_text_search" "fullTextSearch" .flag,
  maybe "full_text_search_column_list" "fullTextSearchColumnList" texts,
  maybe "naming" "naming" (.oneOf ["prefix", "postfix"])]

/-- What a relation kind adds to the relations of that kind.
mirrors src/entityforge/core/types:207-215 (`LinkTypeMetadata`) -/
def linkType : Shape := .record "LinkTypeMetadata" true [
  maybe "relation_defs" "relationDefs" anyObject,
  plain "skip_orm_defs" "skipOrmDefs" .flag]

/-! ## Compiled -/

/-- A resolved field.
mirrors src/entityforge/core/types:221-244 (`CompiledField`) -/
def compiledField : Shape := .record "CompiledField" true [
  maybe "type" "type" .text,
  maybe "db_type" "dbType" .text,
  maybe "len" "len" .whole,
  maybe "not_null" "notNull" .flag,
  maybe "not_exportable" "notExportable" .flag,
  maybe "autoincrement" "autoincrement" .flag,
  maybe "entity" "entity" .text,
  maybe "not_storable" "notStorable" .flag,
  maybe "relation" "relation" .text,
  maybe "foreign" "foreign" .textOrTexts,
  maybe "unique" "unique" .flagOrText,
  maybe "index" "index" .flagOrText,
  plain "default" "default" .anything,
  plain "select" "select" .anything,
  plain "order_by" "orderBy" .anything,
  plain "where" "where" .anything,
  maybe "store_array_values" "storeArrayValues" .flag,
  maybe "binary" "binary" .flag,
  maybe "field_type" "fieldType" .text]

/-- A storage index.
mirrors src/entityforge/core/types:247-255 (`CompiledIndex`) -/
def compiledIndex : Shape := .record "CompiledIndex" true [
  maybe "key" "key" .text,
  maybe "type" "type" .text,
  plain "columns" "columns" texts,
  maybe "flags" "flags" texts]

/-- A relation between two entities.
mirrors src/entityforge/core/types:258-273 (`CompiledRelation`) -/
def compiledRelation : Shape := .record "CompiledRelation" true [
  required "type" "type" .text,
  maybe "entity" "entity" .text,
  maybe "key" "key" .text,
  maybe "foreign_key" "foreignKey" .text,
  maybe "foreign" "foreign" .text,
  maybe "foreign_type" "foreignType" .text,
  maybe "relation_name" "relationName" .text,
  maybe "mid_keys" "midKeys" texts,
  maybe "conditions" "conditions" anyObject,
  maybe "additional_columns" "additionalColumns" objects,
  maybe "indexes" "indexes" (.mapOf compiledIndex)]

/-- The ordering of an entity's collection.
mirrors src/entityforge/core/types:276-282 (`CompiledCollection`) -/
def compiledCollection : Shape := .record "CompiledCollection" true [
  maybe "order_by" "orderBy" .text,
  plain "order" "order" .text]

/-- All that the storage has to know about an entity.
mirrors src/entityforge/core/types:285-296 (`CompiledEntitySchema`) -/
def compiledEntity : Shape := .record "CompiledEntitySchema" true [
  plain "fields" "fields" (.mapOf compiledField),
  plain "relations" "relations" (.mapOf compiledRelation),
  maybe "indexes" "indexes" (.mapOf compiledIndex),
  maybe "full_text_search_column_list" "fullTextSearchColumnList" texts,
  maybe "collection" "collection" compiledCollection,
  maybe "additional_tables" "additionalTables" anyObject,
  maybe "skip_rebuild" "skipRebuild" .flag]

/-- The schema of every entity, under its name.
mirrors src/entityforge/core/types:299-317 (`CompiledSchema`) -/
def compiledSchema : Shape := .mapOf compiledEntity

/-- A record of the catalogue with the title that reports give it. -/
structure Entry where
  title : String
  shape : Shape

def catalog : List Entry := [
  ⟨"FieldDeclaration", fieldDeclaration⟩,
  ⟨"LinkDeclaration", linkDeclaration⟩,
  ⟨"CollectionOptions", collectionOptions⟩,
  ⟨"EntityDefinition", entityDefinition⟩,
  ⟨"FieldTypeMetadata", fieldType⟩,
  ⟨"LinkTypeMetadata", linkType⟩,
  ⟨"CompiledField", compiledField⟩,
  ⟨"CompiledIndex", compiledIndex⟩,
  ⟨"CompiledRelation", compiledRelation⟩,
  ⟨"CompiledCollection", compiledCollection⟩,
  ⟨"CompiledEntitySchema", compiledEntity⟩,
  ⟨"CompiledSchema", compiledSchema⟩]

/-- The record with a title. -/
def entry? (title : String) : Option Entry :=
  catalog.find? fun e => e.title == title

/-- Checks a value against a record of the catalogue. -/
def Entry.accept (e : Entry) (v : Value) : Except Rejection Value :=
  e.shape.accept e.title v

end EntitySchema.Record
