import EntitySchema.Proofs.Entity.Settled
import EntitySchema.Proofs.Schema.FullText

/-!
# Indexes that fields ask for, in a schema

The indexes of an entity are made before its fields are brought into normal form, before marks are read as truth values and
before junctions join the schema, and each of these may drop, mark or add fields. If no name has a dot in it, none of them takes
from an index that is made of fields a column that the storage keeps.

* `indexes`: the indexes of an entity of a schema.
* `PlainNames`: a snapshot whose names have no dots.
* `IsFieldIndex`: an index that is neither declared nor the full-text one.

Results:
* `readFlag_of_not_truthy`: what is not given is never read as true.
* `stored_of_isAsked`: a settled field of which an index is made is stored.
* `rel_indexes`, `columns_of_isOver`, `searched_ne_nil`: what the schema says of indexes is what its entities were compiled to.
* `stores_columns_of_isFieldIndex`: the columns of all such indexes of a schema are stored.
-/
namespace EntitySchema

namespace Record

theorem checkElements_text_eq_ok {n : Nat} {xs ys : List Value} (h : checkElements Shape.text.check n xs = .ok ys) :
    ys = xs ∧ ∀ x ∈ xs, ∃ s, x = .str s := by
  induction xs generalizing n ys with
  | nil => cases h; exact ⟨rfl, by simp⟩
  | cons x rest ih =>
    simp only [checkElements, both_eq_ok, under_eq_ok, Shape.check, checkText_eq_ok] at h
    obtain ⟨_, rest', ⟨s, rfl, rfl⟩, hrest, rfl⟩ := h
    obtain ⟨rfl, htexts⟩ := ih hrest
    exact ⟨rfl, List.forall_mem_cons.2 ⟨⟨s, rfl⟩, htexts⟩⟩

/-- A list of texts stays as it is. -/
theorem texts_eq_ok {v w : Value} (h : texts.check v = .ok w) : w = v ∧ ∀ x ∈ v.elements, ∃ s, x = .str s := by
  cases v with
  | list xs =>
    obtain ⟨ys, hys, rfl⟩ := map_eq_ok.1 h
    obtain ⟨rfl, htexts⟩ := checkElements_text_eq_ok hys
    exact ⟨rfl, htexts⟩
  | _ => cases h

theorem isRecord_compiledIndex : compiledIndex.IsRecord := ⟨_, rfl, by decide⟩

/-- What is not given is not read as true. -/
theorem readFlag_of_not_truthy {v : Value} (hv : v.truthy = false) {b : Bool} (h : readFlag v = .ok b) : b = false := by
  cases v with
  | bool b' => cases h; exact hv
  | int n =>
    have hzero : n = 0 := by simpa [Value.truthy] using hv
    subst hzero
    cases h
    rfl
  | float x =>
    have hzero : x.mantissa = 0 := by simpa [Value.truthy, Binary64.isZero] using hv
    have hint : x.toInt? = some 0 := by simp [Binary64.toInt?, hzero]
    rw [readFlag, hint] at h
    cases h
    rfl
  | str s =>
    have hempty : s = "" := by simpa [Value.truthy] using hv
    subst hempty
    cases h
  | _ => cases h

end Record

namespace Schema

/-- The compiled indexes of an entity. -/
def indexes (s : Schema) (entity : Key) : Members Key Value :=
  ((entityIn s.entities entity).value "indexes").members

/-- No name in the definition of an entity has a dot, and no object in it has a key twice. -/
def PlainNames (s : Snapshot) : Prop :=
  ∀ entry ∈ s.entities, ∀ d, load entry.1 entry.2 = .ok d →
    Entity.PlainNames s.metadata entry.1 d ∧ Entity.DistinctParams s.metadata d

/-- An index that is declared in the definition of an entity. -/
def DeclaresIndex (s : Snapshot) (entity name : Key) : Prop :=
  ∃ entry ∈ s.entities, (entry.1 == entity) = true ∧ ∃ d, load entry.1 entry.2 = .ok d ∧
    Members.contains (d.body.value "indexes").members name = true

/-- An index of an entity that is neither declared nor the full-text index of an entity that is searched. -/
structure IsFieldIndex (c : Config) (s : Snapshot) (schema : Schema) (entity name : Key) (index : Value) : Prop where
  there : Members.get? (schema.indexes entity) name = some index
  undeclared : ¬DeclaresIndex s entity name
  notFullText : ¬(name = .text c.fullTextIndexName ∧ schema.searched entity ≠ [])

section
variable {c : Compiler} {s : Snapshot} {schema : Schema} {tree fields : Members Key Value} {parts : List (Members Key Value)}

/-- A settled field of which an index is made is stored: it has a type, and its mark does not stand for true. -/
theorem stored_of_isAsked {config : Config} {entity : Key} (hfields : Entity.SettledFields fields) {column : String}
    (h : Index.IsAsked fields (.text column)) : Stored config tree fields entity column := by
  obtain ⟨params, hparams, hmark, hkind⟩ := h
  have hget := Members.get?_of_mem hfields.distinct hparams
  obtain ⟨_, hobject, -, hsettled⟩ := hfields.each _ _ hget
  cases hobject
  refine .inl ⟨params, hget, ?_, ?_⟩
  · have htype := hsettled.truthy_type hmark hkind
    have hgiven : (params.value "type").isNull = false := by
      revert htype
      cases params.value "type" <;> simp [Value.truthy, Value.isNull]
    rw [Field.isKept, hgiven]
    rfl
  · unfold Field.isMarked
    split
    · rename_i hread
      exact Record.readFlag_of_not_truthy hmark hread
    · rfl

/-- The columns of an index are the same texts in the schema as before. -/
theorem columns_of_isOver {columns : List Key} {raw index : Value} (h : Index.IsOver columns raw)
    (hcheck : Record.compiledIndex.check raw = .ok index) :
    (index.members.value "columns").elements = columns.map Value.ofKey ∧ ∀ column ∈ columns, ∃ text, column = .text text := by
  obtain ⟨defs, rfl, -, hcolumns⟩ := h
  have hrel := Record.get?_record Record.isRecord_compiledIndex hcheck (a := ⟨"columns", "columns", false⟩) (t := Record.texts)
    (by simp [Record.compiledIndex, Record.Shape.attributes, Record.plain, Record.maybe])
  rw [Record.Attribute.given?_of_name_eq_key rfl] at hrel
  simp only [hcolumns] at hrel
  obtain ⟨found, hfound, hsame⟩ := Members.rel_some_left.1 hrel
  obtain ⟨rfl, htexts⟩ := Record.texts_eq_ok hsame
  refine ⟨by rw [Members.value_of_get? hfound]; rfl, fun column hcolumn => ?_⟩
  obtain ⟨text, htext⟩ := htexts _ (List.mem_map_of_mem hcolumn)
  exact ⟨text, Record.ofKey_eq_str.1 htext⟩

/-- The columns of a derived index are texts in normal form, and fields that ask for an index. -/
theorem columns_of_isDerived {raw index : Value} (h : Index.IsDerived fields raw)
    (hcheck : Record.compiledIndex.check raw = .ok index) :
    ∀ column ∈ (index.members.value "columns").elements, ∃ field, column = .str field ∧ Index.IsAsked fields (.text field) := by
  obtain ⟨defs, columns, hraw, hd, hcolumns, hasked⟩ := h
  obtain ⟨hsame, htexts⟩ := columns_of_isOver ⟨defs, hraw, hd, hcolumns⟩ hcheck
  rw [hsame]
  intro column hcolumn
  obtain ⟨key, hkey, rfl⟩ := List.mem_map.1 hcolumn
  obtain ⟨text, rfl⟩ := htexts key hkey
  exact ⟨text, rfl, hasked _ hkey⟩

/-- An index of a schema is the canonical form of the index that its entity was compiled with. -/
theorem rel_indexes (h : Assembled c s schema tree parts) {compiled : Members Key Value}
    (hcompiled : (compileEntities c s.metadata [] s.entities).result = .ok compiled) (entity name : Key) :
    Option.Rel (fun raw index => Record.compiledIndex.check raw = .ok index)
      (Members.get? ((entityIn compiled entity).value "indexes").members name) (Members.get? (schema.indexes entity) name) := by
  have hrel := h.rel_attribute hcompiled entity (a := ⟨"indexes", "indexes", false⟩)
    (t := .nullable (.mapOf Record.compiledIndex))
    (by simp [Record.compiledEntity, Record.Shape.attributes, Record.plain, Record.maybe]) (by simp)
  rw [Record.Attribute.given?_of_name_eq_key rfl] at hrel
  unfold indexes Members.value
  generalize Members.get? (entityIn compiled entity) (.text "indexes") = before at hrel ⊢
  generalize Members.get? (entityIn schema.entities entity) (.text "indexes") = after at hrel ⊢
  cases hrel with
  | none => exact .none
  | some hcheck =>
    rcases Record.nullable_eq_ok.1 hcheck with ⟨rfl, rfl⟩ | ⟨-, hcheck⟩
    · exact .none
    · obtain ⟨m, m', rfl, hmembers, rfl⟩ := Record.mapOf_eq_ok.1 hcheck
      exact Record.get?_checkMembers hmembers name

/-- The indexes of an entity of a schema are those that it was compiled to, each in canonical form. -/
theorem exists_compiled_index (h : Assembled c s schema tree parts) {compiled : Members Key Value}
    (hcompiled : (compileEntities c s.metadata [] s.entities).result = .ok compiled) {entity name : Key} {index : Value}
    (hindex : Members.get? (schema.indexes entity) name = some index) :
    (∃ v, Members.get? compiled entity = some v) ∧
      ∃ raw, Members.get? ((entityIn compiled entity).value "indexes").members name = some raw ∧
        Record.compiledIndex.check raw = .ok index := by
  have hrel := rel_indexes h hcompiled entity name
  rw [hindex] at hrel
  obtain ⟨raw, hraw, hcheck⟩ := Members.rel_some_right.1 hrel
  exact ⟨exists_of_get?_members hraw, raw, hraw, hcheck⟩

/-- An entity that was compiled to columns of full-text search is searched in the schema. -/
theorem searched_ne_nil (h : Assembled c s schema tree parts) {compiled : Members Key Value}
    (hcompiled : (compileEntities c s.metadata [] s.entities).result = .ok compiled) {entity : Key}
    (hlisted : ((entityIn compiled entity).value "fullTextSearchColumnList").texts ≠ []) : schema.searched entity ≠ [] := by
  have hrel := h.rel_attribute hcompiled entity (a := ⟨"full_text_search_column_list", "fullTextSearchColumnList", false⟩)
    (t := .nullable Record.texts) (by simp [Record.compiledEntity, Record.Shape.attributes, Record.plain, Record.maybe]) (by simp)
  cases hv : Members.get? (entityIn compiled entity) "fullTextSearchColumnList" with
  | none =>
    unfold Members.value at hlisted
    rw [hv] at hlisted
    exact absurd rfl hlisted
  | some v =>
    rw [Members.value_of_get? hv] at hlisted
    rw [Record.Attribute.given?_of_get? (v := v) hv] at hrel
    unfold searched Members.value
    simp only at hrel
    generalize Members.get? (entityIn schema.entities entity) (.text "fullTextSearchColumnList") = found at hrel ⊢
    cases hrel with
    | some hcheck =>
      rcases Record.nullable_eq_ok.1 hcheck with ⟨rfl, -⟩ | ⟨-, hcheck⟩
      · exact absurd rfl hlisted
      · rw [(Record.texts_eq_ok hcheck).1]
        exact hlisted

/-- If no name has a dot in it, the columns of every index that is made of fields are stored: each is a field of its entity in the
schema, and not marked. -/
theorem stores_columns_of_isFieldIndex (hc : c.registry = {})
    (hoptions : c.config.permittedEntityOptions = ({} : Config).permittedEntityOptions) (hd : Members.Distinct s.entities)
    (hplain : PlainNames s) (h : (compile c s).result = .ok schema) :
    ∀ entity name index, IsFieldIndex c.config s schema entity name index →
      ∀ column ∈ (index.members.value "columns").elements, ∃ field, column = .str field ∧ schema.stores entity field = true := by
  intro entity name index hindex column hcolumn
  obtain ⟨tree, parts, hassembled⟩ := exists_assembled h
  obtain ⟨compiled, hcompiled, -⟩ := Run.result_bind_eq_ok.1 hassembled.entities
  obtain ⟨⟨v, hv⟩, raw, hraw, hcheck⟩ := exists_compiled_index hassembled hcompiled hindex.there
  -- the entity was compiled from a definition, and stands in the tree as it was compiled
  obtain ⟨entry, hentry, hkey, one, hone, hentryOf⟩ := exists_entry_of_get? hc hd hcompiled hv
  obtain ⟨d, hload, hcompile⟩ := compileEntity_eq_ok hone
  obtain ⟨hnames, hdistinct⟩ := hplain entry hentry d hload
  obtain ⟨own, fields, htree, hfields, hsettled, hindexes⟩ :=
    Entity.settled_of_compile hc hoptions hnames hdistinct hcompile
  have hget : ∀ member ≠ Key.text "skipRebuild", Members.get? (entityIn compiled entity) member = Members.get? own member := by
    intro member hmember
    rw [entityIn, Members.value_of_get? hv, hentryOf.get?_eq hmember, htree,
      entityIn_of_get? (m := own) (by rw [Members.get?_cons, if_pos BEq.rfl])]
  rw [Members.value_congr (hget _ (by simp))] at hraw
  rcases hindexes name raw hraw with (hdeclared | ⟨hname, hlisted⟩) | hderived
  · exact absurd ⟨entry, hentry, hkey, d, hload, hdeclared⟩ hindex.undeclared
  · refine absurd ⟨hname, searched_ne_nil hassembled hcompiled ?_⟩ hindex.notFullText
    rwa [Members.value_congr (hget _ (by simp))]
  · obtain ⟨field, rfl, hasked⟩ := columns_of_isDerived hderived hcheck column hcolumn
    refine ⟨field, rfl, (stores_iff hassembled hc hcompiled entity field).2 ?_⟩
    rw [fieldsIn, Members.value_congr (hget _ (by simp)), Members.value_of_get? hfields]
    exact stored_of_isAsked hsettled hasked

end

/-- Notes of any parent. Their tags ask for an index, but give way to two other fields; a default that they give to themselves
brings them back without a type. -/
def taggedNote : Definition :=
  ⟨[("fields", .object [("tags", .object [("type", .str "linkMultiple"), ("unique", .bool true),
      ("defaultAttributes", .object [("tags", .list [])])])]),
    ("links", .object [("parent", .object [("type", .str LinkKind.belongsToParent.word)])])]⟩

def taggedNotes : Snapshot :=
  { entities := [("Note", .checked taggedNote)] }

theorem stores_columns_of_isFieldIndex_taggedNotes :
    ∃ schema index, (compile {} taggedNotes).result = .ok schema ∧ IsFieldIndex {} taggedNotes schema "Note" "parent" index ∧
      (index.members.value "columns").texts = ["parentId", "parentType"] ∧
        ∀ column ∈ (index.members.value "columns").elements, ∃ field, column = .str field ∧ schema.stores "Note" field = true := by
  have hgives : gives (compile {} taggedNotes).result (fun schema =>
      (Members.get? (schema.indexes "Note") "parent").any fun index =>
        (index.members.value "columns").texts == ["parentId", "parentType"]) = true := by decide +kernel
  obtain ⟨schema, hschema, htest⟩ := gives_iff.1 hgives
  obtain ⟨index, hindex, hcolumns⟩ := (Option.any_eq_true _ _).1 htest
  have hentry : ∀ entry ∈ taggedNotes.entities, ∀ d, load entry.1 entry.2 = .ok d → entry.1 = "Note" ∧ d = taggedNote := by
    intro entry hentry d hload
    obtain rfl := List.mem_singleton.1 hentry
    cases hload
    exact ⟨rfl, rfl⟩
  have hplain : PlainNames taggedNotes := by
    intro entry he d hload
    obtain ⟨hname, rfl⟩ := hentry entry he d hload
    refine ⟨⟨fun name htext => ?_, by decide, fun _ => nofun⟩, ⟨fun field hfield => ?_, fun _ => nofun⟩⟩
    · rw [hname] at htext
      cases htext
      decide
    · obtain rfl := List.mem_singleton.1 hfield
      show List.Pairwise (fun a b : Key => (a == b) = false) ["type", "unique", "defaultAttributes"]
      decide
  have hfieldIndex : IsFieldIndex {} taggedNotes schema "Note" "parent" index := by
    refine ⟨hindex, ?_, fun hname => absurd hname.1 (by decide)⟩
    rintro ⟨entry, he, -, d, hload, hdeclared⟩
    obtain ⟨-, rfl⟩ := hentry entry he d hload
    cases hdeclared
  have hd : Members.Distinct taggedNotes.entities := Members.distinct_singleton _ _
  exact ⟨schema, index, hschema, hfieldIndex, eq_of_beq hcolumns,
    stores_columns_of_isFieldIndex rfl rfl hd hplain hschema "Note" "parent" index hfieldIndex⟩

end Schema

end EntitySchema
