import EntitySchema.Proofs.Schema.GivenUp
import EntitySchema.Proofs.Schema.Junctions

/-!
# Columns of full-text search

The columns in which an entity is searched are read off its declarations, what the storage keeps is decided while its fields
are compiled. The two agree exactly where every searched column is a compiled field that is kept and not marked, or no such
field and a column that a junction supplies.

Results:
* `Assembled.rel_attribute`: what an entity of a schema has besides its fields.
* `stores_iff`: what a field of a compiled schema is, in terms of the compiled entities.
* `storesSearchedColumns_iff`: when every searched column is stored.
* `exists_unstored_column`: a searched column that is not stored.
-/
namespace EntitySchema

namespace Field

/-- Whether the storage reads a field at all: it has a type, or it is marked in some way. -/
def isKept (attributes : Members Key Value) : Bool :=
  !(attributes.value "type").isNull || (attributes.value "notStorable").truthy

/-- Whether what a field is marked with stands for true. -/
def isMarked (mark : Option Value) : Bool :=
  match Record.readFlag (mark.getD .null) with
  | .ok b => b
  | .error _ => false

/-- What a field is marked with. -/
def markIn (fields : Members Key Value) (field : Key) : Option Value :=
  (Members.get? fields field).bind fun v => Members.get? v.members "notStorable"

/-- A mark is written in camel case. -/
def MarkedByKey (_ : Key) (attributes : Members Key Value) : Prop :=
  Members.get? attributes "not_storable" = none

theorem fieldLaw_markedByKey (c : Config) : FieldLaw c MarkedByKey where
  congr := fun _ h => h
  plain := fun _ _ h => h.marked
  resolved := fun _ _ _ h => get?_compiled_not_storable h
  merge := fun _ _ _ _ h h' => Members.get?_merge_eq_none_iff.2 ⟨h, h'⟩
  unset := by
    intro f m path h
    show Members.get? (Members.unset m path) "not_storable" = none
    cases hv : Members.get? (Members.unset m path) "not_storable" with
    | none => rfl
    | some v =>
      rcases Members.get?_unset hv with hsame | ⟨below, rest, hbelow, -⟩
      · rw [h] at hsame; cases hsame
      · rw [h] at hbelow; cases hbelow
  normal := fun _ _ _ hnormal h => (get?_normalize_of_untouched hnormal (by simp [normalizedKeys])).trans h

/-- A field keeps its mark in normal form, if it is kept. -/
theorem markIn_normalizeAll {c : Config} {entity : Key} {P : Key → Members Key Value → Prop} {fields normal : Members Key Value}
    (hfields : FieldsWith P fields) (h : (normalizeAll c entity fields).result = .ok normal) (field : Key) :
    (Members.contains normal field = true ↔ ∃ a, Members.get? fields field = some (.object a) ∧ isKept a = true) ∧
      (Members.contains normal field = true → markIn normal field = markIn fields field) := by
  unfold Members.contains markIn
  rw [get?_normalizeAll hfields.distinct h]
  cases hget : Members.get? fields field with
  | none => simp
  | some v =>
    obtain ⟨a, rfl, -, -⟩ := hfields.each field v hget
    obtain ⟨k, -, hm⟩ := Members.exists_of_get? hget
    obtain ⟨_, form, hobject, hform⟩ := normalize_of_mem h hm
    cases hobject
    have hnone := normalize_eq_none_iff hform
    cases form with
    | none =>
      obtain ⟨htype, hmark⟩ := hnone.1 rfl
      simp [normalForm?, Value.members, hform, isKept, htype, hmark]
    | some p =>
      have hkept : isKept a = true := by
        unfold isKept
        cases htype : (Members.value a "type").isNull <;> cases hmark : (Members.value a "notStorable").truthy <;> simp_all
      have hsame : Members.get? p "notStorable" = Members.get? a "notStorable" :=
        get?_normalize_of_untouched hform (by simp [normalizedKeys])
      simp [normalForm?, Value.members, hform, hkept, hsame]

/-- Columns of a junction laid over fields leave their marks alone. -/
theorem markIn_overlay {fields columns : Members Key Value} (hd : Members.Distinct columns)
    (hcolumns : ∀ f v, Members.get? columns f = some v → Junction.IsColumn v) (field : Key) :
    markIn (fields.overlay columns) field = markIn fields field := by
  unfold markIn Members.overlay
  rw [Members.get?_merge hd]
  cases hupper : Members.get? columns field with
  | none => rfl
  | some v =>
    obtain ⟨column, rfl, hplain, hmark⟩ := hcolumns field v hupper
    cases hlower : Members.get? fields field with
    | none => simp [Members.mergedAt_of_get?_none hlower, Value.members, hmark]
    | some old =>
      simp only [Members.mergedAt_of_get? hlower, Option.bind_some]
      cases old with
      | object a =>
        simp only [Value.overlay_object, Value.members]
        exact Members.get?_merge_of_none hmark
      | _ => simp [Value.overlay, Value.members, hmark]

end Field

namespace Schema

/-! ## What is stored -/

/-- The columns in which an entity of a schema is searched. -/
def searched (s : Schema) (entity : Key) : List String :=
  ((entityIn s.entities entity).value "fullTextSearchColumnList").texts

/-- Whether a column is a field of an entity of a schema that is not marked. -/
def stores (s : Schema) (entity : Key) (column : String) : Bool :=
  (Members.get? (s.fields entity) column).any fun v => !(v.members.value "notStorable").truthy

/-- Every column in which an entity is searched is stored. -/
def StoresSearchedColumns (s : Schema) : Prop :=
  ∀ entity, ∀ column ∈ s.searched entity, s.stores entity column = true

/-- A compiled field that is kept and not marked, or no field that is kept and a column of a junction. -/
def Stored (c : Config) (tree fields : Members Key Value) (entity : Key) (column : String) : Prop :=
  (∃ a, Members.get? fields column = some (.object a) ∧ Field.isKept a = true ∧
      Field.isMarked (Members.get? a "notStorable") = false) ∨
    (∀ a, Members.get? fields column = some (.object a) → Field.isKept a = false) ∧ JunctionSupplies c tree entity column

section
variable {c : Compiler} {s : Snapshot} {schema : Schema} {tree : Members Key Value} {parts : List (Members Key Value)}

/-- A canonical field is marked if what it is marked with stands for true. -/
theorem truthy_of_compiledField {a : Members Key Value} {w : Value} (h : Record.compiledField.check (.object a) = .ok w)
    (hmark : Members.get? a "not_storable" = none) :
    (w.members.value "notStorable").truthy = Field.isMarked (Members.get? a "notStorable") := by
  have hrel := Record.get?_record Record.isRecord_compiledField h (a := ⟨"not_storable", "notStorable", false⟩)
    (t := .nullable .flag) (by simp [Record.compiledField, Record.Shape.attributes, Record.plain, Record.maybe])
  have hgiven : Record.Attribute.given? ⟨"not_storable", "notStorable", false⟩ a = Members.get? a "notStorable" := by
    unfold Record.Attribute.given? Record.Attribute.find?
    cases hkey : Members.get? a "notStorable" <;> simp [hmark]
  rw [hgiven] at hrel
  simp only at hrel
  unfold Members.value
  generalize Members.get? a "notStorable" = given at hrel ⊢
  generalize Members.get? w.members (.text "notStorable") = found at hrel ⊢
  cases hrel with
  | none => rfl
  | some hv =>
    rename_i v v'
    rcases Record.nullable_eq_ok.1 hv with ⟨rfl, rfl⟩ | ⟨-, hflag⟩
    · rfl
    · rw [Record.Shape.check] at hflag
      unfold Record.scalar at hflag
      split at hflag
      · rename_i b hb
        cases hflag
        simp [Field.isMarked, hb, Value.truthy]
      · simp at hflag

theorem Assembled.markIn_fields (h : Assembled c s schema tree parts) (entity field : Key) :
    Field.markIn (fieldsIn (parts.foldl Members.overlay tree) entity) field = Field.markIn (fieldsIn tree entity) field := by
  rw [fieldsIn_withJunctions h.withFields h.ofFragments]
  refine List.foldlRecOn (motive := fun fields => Field.markIn fields field = Field.markIn (fieldsIn tree entity) field)
    parts _ rfl fun fields hfields part hpart => ?_
  rw [← hfields]
  cases hget : Members.get? part entity with
  | none => rw [fieldsIn_of_get?_none hget]; rfl
  | some v =>
    obtain ⟨columns, rfl, hd, hcolumns⟩ := (h.ofFragments part hpart).fragment entity v hget
    rw [fieldsIn_of_fragment hget]
    exact Field.markIn_overlay hd hcolumns field

/-- A field of a compiled schema is stored if it is there and was not marked before the junctions joined. -/
theorem stores_iff_markIn (h : Assembled c s schema tree parts) (hc : c.registry = {}) (entity : Key) (column : String) :
    schema.stores entity column = true ↔
      Supplied c.config tree entity column ∧ Field.isMarked (Field.markIn (fieldsIn tree entity) column) = false := by
  rw [← contains_fields_iff h, ← h.markIn_fields]
  have hfields := h.fieldsWith (P := fun _ => Field.MarkedByKey) hc (fun _ => Field.fieldLaw_markedByKey c.config)
    (fun _ h => h) (fun _ _ _ _ _ _ _ => by simp [Field.MarkedByKey, Members.get?_cons]) entity
  have hcheck := checkMembers_fields h.accepted (withFields_withJunctions h.withFields h.ofFragments) entity
  have hrel := Record.get?_checkMembers hcheck (.text column)
  unfold stores Members.contains Field.markIn
  generalize hG : Members.get? (fieldsIn (parts.foldl Members.overlay tree) entity) (.text column) = before at hrel ⊢
  generalize Members.get? (schema.fields entity) (.text column) = after at hrel ⊢
  cases hrel with
  | none => simp
  | some hw =>
    obtain ⟨a, rfl, -, hmarked⟩ := hfields.each _ _ hG
    simp [truthy_of_compiledField hw hmarked]

/-- What a field of a compiled schema is, in terms of the compiled entities. -/
theorem stores_iff (h : Assembled c s schema tree parts) (hc : c.registry = {}) {compiled : Members Key Value}
    (hcompiled : (compileEntities c s.metadata [] s.entities).result = .ok compiled) (entity : Key) (column : String) :
    schema.stores entity column = true ↔ Stored c.config tree (fieldsIn compiled entity) entity column := by
  have hstores := stores_iff_markIn h hc entity column
  obtain ⟨_, hsame, hnormal⟩ := Run.result_bind_eq_ok.1 h.entities
  rw [hcompiled] at hsame
  cases hsame
  obtain ⟨name, hfields⟩ := fieldsIn_normalize hnormal entity
  have htree := compileEntities_treeWith (P := fun _ => Field.MarkedByKey) hc
    (fun _ => Field.fieldLaw_markedByKey c.config) (fun _ h => h)
    (fun _ _ _ _ _ _ _ => by simp [Field.MarkedByKey, Members.get?_cons]) ⟨Members.distinct_nil, by simp⟩ hcompiled
  obtain ⟨hcontains, hmark⟩ := Field.markIn_normalizeAll (htree.fieldsIn entity) hfields (.text column)
  rw [hstores, Supplied, Stored]
  by_cases hkept : Members.contains (fieldsIn tree entity) (.text column) = true
  · obtain ⟨a, ha, hkeep⟩ := hcontains.1 hkept
    rw [hmark hkept, Field.markIn, ha]
    constructor
    · intro h
      exact .inl ⟨a, rfl, hkeep, h.2⟩
    · intro h
      rcases h with ⟨a', ha', -, hunmarked⟩ | ⟨hnone, -⟩
      · cases ha'
        exact ⟨.inl hkept, hunmarked⟩
      · rw [hnone a rfl] at hkeep
        cases hkeep
  · have hnone : Field.markIn (fieldsIn tree entity) (.text column) = none := by
      unfold Field.markIn
      cases hget : Members.get? (fieldsIn tree entity) (.text column) with
      | none => rfl
      | some v => simp [Members.contains, hget] at hkept
    rw [hnone]
    constructor
    · intro h
      rcases h.1 with hsupplied | hsupplied
      · exact absurd hsupplied hkept
      · refine .inr ⟨fun a ha => ?_, hsupplied⟩
        rw [← Bool.not_eq_true]
        exact fun hkeep => hkept (hcontains.2 ⟨a, ha, hkeep⟩)
    · intro h
      rcases h with ⟨a, ha, hkeep, -⟩ | ⟨-, hsupplied⟩
      · exact absurd (hcontains.2 ⟨a, ha, hkeep⟩) hkept
      · exact ⟨.inr hsupplied, rfl⟩

/-- What an entity of a schema has besides its fields and its mark is the canonical form of what it was compiled to: junctions have
no more than those. -/
theorem Assembled.rel_attribute (h : Assembled c s schema tree parts) {compiled : Members Key Value}
    (hcompiled : (compileEntities c s.metadata [] s.entities).result = .ok compiled) (entity : Key) {a : Record.Attribute}
    {t : Record.Shape} (ha : (a, t) ∈ Record.compiledEntity.attributes)
    (hmore : ∀ key ∈ [a.key, a.name], key ≠ "skipRebuild" ∧ key ≠ "fields") :
    Option.Rel (fun v w => t.check v = .ok w) (a.given? (entityIn compiled entity))
      (Members.get? (entityIn schema.entities entity) (.text a.key)) := by
  obtain ⟨_, hsame, hnormal⟩ := Run.result_bind_eq_ok.1 h.entities
  rw [hcompiled] at hsame
  cases hsame
  have hget : ∀ key ∈ [a.key, a.name], Members.get? (entityIn (parts.foldl Members.overlay tree) entity) (.text key) =
      Members.get? (entityIn compiled entity) (.text key) := by
    intro key hkey
    obtain ⟨hmark, hfields⟩ := hmore key hkey
    rw [get?_entityIn_withJunctions h.withFields h.ofFragments entity (by simpa using hmark) (by simpa using hfields),
      get?_entityIn_normalize hnormal entity (by simpa using hfields)]
  rw [← Record.Attribute.given?_congr (hget a.key (by simp)) (hget a.name (by simp))]
  exact rel_given h.accepted (withFields_withJunctions h.withFields h.ofFragments) entity ha

/-- Only an entity that was compiled has more attributes than its fields and its mark. -/
theorem exists_of_attribute (h : Assembled c s schema tree parts) {compiled : Members Key Value}
    (hcompiled : (compileEntities c s.metadata [] s.entities).result = .ok compiled) {entity : Key} {a : Record.Attribute}
    {t : Record.Shape} (ha : (a, t) ∈ Record.compiledEntity.attributes)
    (hmore : ∀ key ∈ [a.key, a.name], key ≠ "skipRebuild" ∧ key ≠ "fields") {w : Value}
    (hw : Members.get? (entityIn schema.entities entity) (.text a.key) = some w) : ∃ v, Members.get? compiled entity = some v := by
  cases hget : Members.get? compiled entity with
  | some v => exact ⟨v, rfl⟩
  | none =>
    have hrel := h.rel_attribute hcompiled entity ha hmore
    rw [entityIn_of_get?_none hget, hw] at hrel
    cases hrel

/-- Only an entity that was compiled is searched. -/
theorem exists_of_mem_searched (h : Assembled c s schema tree parts) {compiled : Members Key Value}
    (hcompiled : (compileEntities c s.metadata [] s.entities).result = .ok compiled) {entity : Key} {column : String}
    (hcolumn : column ∈ schema.searched entity) : ∃ v, Members.get? compiled entity = some v := by
  cases hlisted : Members.get? (entityIn schema.entities entity) "fullTextSearchColumnList" with
  | some w =>
    exact exists_of_attribute h hcompiled (a := ⟨"full_text_search_column_list", "fullTextSearchColumnList", false⟩)
      (t := .nullable Record.texts) (by simp [Record.compiledEntity, Record.Shape.attributes, Record.plain, Record.maybe])
      (by simp) hlisted
  | none =>
    unfold searched Members.value at hcolumn
    rw [hlisted] at hcolumn
    cases hcolumn

/-- Every searched column is stored exactly if each is a compiled field of its entity that is kept and not marked, or no such
field and a column that a junction supplies. -/
theorem storesSearchedColumns_iff (hc : c.registry = {}) (hd : Members.Distinct s.entities)
    (h : (compile c s).result = .ok schema) :
    ∃ tree, (entityTree c s).result = .ok tree ∧ (schema.StoresSearchedColumns ↔
      ∀ entry ∈ s.entities, ∀ d own, load entry.1 entry.2 = .ok d →
        (Entity.compile c s.metadata entry.1 d).result = .ok own →
          ∀ column ∈ schema.searched entry.1, Stored c.config tree (fieldsIn own entry.1) entry.1 column) := by
  obtain ⟨tree, parts, hassembled⟩ := exists_assembled h
  refine ⟨tree, hassembled.entities, ?_⟩
  obtain ⟨compiled, hcompiled, -⟩ := Run.result_bind_eq_ok.1 hassembled.entities
  -- the entity that is searched, and what it was compiled to
  have hentry : ∀ entity, ∀ column ∈ schema.searched entity, ∃ entry ∈ s.entities, (entry.1 == entity) = true ∧
      ∃ d own, load entry.1 entry.2 = .ok d ∧ (Entity.compile c s.metadata entry.1 d).result = .ok own ∧
        fieldsIn compiled entity = fieldsIn own entry.1 := by
    intro entity column hcolumn
    obtain ⟨v, hv⟩ := exists_of_mem_searched hassembled hcompiled hcolumn
    obtain ⟨entry, hentry, hkey, one, hone, hfields⟩ := exists_compiled_of_get? hc hd hcompiled hv
    obtain ⟨d, hload, hown⟩ := compileEntity_eq_ok hone
    exact ⟨entry, hentry, hkey, d, one.tree, hload, hown, hfields⟩
  constructor
  · intro hstores entry hmem d own hload hown column hcolumn
    obtain ⟨entry', hmem', hkey, d', own', hload', hown', hfields⟩ := hentry entry.1 column hcolumn
    obtain rfl : entry' = entry := Members.eq_of_mem_of_beq hd hmem' hmem hkey
    rw [hload] at hload'
    cases hload'
    rw [hown] at hown'
    cases hown'
    rw [← hfields]
    exact (stores_iff hassembled hc hcompiled entry'.1 column).1 (hstores entry'.1 column hcolumn)
  · intro hstored entity column hcolumn
    obtain ⟨entry, hmem, hkey, d, own, hload, hown, hfields⟩ := hentry entity column hcolumn
    have hsame : fieldsIn compiled entry.1 = fieldsIn own entry.1 := by
      rw [← hfields, fieldsIn, fieldsIn, entityIn_congr hkey]
    have hlisted : column ∈ schema.searched entry.1 := by
      unfold searched
      rw [entityIn_congr hkey]
      exact hcolumn
    have hstores := (stores_iff hassembled hc hcompiled entry.1 column).2
      (hsame ▸ hstored entry hmem d own hload hown column hlisted)
    unfold stores fields fieldsIn at hstores ⊢
    rw [← entityIn_congr hkey]
    exact hstores

end

/-! ## A searched column that is not stored -/

/-- A storage that keeps full-text indexes of all tables. -/
def searching : Compiler := { probe := .always }

/-- An entity that is searched in its name, which is declared as not stored. -/
def unstoredName : Snapshot :=
  .ofWritten [("Account", .object [
    ("fields", .object [("name", .object [("type", .str FieldKind.varchar.word), ("db", .bool false)])]),
    ("collection", .object [("fullTextSearch", .bool true)])])]
    { fieldTypes := [(FieldKind.varchar.word, ⟨[("fullTextSearch", .bool true)]⟩)] }

theorem storesSearchedColumns_iff_unstoredName :
    searching.registry = {} ∧ Members.Distinct unstoredName.entities ∧
      ∃ schema, (compile searching unstoredName).result = .ok schema ∧
        ∃ tree, (entityTree searching unstoredName).result = .ok tree ∧ (schema.StoresSearchedColumns ↔
          ∀ entry ∈ unstoredName.entities, ∀ d own, load entry.1 entry.2 = .ok d →
            (Entity.compile searching unstoredName.metadata entry.1 d).result = .ok own →
              ∀ column ∈ schema.searched entry.1, Stored searching.config tree (fieldsIn own entry.1) entry.1 column) := by
  have hgives : gives (compile searching unstoredName).result (fun _ => true) = true := by decide +kernel
  obtain ⟨schema, hschema, -⟩ := gives_iff.1 hgives
  have hd : Members.Distinct unstoredName.entities := Members.distinct_singleton _ _
  exact ⟨rfl, hd, schema, hschema, storesSearchedColumns_iff rfl hd hschema⟩

/-- The name is searched, since its declaration is not marked, and it is not stored, since its declaration keeps it out of the
storage. -/
theorem exists_unstored_column :
    ∃ schema, (compile searching unstoredName).result = .ok schema ∧ ¬ schema.StoresSearchedColumns := by
  have hgives : gives (compile searching unstoredName).result (fun schema =>
      (schema.searched "Account").contains "name" && !schema.stores "Account" "name") = true := by decide +kernel
  obtain ⟨schema, hschema, htest⟩ := gives_iff.1 hgives
  rw [Bool.and_eq_true, List.contains_iff_mem, Bool.not_eq_true'] at htest
  refine ⟨schema, hschema, fun hstores => ?_⟩
  have hname := hstores "Account" "name" htest.1
  rw [htest.2] at hname
  cases hname

end Schema

end EntitySchema
