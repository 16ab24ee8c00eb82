import EntitySchema.Proofs.Entity.Indexes
import EntitySchema.Proofs.Schema.FieldIndexes
import EntitySchema.Proofs.Schema.Independence

/-!
# Unique fields and their indexes

A schema gives the flags of a field as they are read at last, and its indexes are made of the flags as they were before. A
number that stands for a truth value is a flag in the schema only, and a column type that normalization replaces decides for
which index its field asks. So a field that is unique in the schema has its index if its flags were truth values from the start.

* `IsUnique`: a field that is to have a unique index of its own.
* `Lists`, `ListsUniqueFields`: fields that are among the columns of the index of their name.

Results:
* `exists_raw_field`, `exists_made_indexes`: the fields and indexes of an entity before they were those of a schema.
* `lists_iff_asksForOwn`: a unique field is listed exactly if its flags asked for it when the indexes were made.
* `listsUniqueFields_iff`: when all unique fields of a schema are listed.
-/
namespace EntitySchema

namespace Record

/-- Only what is given is read as true. -/
theorem truthy_of_flagOrText {v : Value} (h : (Shape.nullable .flagOrText).check v = .ok (.bool true)) : v.truthy = true := by
  rcases nullable_eq_ok.1 h with ⟨-, hnull⟩ | ⟨-, h⟩
  · cases hnull
  · rcases flagOrText_eq_ok.1 h with ⟨s, -, hs⟩ | ⟨-, b, hb, htrue⟩
    · cases hs
    · cases htrue
      rw [← Bool.not_eq_false]
      intro hv
      cases readFlag_of_not_truthy hv hb

end Record

namespace Schema

/-- A field of an entity of a schema that is to have a unique index of its own: the storage keeps it, it is no long text and it is
unique, and neither is its name that of another index nor does a field of the entity carry it as a flag. -/
structure IsUnique (c : Config) (s : Snapshot) (schema : Schema) (entity field : String) : Prop where
  plain : schema.isJunction entity = false
  stored : schema.stores entity field = true
  short : ((schema.fields entity).value field).members.value "dbType" ≠ .str "text"
  unique : ((schema.fields entity).value field).members.value "unique" = .bool true
  undeclared : ¬DeclaresIndex s entity field
  notFullText : field ≠ c.fullTextIndexName
  unshared : ∀ other : String, ((schema.fields entity).value other).members.value "unique" ≠ .str field ∧
    ((schema.fields entity).value other).members.value "index" ≠ .str field

/-- Whether a field is among the columns of the index of its name. -/
def Lists (schema : Schema) (entity field : String) : Prop :=
  .str field ∈ (((schema.indexes entity).value field).members.value "columns").elements

/-- Every unique field is among the columns of the index of its name. -/
def ListsUniqueFields (c : Config) (s : Snapshot) (schema : Schema) : Prop :=
  ∀ entity field, IsUnique c s schema entity field → schema.Lists entity field

section
variable {c : Compiler} {s : Snapshot} {schema : Schema} {tree compiled : Members Key Value} {parts : List (Members Key Value)}
  {entity : Key}

/-! ## What the schema was made from -/

/-- A field of an entity that is no junction is the canonical form of the normal form of a compiled field. -/
theorem exists_raw_field (h : Assembled c s schema tree parts) (hc : c.registry = {})
    (hcompiled : (compileEntities c s.metadata [] s.entities).result = .ok compiled) (hplain : schema.isJunction entity = false)
    {field : Key} {w : Value} (hw : Members.get? (schema.fields entity) field = some w) :
    ∃ params normal, Members.get? (fieldsIn compiled entity) field = some (.object params) ∧
      Field.normalize c.config params = .ok (some normal) ∧ Record.compiledField.check (.object normal) = .ok w := by
  have hrel := Record.get?_checkMembers
    (checkMembers_fields h.accepted (withFields_withJunctions h.withFields h.ofFragments) entity) field
  rw [fieldsIn, entityIn, Members.value_congr (h.get?_withJunctions (h.distinct hc) hplain), hw] at hrel
  obtain ⟨_, hsame, hnormal⟩ := Run.result_bind_eq_ok.1 h.entities
  cases hcompiled.symm.trans hsame
  obtain ⟨name, hfields⟩ := fieldsIn_normalize hnormal entity
  have hlawful := (treeWith_of_compileEntities hc hcompiled).fieldsIn entity
  have hget := Field.get?_normalizeAll hlawful.distinct hfields field
  rw [fieldsIn, entityIn] at hget
  rw [hget] at hrel
  obtain ⟨form, hform, hcheck⟩ := Members.rel_some_right.1 hrel
  obtain ⟨v, hraw, hform⟩ := Option.bind_eq_some_iff.1 hform
  obtain ⟨params, rfl, -, -⟩ := hlawful.each field v hraw
  obtain ⟨normal, hnormal, rfl⟩ := Field.normalForm?_eq_some.1 hform
  exact ⟨params, normal, hraw, hnormal, hcheck⟩

/-- An entity that has a field was compiled from a definition, and of its indexes those that the definition does not declare, the
full-text one apart, are those that its fields ask for. -/
theorem exists_made_indexes (hc : c.registry = {})
    (hoptions : c.config.permittedEntityOptions = ({} : Config).permittedEntityOptions) (hd : Members.Distinct s.entities)
    (hcompiled : (compileEntities c s.metadata [] s.entities).result = .ok compiled) {entity : String} {field : Key} {v : Value}
    (hfield : Members.get? (fieldsIn compiled entity) field = some v) :
    ∃ declared one d derived, (Key.text entity, declared) ∈ s.entities ∧ load entity declared = .ok d ∧
      (compileEntity c s.metadata entity declared).result = .ok one ∧ fieldsIn one.tree entity = fieldsIn compiled entity ∧
      Members.Distinct (fieldsIn compiled entity) ∧ Index.ofFields (fieldsIn compiled entity) = .ok derived ∧
      ∀ name, Members.contains (d.body.value "indexes").members name = false → name ≠ .text c.config.fullTextIndexName →
        Option.Rel (fun d raw => Index.IsOver d.columns raw) (Members.get? derived name)
          (Members.get? ((entityIn compiled entity).value "indexes").members name) := by
  obtain ⟨own, hown⟩ := exists_of_get?_members hfield
  obtain ⟨⟨key, declared⟩, hentry, hkey, one, hone, hentryOf⟩ := exists_entry_of_get? hc hd hcompiled hown
  obtain rfl : key = .text entity := Key.beq_text.1 hkey
  obtain ⟨d, hload, hcompile⟩ := compileEntity_eq_ok hone
  obtain ⟨own, fields, derived, htree, hfields, hdistinct, hderived, hmade⟩ :=
    Entity.rel_indexes_of_compile hc hoptions hcompile
  have hget : ∀ member ≠ Key.text "skipRebuild",
      Members.get? (entityIn compiled (.text entity)) member = Members.get? own member := fun member hmember => by
    rw [hentryOf.get?_entityIn hown hmember, htree, entityIn_singleton]
  have hsame : fieldsIn compiled (.text entity) = fields := by
    rw [fieldsIn, Members.value_congr (hget _ (by simp)), Members.value_of_get? hfields, Value.members_object]
  rw [Members.value_congr (hget (.text "indexes") (by simp))]
  exact ⟨declared, one, d, derived, hentry, hload, hone, (hentryOf.fieldsIn_eq hown).symm, hsame ▸ hdistinct, hsame ▸ hderived, hmade⟩

/-- A flag that was compiled as a text is that text in the schema, and a flag that is true there was given. -/
theorem flags_of_raw {config : Config} {params normal : Members Key Value} {w : Value}
    (hnormal : Field.normalize config params = .ok (some normal)) (hcheck : Record.compiledField.check (.object normal) = .ok w)
    {flag : String} (hflag : flag = "unique" ∨ flag = "index") :
    (∀ text, params.value flag = .str text → w.members.value flag = .str text) ∧
      (w.members.value flag = .bool true → (params.value flag).truthy = true) := by
  have hattribute : ((⟨flag, flag, false⟩, .nullable .flagOrText) : Record.Attribute × Record.Shape) ∈
      Record.compiledField.attributes := by
    rcases hflag with rfl | rfl <;> simp [Record.compiledField, Record.Shape.attributes, Record.plain, Record.maybe]
  have huntouched : Key.text flag ∉ Field.normalizedKeys := by
    rcases hflag with rfl | rfl <;> simp [Field.normalizedKeys]
  have hsame : normal.value flag = params.value flag :=
    Members.value_congr (Field.get?_normalize_of_untouched hnormal huntouched)
  rw [← hsame]
  constructor
  · intro text htext
    rw [Members.value_eq_str] at htext ⊢
    rw [Record.get?_record_eq_str Record.isRecord_compiledField hcheck hattribute
      (Record.takesText_nullable Record.takesText_flagOrText), Record.Attribute.given?_of_name_eq_key rfl]
    exact htext
  · intro htrue
    have hrel := Record.get?_record Record.isRecord_compiledField hcheck hattribute
    rw [Record.Attribute.given?_of_name_eq_key rfl] at hrel
    simp only at hrel
    rw [Members.get?_of_value htrue Value.noConfusion] at hrel
    obtain ⟨given, hgiven, hread⟩ := Members.rel_some_right.1 hrel
    rw [Members.value_of_get? hgiven]
    exact Record.truthy_of_flagOrText hread

/-! ## Columns -/

/-- A field is listed exactly if it is a column of the index of its name when the indexes are made. -/
theorem lists_iff_mem_columnsOf (h : Assembled c s schema tree parts)
    (hcompiled : (compileEntities c s.metadata [] s.entities).result = .ok compiled) {field : String}
    {entity : String} {derived : Members Key Index.Derived}
    (hmade : Option.Rel (fun d raw => Index.IsOver d.columns raw) (Members.get? derived field)
      (Members.get? ((entityIn compiled (.text entity)).value "indexes").members field)) :
    schema.Lists entity field ↔ .text field ∈ Index.columnsOf derived field := by
  have hrel := rel_indexes h hcompiled entity field
  unfold Lists Index.columnsOf Members.value at *
  generalize Members.get? derived (.text field) = asked at hmade ⊢
  generalize Members.get? ((Members.get? (entityIn compiled (.text entity)) (.text "indexes")).getD .null).members
    (.text field) = raw at hmade hrel
  generalize Members.get? (schema.indexes (.text entity)) (.text field) = index at hrel ⊢
  cases hmade with
  | none =>
    cases hrel
    exact ⟨fun hmem => absurd hmem List.not_mem_nil, fun hmem => absurd hmem List.not_mem_nil⟩
  | some hover =>
    cases hrel with
    | some hcheck =>
      have hcolumns := (columns_of_isOver hover hcheck).1
      unfold Members.value at hcolumns
      simp only [Option.getD_some, Option.map_some, hcolumns, List.mem_map, Record.ofKey_eq_str, exists_eq_right]

/-- A unique field is listed exactly if its flags asked for an index of its own when its entity was compiled. -/
theorem lists_iff_asksForOwn (hc : c.registry = {})
    (hoptions : c.config.permittedEntityOptions = ({} : Config).permittedEntityOptions) (hd : Members.Distinct s.entities)
    (h : (compile c s).result = .ok schema) {entity field : String} (hunique : IsUnique c.config s schema entity field) :
    ∃ declared one params, (Key.text entity, declared) ∈ s.entities ∧
      (compileEntity c s.metadata entity declared).result = .ok one ∧
        Members.get? (fieldsIn one.tree entity) field = some (.object params) ∧
          (schema.Lists entity field ↔ Index.AsksForOwn params) := by
  obtain ⟨tree, parts, hassembled⟩ := exists_assembled h
  obtain ⟨compiled, hcompiled, -⟩ := Run.result_bind_eq_ok.1 hassembled.entities
  have htrue := hunique.unique
  have hw : Members.get? (schema.fields entity) (.text field) = some ((schema.fields entity).value field) :=
    Members.get?_of_value rfl fun hnull => by
      rw [hnull] at htrue
      cases htrue
  obtain ⟨params, normal, hparams, hnormal, hcheck⟩ := exists_raw_field hassembled hc hcompiled hunique.plain hw
  obtain ⟨declared, one, d, derived, hentry, hload, hone, hsame, hdistinct, hderived, hmade⟩ :=
    exists_made_indexes hc hoptions hd hcompiled hparams
  have hundeclared : Members.contains (d.body.value "indexes").members (.text field) = false := by
    rw [← Bool.not_eq_true]
    exact fun hdeclared => hunique.undeclared ⟨_, hentry, BEq.rfl, d, hload, hdeclared⟩
  have hrel := hmade (.text field) hundeclared (by simpa using hunique.notFullText)
  refine ⟨declared, one, params, hentry, hone, by rw [hsame, hparams], ?_⟩
  have hmem : (Key.text field, Value.object params) ∈ fieldsIn compiled (.text entity) := by
    obtain ⟨key, hsame, hmem⟩ := Members.exists_of_get? hparams
    rwa [Key.beq_text.1 hsame] at hmem
  -- a field that named itself would do so in the schema
  have hshared : Index.request? params ≠ some (.shared field) := by
    intro hnames
    obtain ⟨hunique', hindex⟩ := hunique.unshared field
    rcases Index.value_of_request?_shared hnames with hraw | hraw
    · exact hunique' ((flags_of_raw hnormal hcheck (.inl rfl)).1 field hraw)
    · exact hindex ((flags_of_raw hnormal hcheck (.inr rfl)).1 field hraw)
  rw [lists_iff_mem_columnsOf hassembled hcompiled hrel, Index.columnsOf_ofFields hderived,
    Index.mem_gathered_iff hdistinct hmem hshared]
  exact Index.request?_eq_own_iff ((flags_of_raw hnormal hcheck (.inl rfl)).2 htrue)

/-- All unique fields of a schema are listed exactly if the flags of each asked for an index of its own when its entity was
compiled. -/
theorem listsUniqueFields_iff (hc : c.registry = {})
    (hoptions : c.config.permittedEntityOptions = ({} : Config).permittedEntityOptions) (hd : Members.Distinct s.entities)
    (h : (compile c s).result = .ok schema) :
    ListsUniqueFields c.config s schema ↔ ∀ entity declared, (Key.text entity, declared) ∈ s.entities →
      ∀ one field params, (compileEntity c s.metadata entity declared).result = .ok one →
        Members.get? (fieldsIn one.tree entity) (.text field) = some (.object params) →
          IsUnique c.config s schema entity field → Index.AsksForOwn params := by
  constructor
  · intro hlists entity declared hentry one field params hone hparams hunique
    obtain ⟨declared', one', params', hentry', hone', hparams', hiff⟩ := lists_iff_asksForOwn hc hoptions hd h hunique
    cases Members.eq_of_mem_of_beq hd hentry hentry' BEq.rfl
    cases hone.symm.trans hone'
    cases hparams.symm.trans hparams'
    exact hiff.1 (hlists entity field hunique)
  · intro hasks entity field hunique
    obtain ⟨declared, one, params, hentry, hone, hparams, hiff⟩ := lists_iff_asksForOwn hc hoptions hd h hunique
    exact hiff.2 (hasks entity declared hentry one field params hone hparams hunique)

end

/-! ## A number for a flag -/

/-- A code whose type makes it unique by a number. -/
def numberedFlag : Snapshot :=
  .ofWritten [("Account", .object [("fields", .object [("code", .object [("type", .str FieldKind.varchar.word)])])])]
    { fieldTypes := [(FieldKind.varchar.word, ⟨[("fieldDefs", .object [("unique", .int 1)])]⟩)] }

theorem listsUniqueFields_iff_numberedFlag :
    Members.Distinct numberedFlag.entities ∧ ∃ schema, (compile {} numberedFlag).result = .ok schema ∧
      (ListsUniqueFields {} numberedFlag schema ↔ ∀ entity declared, (Key.text entity, declared) ∈ numberedFlag.entities →
        ∀ one field params, (compileEntity {} numberedFlag.metadata entity declared).result = .ok one →
          Members.get? (fieldsIn one.tree entity) (.text field) = some (.object params) →
            IsUnique {} numberedFlag schema entity field → Index.AsksForOwn params) := by
  have hgives : gives (compile {} numberedFlag).result (fun _ => true) = true := by decide +kernel
  obtain ⟨schema, hschema, -⟩ := gives_iff.1 hgives
  have hd : Members.Distinct numberedFlag.entities := Members.distinct_singleton _ _
  exact ⟨hd, schema, hschema, listsUniqueFields_iff rfl rfl hd hschema⟩

/-- The code is unique in the schema, and there is no index that lists it. -/
theorem exists_unlisted_unique_field :
    ∃ schema, (compile {} numberedFlag).result = .ok schema ∧ ¬ListsUniqueFields {} numberedFlag schema := by
  have hgives : gives (compile {} numberedFlag).result (fun schema =>
      !schema.isJunction "Account" && schema.stores "Account" "code" && (schema.indexes "Account").isEmpty &&
        !(((schema.fields "Account").value "code").members.value "dbType").isText "text" &&
        Index.Request.ofFlag? (((schema.fields "Account").value "code").members.value "unique") == some .own &&
        (schema.fields "Account").all fun field => !(field.2.members.value "unique").isText "code" &&
          !(field.2.members.value "index").isText "code") = true := by decide +kernel
  obtain ⟨schema, hschema, htest⟩ := gives_iff.1 hgives
  simp only [Bool.and_eq_true, Bool.not_eq_true', List.all_eq_true, beq_iff_eq, Index.Request.ofFlag?_eq_own,
    ← Bool.not_eq_true, Value.isText_iff] at htest
  obtain ⟨⟨⟨⟨⟨hplain, hstored⟩, hnone⟩, hshort⟩, hunique⟩, hunshared⟩ := htest
  refine ⟨schema, hschema, fun hlists => ?_⟩
  have hcode : IsUnique {} numberedFlag schema "Account" "code" := by
    refine ⟨by simpa using hplain, hstored, hshort, hunique, ?_, by decide, fun other => ?_⟩
    · rintro ⟨entry, hentry, -, d, hload, hdeclared⟩
      obtain rfl := List.mem_singleton.1 hentry
      cases hload
      cases hdeclared
    · cases hget : Members.get? (schema.fields "Account") (.text other) with
      | none =>
        have hnull : (schema.fields "Account").value (.text other) = .null := by rw [Members.value, hget]; rfl
        rw [hnull]
        exact ⟨Value.noConfusion, Value.noConfusion⟩
      | some w =>
        obtain ⟨key, -, hmem⟩ := Members.exists_of_get? hget
        rw [Members.value_of_get? hget]
        exact hunshared _ hmem
  have hlisted := hlists "Account" "code" hcode
  rw [Lists, List.isEmpty_iff.1 hnone] at hlisted
  cases hlisted

end Schema

end EntitySchema
