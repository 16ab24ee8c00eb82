import EntitySchema.Proofs.Entity.Mandatory
import EntitySchema.Proofs.Field.NormalForm
import EntitySchema.Proofs.Schema.GivenUp

/-!
# Mandatory fields of a schema

A field with a type is never dropped from a normal form, and its type is a text there. The junctions that are laid over an entity
have columns with such types only, so the type of a field that they meet is a text again. Thus the mandatory fields that an entity
was compiled with are in the schema, each with a type.

* `HasText`: a field among others whose type is a text.
* `IsTextColumn`, `TextColumns`: columns whose types are texts.
* `HasTyped`: a field of a schema with a type.
* `KeepsMandatoryFields`: every entity that was compiled has its mandatory fields.

Results:
* `hasText_normalize`, `HasText.overlay`: normal forms and junctions.
* `keepsMandatoryFields_of_compile`: schemas of definitions whose fields and parts have no dots in their names.
-/
namespace EntitySchema

/-- A field with a type has a normal form, whose type is a text. -/
theorem Field.exists_normalForm_of_typed {c : Config} {params : Members Key Value} {form : Option (Members Key Value)}
    (h : normalize c params = .ok form) (htype : params.value "type" ≠ .null) :
    ∃ normal word, form = some normal ∧ normal.value "type" = .str word := by
  rcases normalize_eq_ok h with ⟨hnull, -⟩ | ⟨-, normal, rfl, htyped⟩
  · exact absurd (Value.isNull_iff.1 hnull) htype
  · obtain ⟨word, hword⟩ := type_of_normalizeTyped htyped
    exact ⟨normal, word, rfl, hword⟩

namespace Schema

/-- A field among others whose type is a text. -/
def HasText (name : Key) (fields : Members Key Value) : Prop :=
  ∃ (params : Members Key Value) (word : String), Members.get? fields name = some (.object params) ∧
    params.value "type" = .str word

/-- The attributes of a column whose type is a text. -/
def IsTextColumn (v : Value) : Prop :=
  ∃ (params : Members Key Value) (word : String), v = .object params ∧ Members.Distinct params ∧ params.value "type" = .str word

/-- Columns whose types are all texts. -/
structure TextColumns (columns : Members Key Value) : Prop where
  distinct : Members.Distinct columns
  typed : ∀ key v, Members.get? columns key = some v → IsTextColumn v

section
variable {c : Config} {name entity : Key} {fields columns compiled tree part : Members Key Value}

/-- The fields of an entity in normal form. -/
theorem hasText_normalize (hd : Members.Distinct (fieldsIn compiled entity)) (h : (normalize c compiled).result = .ok tree)
    {params : Members Key Value} (hparams : Members.get? (fieldsIn compiled entity) name = some (.object params))
    (htype : params.value "type" ≠ .null) : HasText name (fieldsIn tree entity) := by
  obtain ⟨owner, hfields⟩ := fieldsIn_normalize h entity
  obtain ⟨key, -, hmem⟩ := Members.exists_of_get? hparams
  obtain ⟨_, form, hobject, hform⟩ := Field.normalize_of_mem hfields hmem
  cases hobject
  obtain ⟨normal, word, rfl, hword⟩ := Field.exists_normalForm_of_typed hform htype
  refine ⟨normal, word, ?_, hword⟩
  rw [Field.get?_normalizeAll hd hfields, hparams, Option.bind_some]
  exact Field.normalForm?_eq_some.2 ⟨normal, hform, rfl⟩

/-- Columns over fields leave a field its type, or give it theirs. -/
theorem HasText.overlay (h : HasText name fields) (hcolumns : TextColumns columns) : HasText name (fields.overlay columns) := by
  obtain ⟨params, word, hparams, hword⟩ := h
  have hget := Members.get?_overlay fields hcolumns.distinct name
  cases hupper : Members.get? columns name with
  | none =>
    rw [hupper, hparams] at hget
    exact ⟨params, word, hget, hword⟩
  | some v =>
    obtain ⟨upper, word', rfl, hd, hword'⟩ := hcolumns.typed name v hupper
    simp only [hupper, Members.mergedAt_of_get? hparams, Value.overlay_object] at hget
    refine ⟨_, word', hget, Members.value_eq_str.2 ?_⟩
    exact Members.get?_overlay_of_not_object params hd (Members.value_eq_str.1 hword') fun _ => Value.noConfusion

/-- A declared column has no mark, so its normal form has a type. -/
theorem isTextColumn_of_declaration {v w : Value} (h : Junction.declaration c v) (hw : Field.normalForm? c v = some w) :
    IsTextColumn w := by
  obtain ⟨params, rfl, hplain, hmark⟩ := Junction.isColumn_of_declaration h hw
  obtain ⟨_, hnormal, hsame⟩ := Field.normalForm?_eq_some.1 hw
  cases hsame
  obtain ⟨word, hword⟩ := Field.type_of_normalize hnormal hmark
  exact ⟨params, word, rfl, hplain.distinct, hword⟩

/-- All columns of junctions have texts for their types. -/
theorem textColumns_of_entities {owner : Value} (h : (Junction.entities c owner).result = .ok part) (entity : Key) :
    TextColumns (fieldsIn part entity) := by
  have hfragments := Junction.fragmentWith_of_entities (Q := fun _ => IsTextColumn)
    (fun _ _ _ _ _ _ _ hdeclared hw => isTextColumn_of_declaration hdeclared hw) h
  cases hget : Members.get? part entity with
  | none =>
    rw [fieldsIn_of_get?_none hget]
    exact ⟨Members.distinct_nil, fun _ _ hv => nomatch hv⟩
  | some v =>
    obtain ⟨key, -, hmem⟩ := Members.exists_of_get? hget
    obtain ⟨columns, rfl, hd, hcolumns⟩ := (hfragments _ hmem).2
    rw [fieldsIn_of_fragment hget]
    refine ⟨hd, fun key v hv => ?_⟩
    obtain ⟨other, -, hcolumn⟩ := Members.exists_of_get? hv
    exact hcolumns _ hcolumn

end

/-! ## Schemas -/

/-- A field of an entity of a schema, with a type. -/
def HasTyped (schema : Schema) (entity field : Key) : Prop :=
  ∃ w word, Members.get? (schema.fields entity) field = some w ∧ w.members.value "type" = .str word

/-- Every entity that was compiled from its definition has its mandatory fields, each with a type, save those whose own
declarations make them ones for many links. -/
def KeepsMandatoryFields (c : Compiler) (s : Snapshot) (schema : Schema) : Prop :=
  ∀ entry ∈ s.entities, ∀ d one, load entry.1 entry.2 = .ok d → (compileEntity c s.metadata entry.1 entry.2).result = .ok one →
    ∀ field ∈ Entity.mandatory, schema.HasTyped entry.1 field ∨ Entity.LinksMany c.config s.metadata entry.1 d field

/-- No field of an entity and no part of a composite type has a dot in its name, and no object has a key twice. -/
def PlainFields (s : Snapshot) : Prop :=
  ∀ entry ∈ s.entities, ∀ d, load entry.1 entry.2 = .ok d →
    Entity.PlainFields s.metadata d ∧ Entity.DistinctParams s.metadata d ∧ Members.Distinct d.fields

section
variable {c : Compiler} {s : Snapshot} {schema : Schema} {tree : Members Key Value} {parts : List (Members Key Value)}
  {entity : Key}

/-- A field that the tree has with a type is in the schema, with the type that it has once all junctions are laid over. -/
theorem Assembled.hasTyped (h : Assembled c s schema tree parts) {field : Key} (htree : HasText field (fieldsIn tree entity)) :
    schema.HasTyped entity field := by
  have htext : HasText field (fieldsIn (parts.foldl Members.overlay tree) entity) := by
    rw [fieldsIn_withJunctions h.withFields h.ofFragments]
    refine List.foldlRecOn (motive := HasText field) parts _ htree fun fields hfields part hpart => ?_
    obtain ⟨owner, -, hjunctions⟩ := Members.forall₂_exists_right h.junctions hpart
    exact hfields.overlay (textColumns_of_entities hjunctions entity)
  obtain ⟨params, word, hparams, hword⟩ := htext
  have hrel := Record.get?_checkMembers
    (checkMembers_fields h.accepted (withFields_withJunctions h.withFields h.ofFragments) entity) field
  rw [hparams] at hrel
  obtain ⟨found, hfield, hcheck⟩ := Members.rel_some_left.1 hrel
  refine ⟨found, word, hfield, Members.value_eq_str.2 ?_⟩
  refine (Record.get?_record_eq_str Record.isRecord_compiledField hcheck (a := ⟨"type", "type", false⟩)
    (by simp [Record.compiledField, Record.Shape.attributes, Record.maybe])
    (Record.takesText_nullable Record.takesText_text) word).2 ?_
  rw [Record.Attribute.given?_of_name_eq_key rfl]
  exact Members.value_eq_str.1 hword

/-- If no name of a field or of a part has a dot, every entity that was compiled from its definition has its mandatory fields in the
schema, each with a type, save those whose own declarations make them ones for many links. -/
theorem keepsMandatoryFields_of_compile (hc : c.registry = {}) (hd : Members.Distinct s.entities) (hplain : PlainFields s)
    (h : (compile c s).result = .ok schema) : KeepsMandatoryFields c s schema := by
  intro entry hentry d one hload hone field hfield
  rw [or_iff_not_imp_right]
  intro hother
  obtain ⟨tree, parts, hassembled⟩ := exists_assembled h
  obtain ⟨compiled, hcompiled, hnormal⟩ := Run.result_bind_eq_ok.1 hassembled.entities
  obtain ⟨d', hload', hcompile⟩ := compileEntity_eq_ok hone
  cases hload.symm.trans hload'
  obtain ⟨hnames, hparams, hfields⟩ := hplain entry hentry d hload
  obtain ⟨own, fields, params, htree, hown, hget, htype⟩ :=
    Entity.hasTyped_of_compile hc hnames hparams hfields hfield hother hcompile
  -- the entity stands among all others with the fields that it was compiled with
  obtain ⟨v, hv, hentryOf⟩ := exists_isEntryOf hc hd hcompiled hentry hone
  have hsame : fieldsIn compiled entry.1 = fields := by
    rw [hentryOf.fieldsIn_eq hv, fieldsIn, htree, entityIn_singleton, Members.value_of_get? hown, Value.members_object]
  have hdistinct := ((treeWith_of_compileEntities hc hcompiled).fieldsIn entry.1).distinct
  exact hassembled.hasTyped (hasText_normalize hdistinct hnormal (by rw [hsame, hget]) htype)

end

/-- An account whose identifier is declared as something else, whose name is left out and which has tags for its mark of deleted
rows; and a contact of that name, of which the mark is declared again. -/
def redeclared : Snapshot :=
  { entities := [
      ("Account", .checked ⟨[("fields", .object [
        ("id", .object [("type", .str FieldKind.int.word)]),
        ("name", .object [("type", .str "personName"), ("skipOrmDefs", .bool true)]),
        ("deleted", .object [("type", .str "linkMultiple")])])]⟩),
      ("Sales.Contact", .checked ⟨[("fields", .object [
        ("tags", .object [("type", .str "linkMultiple")]),
        ("deleted", .object [("type", .str "unheard")])])]⟩)] }

theorem keepsMandatoryFields_of_compile_redeclared :
    Members.Distinct redeclared.entities ∧ PlainFields redeclared ∧
      ∃ schema, (compile {} redeclared).result = .ok schema ∧ KeepsMandatoryFields {} redeclared schema := by
  have hd : Members.Distinct redeclared.entities := by decide
  have hplain : PlainFields redeclared := by
    intro entry hentry d hload
    simp only [redeclared, List.mem_cons, List.not_mem_nil, or_false] at hentry
    rcases hentry with rfl | rfl
    all_goals
      cases hload
      exact ⟨⟨by decide, fun _ => nofun⟩, ⟨by decide, fun _ => nofun⟩, by decide⟩
  have hgives : gives (compile {} redeclared).result (fun _ => true) = true := by decide +kernel
  obtain ⟨schema, hschema, -⟩ := gives_iff.1 hgives
  exact ⟨hd, hplain, schema, hschema, keepsMandatoryFields_of_compile rfl hd hplain hschema⟩

end Schema

end EntitySchema
