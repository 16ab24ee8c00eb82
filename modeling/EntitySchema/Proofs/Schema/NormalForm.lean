import EntitySchema.Proofs.Field.NormalForm
import EntitySchema.Proofs.Schema.Tree

/-!
# The tree in normal form

All fields are brought into normal form before the junctions are laid over the tree. The columns of a junction are in normal
form as well, and so is what becomes of a field over which one of them is laid. So the tree that is checked at last is its own
normal form, whatever the processors and the metadata are, unless fields of unknown types get a type that asks for attributes.

* `NormalEntity`: an entity all of whose fields are in normal form.

Results:
* `normalEntity_of_normalize`, `NormalEntity.overlay`: the steps that lead to the tree.
* `normalize_compileTree`: the tree is its own normal form.
-/
namespace EntitySchema

/-! ## Columns of junctions -/

/-- The column of a junction: a typed field in normal form, of plain attributes. -/
structure Junction.NormalColumn (c : Config) (params : Members Key Value) : Prop where
  distinct : Members.Distinct params
  flat : Field.Flat params
  typed : params.value "type" ≠ .null
  normal : Field.IsNormal c params

theorem Junction.flat_of_declaration {c : Config} {v : Value} {form : Option (Members Key Value)} (h : declaration c v)
    (hform : Field.normalize c v.members = .ok form) : Field.Flat v.members := by
  have htype := Field.normalize_isOk_iff.1 ⟨form, hform⟩
  rcases h with rfl | rfl | ⟨type, rfl⟩
  · exact ((Field.flat_nil.set "type" fun _ => Value.noConfusion).set "autoincrement" fun _ => Value.noConfusion).set "dbType"
      fun _ => Value.noConfusion
  · exact (Field.flat_nil.set "type" fun _ => Value.noConfusion).set "default" fun _ => Value.noConfusion
  · refine Field.flat_nil.set "type" fun m hm => ?_
    subst hm
    cases htype

theorem Junction.normalColumn_of_declaration {c : Config}
    (hdefault : c.defaultFieldType ∉ Field.coercedKinds.map FieldKind.word) {v w : Value} (h : declaration c v)
    (hw : Field.normalForm? c v = some w) : ∃ params, w = .object params ∧ NormalColumn c params := by
  obtain ⟨params, rfl, hplain, hmark⟩ := isColumn_of_declaration h hw
  obtain ⟨_, hp, hsame⟩ := Field.normalForm?_eq_some.1 hw
  cases hsame
  obtain ⟨word, hword⟩ := Field.type_of_normalize hp hmark
  exact ⟨params, rfl, hplain.distinct, (flat_of_declaration h hp).normalize hp, by simp [hword],
    Field.isNormal_of_normalize hdefault hp⟩

namespace Schema

variable {c : Config}

/-- An object with fields, all in normal form. -/
def NormalEntity (c : Config) (v : Value) : Prop :=
  ∃ own fields : Members Key Value, v = .object own ∧ Members.get? own "fields" = some (.object fields) ∧
    ∀ field ∈ fields, Field.NormalField c field.2

/-! ## The steps -/

theorem normalEntity_of_isNormalOf (hdefault : c.defaultFieldType ∉ Field.coercedKinds.map FieldKind.word) {v w : Value}
    (h : IsNormalOf c v w) : NormalEntity c w := by
  obtain ⟨name, m, fields, -, hfields, rfl⟩ := h
  exact ⟨_, fields, rfl, Members.get?_set_self _ _ _, fun field hfield => Field.normalField_of_mem hdefault hfields hfield⟩

/-- Taking normal forms gives a tree of entities in normal form. -/
theorem normalEntity_of_normalize (hdefault : c.defaultFieldType ∉ Field.coercedKinds.map FieldKind.word)
    {compiled tree : Members Key Value} (h : (normalize c compiled).result = .ok tree) :
    ∀ entry ∈ tree, NormalEntity c entry.2 := by
  intro entry hentry
  obtain ⟨before, -, -, hnormal⟩ := Members.forall₂_exists_right (normalize_eq_ok h) hentry
  exact normalEntity_of_isNormalOf hdefault hnormal

/-- Entities in normal form stay as they are, and in their order. -/
theorem normalize_of_normalEntity {tree : Members Key Value} (h : ∀ entry ∈ tree, NormalEntity c entry.2) :
    (normalize c tree).result = .ok tree := by
  induction tree with
  | nil => rfl
  | cons entry rest ih =>
    obtain ⟨entity, v⟩ := entry
    obtain ⟨⟨own, fields, hv, hget, hfields⟩, hrest⟩ := List.forall_mem_cons.1 h
    simp only at hv
    subst hv
    have hown : (normalizeEntity c entity (.object own)).result = .ok own := by
      unfold normalizeEntity
      refine Run.result_bind_eq_ok.2 ⟨own, rfl, ?_⟩
      refine Run.result_bind_eq_ok.2 ⟨fields, Run.lift_eq_ok.2 (Members.givenMembers_of_get? hget), ?_⟩
      refine Run.result_bind_eq_ok.2 ⟨fields, Field.normalizeAll_of_isNormal entity hfields, ?_⟩
      rw [Members.set_of_get? hget]
      rfl
    rw [normalize]
    refine Run.result_bind_eq_ok.2 ⟨own, hown, ?_⟩
    exact Run.result_bind_eq_ok.2 ⟨rest, ih hrest, rfl⟩

/-- Columns over fields in normal form leave fields in normal form, of whatever types they are. -/
theorem normalField_of_overlay {fields columns : Members Key Value} (hfields : ∀ field ∈ fields, Field.NormalField c field.2)
    (hcolumns : ∀ column ∈ columns, ∃ params, column.2 = .object params ∧ Junction.NormalColumn c params) :
    ∀ field ∈ fields.overlay columns, Field.NormalField c field.2 := by
  refine Members.forall_merge_of (P := fun _ v => Field.NormalField c v)
    (Q := fun _ v => ∃ params, v = .object params ∧ Junction.NormalColumn c params) (fun _ h => h) ?_ ?_ hfields hcolumns
  · intro _ v hv
    obtain ⟨params, rfl, hcolumn⟩ := hv
    exact ⟨params, rfl, hcolumn.normal⟩
  · intro _ v w hv hw
    obtain ⟨lower, rfl, -⟩ := hv
    obtain ⟨upper, rfl, hcolumn⟩ := hw
    rw [Value.overlay_object]
    exact ⟨_, rfl, hcolumn.normal.overlay hcolumn.distinct hcolumn.flat hcolumn.typed⟩

/-- Junctions laid over entities in normal form leave entities in normal form, and so do those that are new. -/
theorem NormalEntity.overlay {tree part : Members Key Value} (htree : ∀ entry ∈ tree, NormalEntity c entry.2)
    (hpart : ∀ entry ∈ part,
      Junction.FragmentWith (fun _ v => ∃ params, v = .object params ∧ Junction.NormalColumn c params) entry.2) :
    ∀ entry ∈ tree.overlay part, NormalEntity c entry.2 := by
  refine Members.forall_merge_of (P := fun _ v => NormalEntity c v)
    (Q := fun _ v => Junction.FragmentWith (fun _ v => ∃ params, v = .object params ∧ Junction.NormalColumn c params) v)
    (fun _ h => h) ?_ ?_ htree hpart
  · intro _ v hv
    obtain ⟨columns, rfl, -, hcolumns⟩ := hv
    refine ⟨_, columns, rfl, by simp [Members.get?_cons], fun field hfield => ?_⟩
    obtain ⟨params, hparams, hcolumn⟩ := hcolumns field hfield
    exact ⟨params, hparams, hcolumn.normal⟩
  · intro _ v w hv hw
    obtain ⟨own, fields, rfl, hget, hfields⟩ := hv
    obtain ⟨columns, rfl, -, hcolumns⟩ := hw
    rw [Value.overlay_object]
    exact ⟨_, _, rfl, overlay_fragment hget, normalField_of_overlay hfields hcolumns⟩

/-! ## The tree -/

/-- The tree that is checked at last is its own normal form, keys in their order; every field in it is in normal form. -/
theorem normalize_compileTree {c : Compiler} {s : Snapshot} {tree : Members Key Value}
    (hdefault : c.config.defaultFieldType ∉ Field.coercedKinds.map FieldKind.word) (h : (compileTree c s).result = .ok tree) :
    (normalize c.config tree).result = .ok tree ∧ ∀ entry ∈ tree, NormalEntity c.config entry.2 := by
  obtain ⟨normal, parts, hentities, hparts, rfl⟩ := compileTree_eq_ok h
  obtain ⟨compiled, -, hnormal⟩ := Run.result_bind_eq_ok.1 hentities
  have htree : ∀ entry ∈ parts.foldl Members.overlay normal, NormalEntity c.config entry.2 := by
    refine List.foldlRecOn (motive := fun tree => ∀ entry ∈ tree, NormalEntity c.config entry.2) parts Members.overlay
      (normalEntity_of_normalize hdefault hnormal) fun tree htree part hpart => ?_
    refine NormalEntity.overlay htree fun entry hentry => ?_
    obtain ⟨entity, -, hjunctions⟩ := Members.forall₂_exists_right hparts hpart
    refine (Junction.fragmentWith_of_entities ?_ hjunctions entry hentry).2
    exact fun _ _ _ _ _ _ _ hdecl hw => Junction.normalColumn_of_declaration hdefault hdecl hw
  exact ⟨normalize_of_normalEntity htree, htree⟩

/-- A compiler with a processor of its own, and another type for fields of unknown types. -/
def textByDefault : Compiler :=
  { registry := .ofCustom [("money", .fixed {})] true
    config := { defaultFieldType := "text" } }

/-- A link to tags through an entity that is declared itself, with fields of other types than those of the link. -/
def declaredLabel : Snapshot :=
  .ofWritten [
    ("Label", .object [("fields", .object [
      ("deleted", .object [("type", .str FieldKind.foreignType.word)]),
      ("rank", .object [("type", .str FieldKind.bool.word)]),
      ("price", .object [("type", .str "money")])])]),
    ("Account", .object [("links", .object [("tags", .object [("type", .str LinkKind.manyMany.word), ("entity", .str "Tag"),
      ("relationName", .str "label"), ("additionalColumns", .object [
        ("rank", .object [("type", .str FieldKind.foreignId.word)]), ("note", .object [("type", .str "unheard")])])])])])] {}

theorem normalize_compileTree_declaredLabel :
    textByDefault.config.defaultFieldType ∉ Field.coercedKinds.map FieldKind.word ∧
      ∃ tree, (compileTree textByDefault declaredLabel).result = .ok tree ∧
        (normalize textByDefault.config tree).result = .ok tree := by
  have hdefault : textByDefault.config.defaultFieldType ∉ Field.coercedKinds.map FieldKind.word := by decide
  have hgives : gives (compileTree textByDefault declaredLabel).result (fun _ => true) = true := by decide +kernel
  obtain ⟨tree, htree, -⟩ := gives_iff.1 hgives
  exact ⟨hdefault, tree, htree, (normalize_compileTree hdefault htree).1⟩

end Schema

end EntitySchema
