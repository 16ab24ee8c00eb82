import EntitySchema.Proofs.Link.Accepted
import EntitySchema.Proofs.Schema.Isolation

/-!
# The last check

Every entity is checked before it joins the tree, and the tree is checked once more when it is complete. In between the fields
are brought into normal form and junctions are laid over, also over declared entities of the same name, and nothing has checked
the types of their columns. Still the last check never fails, so a configuration error is always one that a link raises.

Results:
* `accepts_of_compileEntity`: what is known of an entity that joins the tree.
* `accepts_overlay_fragment`: a junction over an accepted entity gives an accepted one.
* `accepts_compileTree`: the tree that is checked at last is accepted.
* `validates_compile`: the last check never fails.
-/
namespace EntitySchema.Schema

open Record (compiledEntity compiledField compiledRelation compiledSchema isRecord_compiledEntity namesApart_compiledEntity)

/-! ## Entities -/

section
variable {c : Compiler} {m : Metadata} {entity : Key} {declared : Declared} {one : Compiled} {own : Members Key Value}

theorem accepts_of_checkEntity {c : Config} {compiled : Value} {u : Unit}
    (h : (checkEntity c entity compiled).result = .ok u) :
    ∃ w, IsNormalOf c compiled w ∧ compiledEntity.Accepts w := by
  unfold checkEntity at h
  obtain ⟨members, hmembers, h⟩ := Run.result_bind_eq_ok.1 h
  split at h
  · rename_i w hw
    exact ⟨.object members, normalizeEntity_eq_ok hmembers, Record.accept_isOk_iff.1 ⟨w, hw⟩⟩
  · cases h

/-- An entity that joins the tree is accepted with its fields in normal form. -/
theorem accepts_of_compileEntity (hc : c.registry = {}) (h : (compileEntity c m entity declared).result = .ok one)
    (hown : one.tree = [(entity, .object own)]) : ∃ w, IsNormalOf c.config (.object own) w ∧ compiledEntity.Accepts w := by
  obtain ⟨own', fields, hown', -, hfields⟩ := own_of_compileEntity hc h
  rw [hown] at hown'
  cases hown'
  unfold compileEntity at h
  obtain ⟨d, -, h⟩ := Run.result_bind_eq_ok.1 h
  obtain ⟨tree, -, h⟩ := Run.result_bind_eq_ok.1 h
  obtain ⟨_, hcheck, h⟩ := Run.result_bind_eq_ok.1 h
  cases h
  subst hown
  rw [own_of_singleton hfields] at hcheck
  exact accepts_of_checkEntity hcheck

/-- The mark is an attribute of entities, whatever it is laid over. -/
theorem accepts_mark (m : Members Key Value) : ∃ a ∈ compiledEntity.attributes, Key.text "skipRebuild" = .text a.1.key ∧
    a.2.Accepts (Members.mergedAt .override m "skipRebuild" (.bool true)) := by
  refine ⟨Record.maybe "skip_rebuild" "skipRebuild" .flag, by simp [compiledEntity, Record.Shape.attributes], rfl, ?_⟩
  rw [Members.mergedAt_of_not_object _ _ fun _ => Value.noConfusion]
  exact Record.accepts_nullable_iff.2 (.inr (Record.accepts_flag true))

theorem accepts_marked (h : compiledEntity.Accepts (.object own)) :
    compiledEntity.Accepts (.object (own.overlay [("skipRebuild", .bool true)])) := by
  refine Record.accepts_overlay isRecord_compiledEntity namesApart_compiledEntity (Members.distinct_singleton _ _) h ?_
  intro key v hv
  rw [Members.get?_cons] at hv
  split at hv
  · rename_i hkey
    cases hv
    rw [Key.text_beq.1 hkey]
    exact accepts_mark own
  · cases hv

/-- An entity that is accepted without the mark is accepted with the mark put first. -/
theorem accepts_withMark (hd : Members.Distinct own) {fields : Value}
    (h : compiledEntity.Accepts (.object (own.set "fields" fields))) (skips : Bool) :
    compiledEntity.Accepts (.object ((withMark skips own).set "fields" fields)) := by
  rcases get?_withMark_self hd skips with hmark | hmark
  · refine Record.accepts_congr isRecord_compiledEntity (fun key => ?_) h
    rw [Members.get?_set, Members.get?_set]
    by_cases hkey : key = .text "skipRebuild"
    · rw [hkey, hmark]
    · rw [get?_withMark_of_ne hd skips hkey]
  · refine Record.accepts_congr isRecord_compiledEntity (fun key => ?_) (accepts_marked h)
    rw [get?_overlay_singleton, Members.mergedAt_of_not_object _ _ fun _ => Value.noConfusion, Members.get?_set,
      Members.get?_set]
    by_cases hkey : key = .text "skipRebuild"
    · subst hkey
      rw [hmark, if_pos BEq.rfl, if_neg (by simp)]
    · rw [get?_withMark_of_ne hd skips hkey, if_neg fun hmarked => hkey (Key.text_beq.1 hmarked)]

/-- The normal form of an entity with its mark is accepted if that of the entity is. -/
theorem accepts_normal {c : Config} (hd : Members.Distinct own) {skips : Bool} {w : Value}
    (h : ∃ w, IsNormalOf c (.object own) w ∧ compiledEntity.Accepts w)
    (hw : IsNormalOf c (.object (withMark skips own)) w) : compiledEntity.Accepts w := by
  obtain ⟨_, ⟨name, m, fields, hm, hfields, rfl⟩, haccepts⟩ := h
  obtain ⟨name', m', fields', hm', hfields', rfl⟩ := hw
  cases hm
  cases hm'
  rw [Members.value_congr (get?_withMark_of_ne hd skips (by simp)), Field.result_normalizeAll c name' name, hfields] at hfields'
  cases hfields'
  exact accepts_withMark hd haccepts skips

end

/-! ## Junctions -/

/-- The attributes of a column, as a value. -/
def IsAcceptedColumn (v : Value) : Prop :=
  ∃ params, v = .object params ∧ Junction.AcceptedColumn params

theorem IsAcceptedColumn.accepts {v : Value} (h : IsAcceptedColumn v) : compiledField.Accepts v := by
  obtain ⟨params, rfl, hcolumn⟩ := h
  exact hcolumn.accepts

/-- A column under a name. -/
def NamedColumn (key : Key) (v : Value) : Prop :=
  (∃ name, key = .text name) ∧ IsAcceptedColumn v

/-- Columns over accepted fields give accepted ones. -/
theorem accepts_fields {fields columns : Members Key Value}
    (hfields : (Record.Shape.mapOf compiledField).Accepts (.object fields))
    (hcolumns : ∀ column ∈ columns, NamedColumn column.1 column.2) :
    (Record.Shape.mapOf compiledField).Accepts (.object (fields.overlay columns)) := by
  obtain ⟨_, hsame, hfields⟩ := Record.accepts_mapOf_iff.1 hfields
  cases hsame
  refine Record.accepts_mapOf_iff.2 ⟨_, rfl, ?_⟩
  refine Members.forall_merge_named (P := compiledField.Accepts) (Q := IsAcceptedColumn) IsAcceptedColumn.accepts
    (fun {v w} hv hw => ?_) hfields hcolumns
  obtain ⟨params, rfl, hcolumn⟩ := hw
  obtain ⟨field, rfl⟩ := Record.object_of_accepts Record.isRecord_compiledField hv
  rw [Value.overlay_object]
  exact hcolumn.accepts_overlay hv

/-- The columns of a junction are fields of an entity, whatever accepted entity they are laid over. -/
theorem accepts_columns {own columns : Members Key Value} (h : compiledEntity.Accepts (.object own))
    (hcolumns : ∀ column ∈ columns, NamedColumn column.1 column.2) :
    ∃ a ∈ compiledEntity.attributes, Key.text "fields" = .text a.1.key ∧
      a.2.Accepts (Members.mergedAt .override own "fields" (.object columns)) := by
  have hmem : Record.plain "fields" "fields" (.mapOf compiledField) ∈ compiledEntity.attributes := by
    simp [compiledEntity, Record.Shape.attributes]
  refine ⟨_, hmem, rfl, ?_⟩
  cases hget : Members.get? own "fields" with
  | none =>
    rw [Members.mergedAt_of_get?_none hget]
    refine Record.accepts_mapOf_iff.2 ⟨columns, rfl, fun column hcolumn => ?_⟩
    exact (hcolumns column hcolumn).imp_right IsAcceptedColumn.accepts
  | some v =>
    have hv := Record.accepts_of_get? isRecord_compiledEntity h hmem hget
    obtain ⟨fields, rfl, -⟩ := Record.accepts_mapOf_iff.1 hv
    rw [Members.mergedAt_of_get? hget, Value.overlay_object]
    exact accepts_fields hv hcolumns

/-- A junction over an accepted entity gives an accepted one, whatever the entity is. -/
theorem accepts_overlay_fragment {own columns : Members Key Value} (h : compiledEntity.Accepts (.object own))
    (hcolumns : ∀ column ∈ columns, NamedColumn column.1 column.2) :
    compiledEntity.Accepts (.object (own.overlay [("skipRebuild", .bool true), ("fields", .object columns)])) := by
  refine Record.accepts_overlay isRecord_compiledEntity namesApart_compiledEntity (distinct_fragment _) h ?_
  intro key v hv
  -- the mark replaces what the entity has for one, the columns are merged into its fields
  rw [Members.get?_cons] at hv
  split at hv
  · rename_i hkey
    cases hv
    rw [Key.text_beq.1 hkey]
    exact accepts_mark own
  · rw [Members.get?_cons] at hv
    split at hv
    · rename_i hkey
      cases hv
      rw [Key.text_beq.1 hkey]
      exact accepts_columns h hcolumns
    · cases hv

/-- The relations of an accepted entity are accepted. -/
theorem accepts_relation {compiled : Value} (h : compiledEntity.Accepts compiled) {link : Key × Value}
    (hlink : link ∈ Junction.relationsOf compiled) :
    ∃ relation, link.2 = .object relation ∧ compiledRelation.Accepts (.object relation) := by
  obtain ⟨own, rfl⟩ := Record.object_of_accepts isRecord_compiledEntity h
  have hmem : Record.plain "relations" "relations" (.mapOf compiledRelation) ∈ compiledEntity.attributes := by
    simp [compiledEntity, Record.Shape.attributes]
  rw [Junction.relationsOf, Value.members_object] at hlink
  cases hget : Members.get? own "relations" with
  | none =>
    rw [Members.value, hget] at hlink
    cases hlink
  | some v =>
    rw [Members.value_of_get? hget] at hlink
    have hrelations := Record.accepts_nullable_iff.2 (.inr (Record.accepts_of_get? isRecord_compiledEntity h hmem hget))
    obtain ⟨-, haccepts⟩ := Record.accepts_members hrelations hlink
    obtain ⟨relation, hrelation⟩ := Record.object_of_accepts Record.isRecord_compiledRelation haccepts
    exact ⟨relation, hrelation, hrelation ▸ haccepts⟩

/-- The junctions of an accepted entity have names, and their columns have too. -/
theorem fragmentWith_namedColumn {c : Config} {compiled : Value} {part : Members Key Value}
    (hcompiled : compiledEntity.Accepts compiled) (h : (Junction.entities c compiled).result = .ok part) :
    ∀ entry ∈ part, (∃ name, entry.1 = .text name) ∧ Junction.FragmentWith NamedColumn entry.2 := by
  refine Junction.fragmentWith_of_entities (fun link hlink declared hdeclared column hcolumn w hdecl hw => ?_) h
  obtain ⟨relation, hrelation, haccepts⟩ := accepts_relation hcompiled hlink
  rw [hrelation, Value.members_object] at hdeclared
  exact ⟨Junction.named_of_fields haccepts hdeclared column hcolumn, Junction.acceptedColumn_of_declaration hdecl hw⟩

/-- Junctions over accepted entities, or by themselves, are accepted. -/
theorem accepts_overlay_junctions {tree part : Members Key Value} (htree : compiledSchema.Accepts (.object tree))
    (hpart : ∀ entry ∈ part, (∃ name, entry.1 = .text name) ∧ Junction.FragmentWith NamedColumn entry.2) :
    compiledSchema.Accepts (.object (tree.overlay part)) := by
  obtain ⟨_, hsame, htree⟩ := Record.accepts_mapOf_iff.1 htree
  cases hsame
  refine Record.accepts_mapOf_iff.2 ⟨_, rfl, ?_⟩
  refine Members.forall_merge_named (P := compiledEntity.Accepts) (Q := Junction.FragmentWith NamedColumn) ?_ ?_ htree hpart
  · intro v hv
    obtain ⟨columns, rfl, -, hcolumns⟩ := hv
    have hempty : compiledEntity.Accepts (.object []) := ⟨.object [], rfl⟩
    have hnew := accepts_overlay_fragment hempty hcolumns
    rwa [Members.overlay_nil_left (distinct_fragment _)] at hnew
  · intro v w hv hw
    obtain ⟨columns, rfl, -, hcolumns⟩ := hw
    obtain ⟨own, rfl⟩ := Record.object_of_accepts isRecord_compiledEntity hv
    rw [Value.overlay_object]
    exact accepts_overlay_fragment hv hcolumns

/-! ## The tree -/

section
variable {c : Compiler} {s : Snapshot} {tree : Members Key Value}

/-- The tree of all entities in normal form is accepted. -/
theorem accepts_entityTree (hc : c.registry = {}) (hnamed : Members.Named s.entities) (hd : Members.Distinct s.entities)
    (h : (entityTree c s).result = .ok tree) : compiledSchema.Accepts (.object tree) := by
  obtain ⟨compiled, hcompiled, hnormal⟩ := Run.result_bind_eq_ok.1 h
  obtain ⟨added, rfl, hadded⟩ := compileEntities_eq_append hc hd (fun _ _ => rfl) hcompiled
  refine Record.accepts_mapOf_iff.2 ⟨tree, rfl, fun entry hentry => ?_⟩
  obtain ⟨before, hbefore, hname, hnormalOf⟩ := Members.forall₂_exists_right (normalize_eq_ok hnormal) hentry
  obtain ⟨written, hwritten, hsame, one, own, hone, hown, hdown, hmarked⟩ := Members.forall₂_exists_right hadded hbefore
  refine ⟨?_, ?_⟩
  · rw [← hname, hsame]
    exact hnamed written (List.mem_of_mem_filter hwritten)
  · rw [hmarked] at hnormalOf
    exact accepts_normal hdown (accepts_of_compileEntity hc hone hown) hnormalOf

/-- The tree that is checked at last is accepted, with all junctions. -/
theorem accepts_compileTree (hc : c.registry = {}) (hnamed : Members.Named s.entities) (hd : Members.Distinct s.entities)
    (h : (compileTree c s).result = .ok tree) : compiledSchema.Accepts (.object tree) := by
  obtain ⟨normal, parts, hentities, hparts, rfl⟩ := compileTree_eq_ok h
  have hnormal := accepts_entityTree hc hnamed hd hentities
  -- junctions are made of the entities before any is laid over, so it matters only what is known of those
  refine List.foldlRecOn (motive := fun tree => compiledSchema.Accepts (.object tree)) parts Members.overlay hnormal
    fun tree htree part hpart => accepts_overlay_junctions htree ?_
  obtain ⟨compiled, hcompiled, hjunctions⟩ := Members.forall₂_exists_right hparts hpart
  obtain ⟨entry, hentry, rfl⟩ := List.mem_map.1 hcompiled
  obtain ⟨_, hsame, hall⟩ := Record.accepts_mapOf_iff.1 hnormal
  cases hsame
  exact fragmentWith_namedColumn (hall entry hentry).2 hjunctions

theorem ofTree_of_accepts (h : compiledSchema.Accepts (.object tree)) : ∃ schema, ofTree (.object tree) = .ok schema := by
  obtain ⟨w, hw⟩ := Record.accept_isOk_iff.2 h
  exact ⟨⟨w.members⟩, map_eq_ok.2 ⟨w, hw, rfl⟩⟩

end

/-! ## Errors -/

/-- An error that a link of one of the entities raises. It says which parameter the link lacks, or that it declares a kind that
does not exist. -/
def RaisedByLink (s : Snapshot) (e : Error) : Prop :=
  ∃ entry ∈ s.entities, ∃ d links link, load entry.1 entry.2 = .ok d ∧ Entity.links s.metadata d = .ok links ∧ link ∈ links ∧
    Link.kind? s.metadata (.ofKey entry.1) (.str link.1) link.2 = .error e ∧
      ((∃ missing, e = .invalidLink (.ofKey entry.1) (.str link.1) missing) ∨
        ∃ declared valid, e = .unknownLinkType (.ofKey entry.1) (.str link.1) declared valid)

section
variable {c : Compiler} {s : Snapshot} {e : Error}

/-- A storage that does not answer breaks no contract. -/
theorem not_isConfiguration_of_ask {p : Probe} {table : Key} (h : p.ask table = .error e) : e.isConfiguration = false := by
  unfold Probe.ask at h
  split at h <;> cases h <;> rfl

/-- A configuration error of an entity is one that a link raises. -/
theorem raisedByLink_of_compileEntity {entry : Key × Declared} (hentry : entry ∈ s.entities)
    (h : (compileEntity c s.metadata entry.1 entry.2).result = .error e) (he : e.isConfiguration = true) :
    RaisedByLink s e := by
  rcases exists_of_compileEntity_eq_error h with hload | ⟨d, hload, hcause | ⟨compiled, hcheck⟩⟩
  · obtain ⟨reason, rfl⟩ := malformed_of_load hload
    cases he
  · cases hcause with
    | misused cause => cases he
    | link hlinks hlink hkind => exact ⟨entry, hentry, d, _, _, hload, hlinks, hlink, hkind, Link.error_of_kind? hkind⟩
    | probe hname hask =>
      rw [not_isConfiguration_of_ask hask] at he
      cases he
  · rcases failsBy_checkEntity c.config entry.1 compiled e hcheck with ⟨cause, rfl⟩ | ⟨reason, rfl⟩ <;> cases he

theorem onlyMisuses_normalize (c : Config) (compiled : Members Key Value) : OnlyMisuses (normalize c compiled).result := by
  induction compiled with
  | nil => exact onlyMisuses_ok
  | cons entry rest ih =>
    rw [normalize]
    simp only [Run.result_bind]
    exact (onlyMisuses_normalizeEntity c entry.1 entry.2).bind fun members => ih.bind fun tree => onlyMisuses_ok

/-- On the way to the tree only links raise configuration errors. -/
theorem raisedByLink_of_compileTree (h : (compileTree c s).result = .error e) (he : e.isConfiguration = true) :
    RaisedByLink s e := by
  unfold compileTree at h
  cases hcompiled : (compileEntities c s.metadata [] s.entities).result with
  | error e' =>
    rw [Run.result_bind, hcompiled] at h
    cases h
    obtain ⟨before, entry, after, hentities, -, hentry, -⟩ := exists_of_compileEntities_eq_error hcompiled
    exact raisedByLink_of_compileEntity (by simp [hentities]) hentry he
  | ok compiled =>
    rw [Run.bind_of_ok hcompiled] at h
    simp only [Run.result_bind] at h
    have hmisuse := (onlyMisuses_normalize c.config compiled).bind (fun normal =>
      (onlyMisuses_withJunctions c.config normal 0 normal.values).bind fun found => onlyMisuses_ok (a := found.1))
    obtain ⟨cause, rfl⟩ := hmisuse e h
    cases he

/-- The last check of a compilation never fails, and it is always a link that raises a configuration error. -/
structure Validates (c : Compiler) (s : Snapshot) : Prop where
  accepted : ∀ tree, (compileTree c s).result = .ok tree → ∃ schema, ofTree (.object tree) = .ok schema
  raised : ∀ e, (compile c s).result = .error e → e.isConfiguration = true → RaisedByLink s e

/-- With the processors of the compiler the last check never fails. -/
theorem validates_compile (hc : c.registry = {}) (hnamed : Members.Named s.entities) (hd : Members.Distinct s.entities) :
    Validates c s := by
  have haccepted : ∀ tree, (compileTree c s).result = .ok tree → ∃ schema, ofTree (.object tree) = .ok schema :=
    fun tree htree => ofTree_of_accepts (accepts_compileTree hc hnamed hd htree)
  refine ⟨haccepted, fun e he hconfiguration => ?_⟩
  unfold compile at he
  cases htree : (compileTree c s).result with
  | error e' =>
    rw [Run.result_bind, htree] at he
    cases he
    exact raisedByLink_of_compileTree htree hconfiguration
  | ok tree =>
    obtain ⟨schema, hschema⟩ := haccepted tree htree
    rw [Run.bind_of_ok htree] at he
    simp only [hschema] at he
    cases he

/-- A link to tags through an entity that is declared itself, with fields of other types than those of the link. -/
def declaredJunction : Snapshot :=
  .ofWritten [
    ("Account", .object [("links", .object [("tags", .object [("type", .str LinkKind.manyMany.word), ("entity", .str "Tag"),
      ("relationName", .str "label"), ("additionalColumns", .object [("rank", .object [("type", .int 5)])])])])]),
    ("Label", .object [("skipRebuild", .bool false), ("fields", .object [
      ("id", .object [("type", .str FieldKind.id.word)]), ("rank", .object [("type", .str FieldKind.bool.word)])])])] {}

/-- A link of a kind that does not exist. -/
def unheardKind : Snapshot :=
  .ofWritten [("Account", .object [("links", .object [("owner", .object [("type", .str "ownedBy")])])])] {}

theorem validates_compile_declaredJunction :
    Validates {} declaredJunction ∧ (∃ tree, (compileTree {} declaredJunction).result = .ok tree) ∧
      Validates {} unheardKind ∧ ∃ e, (compile {} unheardKind).result = .error e ∧ e.isConfiguration = true := by
  have hnamed : Members.Named declaredJunction.entities := by simp [Members.Named, declaredJunction, Snapshot.ofWritten]
  have hd : Members.Distinct declaredJunction.entities := by
    simp [Members.Distinct, Members.keys, declaredJunction, Snapshot.ofWritten]; decide
  have hnamed' : Members.Named unheardKind.entities := by simp [Members.Named, unheardKind, Snapshot.ofWritten]
  have hd' : Members.Distinct unheardKind.entities := Members.distinct_singleton _ _
  have hgives : gives (compileTree {} declaredJunction).result (fun _ => true) = true := by decide +kernel
  obtain ⟨tree, htree, -⟩ := gives_iff.1 hgives
  have hbreaks : raises (compile {} unheardKind).result Error.isConfiguration = true := by decide +kernel
  exact ⟨validates_compile rfl hnamed hd, ⟨tree, htree⟩, validates_compile rfl hnamed' hd', raises_iff.1 hbreaks⟩

end

end EntitySchema.Schema
