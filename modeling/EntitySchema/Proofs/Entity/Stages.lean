import EntitySchema.Proofs.Entity.Compile
import EntitySchema.Proofs.Entity.Declared
import EntitySchema.Proofs.Index.Total
import EntitySchema.Proofs.Link.Columns

/-!
# Stages of an entity whose links keep their contract

From its fields on, an entity is made stage by stage. No stage can fail that only reads what was checked when the definition
was read; each leaves the indexes that were declared alone, and the relations are those of the links, one after the other.
What the indexes are is open, and there alone an entity can be given up in the middle.

* `Stage`: an entity between two stages.
* `relationsFor`: the relations of links.

Results:
* `resolveAll_yields`, `Stage.correct_yields`, `Stage.relate_yields`: the stages before the indexes.
-/
namespace EntitySchema

namespace Members

variable {m m' : Members Key Value}

/-- Objects under texts, laid over objects under texts. -/
theorem Objects.overlay (h : m.Objects) (h' : m'.Objects) : (m.overlay m').Objects := by
  refine forall_merge (P := fun key v => (∃ name, key = .text name) ∧ ∃ below, v = .object below) ?_ ?_ h h'
  · intro k k' v hk h
    obtain ⟨⟨name, rfl⟩, hv⟩ := h
    exact ⟨⟨name, Key.text_beq.1 hk⟩, hv⟩
  · intro k v w hv hw
    obtain ⟨hk, below, rfl⟩ := hv
    obtain ⟨-, below', rfl⟩ := hw
    rw [Value.overlay_object]
    exact ⟨hk, _, rfl⟩

/-- Objects under texts, of which something was taken away. -/
theorem Objects.unset (h : m.Objects) (path : Path) : (m.unset path).Objects := by
  match path with
  | [] => exact h
  | [key] => exact fun entry he => h entry (List.mem_filter.1 he).1
  | key :: next :: rest =>
    rw [unset_cons_cons]
    split
    · rename_i below hbelow
      intro entry he
      rcases mem_set he with he | ⟨hk, hv⟩
      · exact h entry he
      · obtain ⟨k, hkey, hm⟩ := exists_of_get? hbelow
        obtain ⟨name, hname⟩ := (h _ hm).1
        simp only at hname
        subst hname
        refine ⟨⟨name, ?_⟩, _, hv⟩
        rw [Key.text_beq.1 hkey, Key.beq_text] at hk
        exact hk
    · exact h

end Members

namespace Entity

/-- An entity between two stages: its fields, its relations and the indexes that it declares. -/
def Stage (entity : String) (indexes : Value) (relations schema : Members Key Value) : Prop :=
  ∃ own fields : Members Key Value, schema = [(.text entity, .object own)] ∧
    Members.get? own "fields" = some (.object fields) ∧ fields.Objects ∧
      Members.get? own "relations" = some (.object relations) ∧ own.value "indexes" = indexes

variable {c : Config} {entity : String} {indexes : Value} {relations schema : Members Key Value} {d : Definition}

/-! ## Resolved fields -/

/-- Fields whose types are texts or null. -/
def TextTypes (fields : Members String Params) : Prop :=
  ∀ field ∈ fields, Field.TextType field.2

theorem textTypes_seeds (h : Record.entityDefinition.Fits (.object d.body)) : TextTypes (seeds d) := by
  have htext : ∀ s : String, (Record.Shape.nullable .text).Fits (.str s) := by
    intro s
    rw [Record.Shape.Fits, Record.Shape.Fits]
    exact .inr ⟨s, rfl⟩
  have hname : (Record.Shape.nullable .text).Fits ((d.field "name").value "type") := by
    unfold Definition.field
    cases hfield : Members.get? d.fields "name" with
    | none => rw [Record.Shape.Fits]; exact .inl rfl
    | some params => exact Record.fits_type (Definition.paramsFit_fields h _ (Members.mem_of_get? hfield))
  intro field hfield
  simp only [seeds, List.mem_cons, List.not_mem_nil, or_false] at hfield
  rcases hfield with rfl | rfl | rfl
  · exact htext _
  · show (Record.Shape.nullable .text).Fits (if _ then _ else _)
    split
    · exact hname
    · exact htext _
  · exact htext _

theorem TextTypes.addField {fields : Members String Params} (h : TextTypes fields) (name : String) {resolved : Params}
    (hd : Members.Distinct resolved) (htype : Field.TextType resolved) : TextTypes (addField fields name resolved) :=
  forall_addField (P := fun _ params => Field.TextType params) h htype fun _ hold => hold.overlay hd htype

/-- Every declaration is resolved or left out. -/
theorem resolveAll_yields {fields : Members String Params} {declared : List (String × Params)} (hfields : TextTypes fields)
    (h : ParamsFit Record.typedRecord declared) : Yields (resolveAll c {} fields declared).result TextTypes := by
  induction declared generalizing fields with
  | nil => exact ⟨fields, rfl, hfields⟩
  | cons entry rest ih =>
    obtain ⟨name, params⟩ := entry
    have hparams := h _ List.mem_cons_self
    have hrest : ParamsFit Record.typedRecord rest := fun p hp => h p (List.mem_cons_of_mem _ hp)
    rw [resolveAll]
    split
    · rw [Metadata.typeOf_empty (Record.fits_type hparams), Run.result_bind]
      refine Yields.bind (P := fun t => t = {}) ⟨{}, rfl, rfl⟩ fun t ht => ?_
      rw [ht, Run.result_bind]
      refine (Field.resolve_yields name hparams).bind fun found hfound => ?_
      cases found with
      | none => exact ih hfields hrest
      | some resolved =>
        obtain ⟨hd, htype⟩ := hfound resolved rfl
        exact ih (hfields.addField name hd htype) hrest
    · exact ih hfields hrest

/-! ## Corrections -/

theorem objects_toObjects (fields : Members String Params) : (Params.toObjects fields).Objects := by
  intro entry he
  obtain ⟨field, -, rfl⟩ := Params.mem_toObjects.1 he
  exact ⟨⟨field.1, rfl⟩, field.2, rfl⟩

theorem value_indexes_base (d : Definition) : Members.value (base {} d) "indexes" = d.body.value "indexes" := by
  unfold base
  simp only [List.foldl_cons, List.foldl_nil]
  cases hnull : (d.body.value "indexes").isNull with
  | true =>
    rw [Value.isNull_iff.1 hnull]
    cases (d.body.value "additionalTables").isNull <;> simp [Members.get?_set, Members.get?_cons, Members.value]
  | false =>
    cases (d.body.value "additionalTables").isNull <;> simp [Members.get?_set, Members.value]

/-- An entity as it is before the corrections: with the indexes that it declares, and without relations. -/
theorem stage_base (entity : String) (d : Definition) (fields : Members String Params) :
    Stage entity (d.body.value "indexes") []
      [(.text entity, .object ((base {} d).set "fields" (.object (Params.toObjects fields))))] := by
  have hrelations : Members.get? (base {} d) "relations" = some (.object []) := by
    unfold base
    simp only [List.foldl_cons, List.foldl_nil]
    cases (d.body.value "indexes").isNull <;> cases (d.body.value "additionalTables").isNull <;>
      simp [Members.get?_set, Members.get?_cons]
  refine ⟨_, _, rfl, Members.get?_set_self _ _ _, objects_toObjects fields, ?_, ?_⟩
  · rw [Members.get?_set, if_neg (by simp), hrelations]
  · rw [Members.value, Members.get?_set, if_neg (by simp)]
    exact value_indexes_base d

/-- A fragment of an entity over one between two stages. -/
theorem overlay_own {key : Key} (own more : Members Key Value) :
    Members.overlay [(key, Value.object own)] [(key, .object more)] = [(key, .object (own.overlay more))] := by
  have hget : Members.get? [(key, Value.object own)] key = some (.object own) := by
    simp [Members.get?_cons]
  rw [Members.overlay_singleton, Members.mergedAt_of_get? hget, Value.overlay_object, Members.set, if_pos BEq.rfl]
  rfl

theorem Stage.overlay_fields (h : Stage entity indexes relations schema) {more : Members Key Value} (hmore : more.Objects) :
    Stage entity indexes relations (schema.overlay (fieldsFragment (.text entity) more)) := by
  obtain ⟨own, fields, rfl, hfields, hobjects, hrelations, hindexes⟩ := h
  rw [fieldsFragment, overlay_own, Members.overlay_singleton, Members.mergedAt_of_get? hfields, Value.overlay_object]
  refine ⟨_, _, rfl, Members.get?_set_self _ _ _, hobjects.overlay hmore, ?_, ?_⟩
  · rw [Members.get?_set, if_neg (by simp), hrelations]
  · rw [Members.value, Members.get?_set, if_neg (by simp)]
    exact hindexes

theorem Stage.unset_field (h : Stage entity indexes relations schema) (field : String) :
    Stage entity indexes relations (schema.unset (Path.ofDotted (entity ++ ".fields." ++ field))) := by
  obtain ⟨own, fields, rfl, hfields, hobjects, hrelations, hindexes⟩ := h
  have hcases := unset_field_own (.text entity) own field
  have hdisplay : (Key.text entity).display = entity := rfl
  rw [hdisplay] at hcases
  rcases hcases with hsame | hless
  · rw [hsame]
    exact ⟨own, fields, rfl, hfields, hobjects, hrelations, hindexes⟩
  · rw [hless, unset_fields hfields]
    refine ⟨_, _, rfl, Members.get?_set_self _ _ _, hobjects.unset (Path.ofDotted field), ?_, ?_⟩
    · rw [Members.get?_set, if_neg (by simp), hrelations]
    · rw [Members.value, Members.get?_set, if_neg (by simp)]
      exact hindexes

/-- The processor of a type that is a text gives a result. -/
theorem Stage.process_yields (h : Stage entity indexes relations schema) (field type : String) :
    Yields (process {} (.text entity) field (.str type) schema) (Stage entity indexes relations) := by
  have hlookup : ({} : Registry).lookupType (.str type) = .ok (({} : Registry).lookup (.text type)) := rfl
  unfold process
  rw [hlookup, ok_bind]
  cases hp : ({} : Registry).lookup (.text type) with
  | none => exact yields_ok h
  | some p =>
    have hbuiltin : Members.get? Processor.builtins (.text type) = some p := by simpa [Registry.lookup] using hp
    obtain ⟨paths, added, hadded, -⟩ := additions_of_builtin hbuiltin field (.text entity)
    simp only
    rw [hadded.contribute, ok_bind, apply_contribution]
    refine yields_ok (Stage.overlay_fields ?_ fun entry he => ?_)
    · refine List.foldlRecOn paths _ h fun acc hacc text htext => ?_
      rw [hadded.place text htext]
      exact hacc.unset_field field
    · obtain ⟨attributes, hattributes, -⟩ := hadded.plain.mem he
      exact ⟨hadded.named entry he, attributes, hattributes⟩

theorem Stage.withDefaultAttribute (h : Stage entity indexes relations schema) (field : String) :
    Stage entity indexes relations (withDefaultAttribute d (.text entity) field schema) := by
  unfold Entity.withDefaultAttribute
  split
  · refine h.overlay_fields fun entry he => ?_
    rw [List.mem_singleton] at he
    subst he
    exact ⟨⟨field, rfl⟩, _, rfl⟩
  · exact h

/-- The corrections of fields whose types are texts or null give a result. -/
theorem Stage.correct_yields (d : Definition) (h : Stage entity indexes relations schema) {fields : Members String Params}
    (hfields : TextTypes fields) :
    Yields (correct {} d (.text entity) fields schema) (Stage entity indexes relations) := by
  unfold correct
  refine Yields.bind (P := Stage entity indexes relations) (yields_foldlM (fun acc field hfield hacc => ?_) h) fun acc hacc => ?_
  · unfold correctField
    simp only
    split
    · rename_i htype
      obtain ⟨type, htype⟩ := Record.text_of_truthy (hfields field hfield) htype
      rw [htype]
      exact (hacc.process_yields field.1 type).map fun _ h => h.withDefaultAttribute field.1
    · exact yields_ok hacc
  · split
    · refine yields_ok (hacc.overlay_fields fun entry he => ?_)
      simp only [streamFields, List.mem_cons, List.not_mem_nil, or_false] at he
      rcases he with rfl | rfl | rfl <;> exact ⟨⟨_, rfl⟩, _, rfl⟩
    · exact yields_ok hacc

/-! ## Relations -/

/-- The relation of a link under the name of the link, if it is not left out. -/
def relationFor? (entity : String) (link : String × Params) : Option (Key × Value) :=
  match Link.kind? {} (.str entity) (.str link.1) link.2 with
  | .ok (some kind) =>
    match Link.relation {} (.str entity) (.str link.1) link.2 kind with
    | .ok relation => some (.text link.1, .object relation)
    | .error _ => none
  | _ => none

/-- The relations of links. -/
def relationsFor (entity : String) (links : Members String Params) : Members Key Value :=
  links.filterMap (relationFor? entity)

theorem name_of_relationFor? {link : String × Params} {entry : Key × Value} (h : relationFor? entity link = some entry) :
    entry.1 = .text link.1 := by
  unfold relationFor? at h
  split at h
  · split at h
    · cases h; rfl
    · cases h
  · cases h

theorem relate_cons {m : Metadata} {key : Key} (link : String × Params) (rest : Members String Params)
    (schema : Members Key Value) :
    (relate m key (link :: rest) schema).result =
      (relate m key [link] schema).result >>= fun s => (relate m key rest s).result :=
  relate_append [link] rest schema

/-- What one link adds to an entity between two stages. -/
theorem Stage.overlay_fragment (h : Stage entity indexes relations schema) {link : String} {relation shown : Members Key Value}
    (hnew : Members.get? relations (.text link) = none) (hshown : shown.Objects) :
    Stage entity indexes (relations ++ [(.text link, .object relation)])
      (schema.overlay (Link.fragment (.text entity) link relation shown)) := by
  obtain ⟨own, fields, rfl, hfields, hobjects, hrelations, hindexes⟩ := h
  have hmerged : Members.overlay relations [(.text link, .object relation)] = relations ++ [(.text link, .object relation)] := by
    rw [Members.overlay_singleton, Members.mergedAt_of_get?_none hnew, Members.set_of_get?_none _ hnew]
  rw [Link.fragment, overlay_own]
  cases shown with
  | nil =>
    rw [List.isEmpty_nil, if_pos rfl, Members.overlay_singleton, Members.mergedAt_of_get? hrelations, Value.overlay_object]
    refine ⟨_, fields, rfl, ?_, hobjects, ?_, ?_⟩
    · rw [Members.get?_set, if_neg (by simp), hfields]
    · rw [Members.get?_set_self, ← hmerged]
      rfl
    · rw [Members.value, Members.get?_set, if_neg (by simp)]
      exact hindexes
  | cons one more =>
    have hd : Members.Distinct [(("relations" : Key), Value.object [(.text link, .object relation)]),
        ("fields", .object (one :: more))] := Members.distinct_pair (by decide) _ _
    have hget := fun key => Members.get?_overlay own hd key
    rw [List.isEmpty_cons, if_neg (by simp)]
    refine ⟨_, fields.overlay (one :: more), rfl, ?_, hobjects.overlay hshown, ?_, ?_⟩
    · rw [hget]
      simp [Members.get?_cons, Members.mergedAt_of_get? hfields, Members.overlay]
    · rw [hget]
      simp [Members.get?_cons, Members.mergedAt_of_get? hrelations, ← hmerged, Members.overlay]
    · rw [Members.value, hget]
      simpa [Members.get?_cons, Members.value] using hindexes

theorem Stage.relate_one (h : Stage entity indexes relations schema) {link : String × Params}
    (hfits : Record.linkDeclaration.Fits (.object link.2)) {found : Option LinkKind}
    (hkind : Link.kind? {} (.str entity) (.str link.1) link.2 = .ok found)
    (hnew : Members.get? relations (.text link.1) = none) :
    Yields (relate {} (.text entity) [link] schema).result (Stage entity indexes (relations ++ relationsFor entity [link])) := by
  obtain ⟨own, fields, hschema, hfields, hrest⟩ := h
  have hitem : (Value.object schema).item (.text entity) = .ok (.object own) := by
    rw [hschema]
    exact Value.item_object (by simp [Members.get?_cons])
  obtain ⟨added, hadded, hwhat⟩ := Link.resolve_yields entity hfits hfields hkind
  have hrelate : (relate {} (.text entity) [link] schema).result = .ok (schema.overlay added) := by
    unfold relate
    rw [List.foldlM_cons]
    refine Run.result_bind_eq_ok.2 ⟨_, Run.result_bind_eq_ok.2 ⟨.object own, Run.lift_eq_ok.2 hitem, ?_⟩, rfl⟩
    exact Run.result_bind_eq_ok.2 ⟨added, hadded, rfl⟩
  refine ⟨_, hrelate, ?_⟩
  cases found with
  | none =>
    have hnone : relationsFor entity [link] = [] := by simp [relationsFor, relationFor?, hkind]
    have hadded : added = [] := hwhat
    rw [hnone, hadded, List.append_nil, Members.overlay, Members.merge_nil]
    exact ⟨own, fields, hschema, hfields, hrest⟩
  | some kind =>
    obtain ⟨relation, shown, hrelation, hshown, hadded⟩ := hwhat
    have hone : relationsFor entity [link] = [(.text link.1, .object relation)] := by
      simp [relationsFor, relationFor?, hkind, hrelation]
    rw [hone, hadded]
    exact Stage.overlay_fragment ⟨own, fields, hschema, hfields, hrest⟩ hnew hshown

/-- Links that keep their contract give an entity their relations, one after the other. -/
theorem Stage.relate_yields (h : Stage entity indexes relations schema) {links : Members String Params}
    (hfits : ParamsFit Record.linkDeclaration links)
    (hkind : ∀ link ∈ links, ∃ found, Link.kind? {} (.str entity) (.str link.1) link.2 = .ok found)
    (hd : Members.Distinct links) (hnew : ∀ link ∈ links, Members.get? relations (.text link.1) = none) :
    Yields (relate {} (.text entity) links schema).result
      (Stage entity indexes (relations ++ relationsFor entity links)) := by
  induction links generalizing relations schema with
  | nil => exact ⟨schema, rfl, by simpa [relationsFor] using h⟩
  | cons link rest ih =>
    obtain ⟨hne, hdrest⟩ := Members.distinct_cons.1 hd
    obtain ⟨found, hfound⟩ := hkind link List.mem_cons_self
    have happend : relationsFor entity (link :: rest) = relationsFor entity [link] ++ relationsFor entity rest := by
      unfold relationsFor
      rw [← List.filterMap_append]
      rfl
    rw [relate_cons, happend, ← List.append_assoc]
    refine (h.relate_one (hfits link List.mem_cons_self) hfound (hnew link List.mem_cons_self)).bind fun s hs => ?_
    refine ih hs (fun p hp => hfits p (List.mem_cons_of_mem _ hp)) (fun p hp => hkind p (List.mem_cons_of_mem _ hp)) hdrest
      fun p hp => ?_
    rw [Members.get?_append, hnew p (List.mem_cons_of_mem _ hp), Option.none_or]
    have hname : ∀ entry ∈ relationsFor entity [link], entry.1 = .text link.1 := by
      intro entry he
      obtain ⟨other, hother, hentry⟩ := List.mem_filterMap.1 he
      rw [List.mem_singleton] at hother
      subst hother
      exact name_of_relationFor? hentry
    refine Members.get?_eq_none_iff.2 fun entry he => ?_
    rw [hname entry he, ← Bool.not_eq_true, Key.beq_text, Key.text.injEq]
    intro hsame
    have := hne p hp
    rw [hsame, BEq.rfl] at this
    cases this

end Entity

end EntitySchema
