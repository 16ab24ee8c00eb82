import EntitySchema.Proofs.Entity.JoinColumn
import EntitySchema.Proofs.Field.Settled
import EntitySchema.Proofs.Naming

/-!
# Settled entities

With the processors of the compiler, and if no name has a dot in it, all fields of an entity are settled when its indexes are
made: declared fields are resolved to fields with a type, those that are added have a type or a mark, and the field of many
links is taken away as a whole, whatever default it gives to itself. Until then the entity has the indexes that it declares, and
perhaps the full-text one.

* `PlainNames`, `DistinctParams`: a definition whose names have no dots, and whose objects have no key twice.
* `Declared`, `Resolved`: what declarations and resolved fields have in common.
* `Settled`: an entity with settled fields and the indexes that it declares.

Results:
* `declared_of_fields`, `resolved_of_resolveAll`: all declarations, and all resolved fields.
* `Settled.correct`, `Settled.relate`: the stages before the search keep an entity settled.
* `settled_of_compile`: the compiled fields of an entity are settled, and each index is declared, the full-text one or derived.
-/
namespace EntitySchema

namespace Entity

/-- No name in the definition of an entity has a dot, and no part of a composite type has one in its name. -/
structure PlainNames (m : Metadata) (entity : Key) (d : Definition) : Prop where
  entity : ∀ name, entity = .text name → '.' ∉ name.toList
  fields : ∀ field ∈ d.fields, '.' ∉ field.1.toList
  parts : ∀ type, ∀ part ∈ (m.fieldType type).parts, '.' ∉ part.1.toList

/-- No name of a field has a dot, and no part of a composite type has one in its name. -/
structure PlainFields (m : Metadata) (d : Definition) : Prop where
  fields : ∀ field ∈ d.fields, '.' ∉ field.1.toList
  parts : ∀ type, ∀ part ∈ (m.fieldType type).parts, '.' ∉ part.1.toList

theorem PlainNames.plainFields {m : Metadata} {entity : Key} {d : Definition} (h : PlainNames m entity d) : PlainFields m d :=
  ⟨h.fields, h.parts⟩

/-- No declaration of a field or of a part has a key twice. -/
structure DistinctParams (m : Metadata) (d : Definition) : Prop where
  fields : ∀ field ∈ d.fields, Members.Distinct field.2
  parts : ∀ type, ∀ part ∈ (m.fieldType type).parts, Members.Distinct part.2

variable {c : Compiler} {m : Metadata} {entity : Key} {d : Definition} {schema schema' : Members Key Value}

/-! ## Declarations -/

/-- What all declarations have in common: what has a dot in its name is of a kind of the storage, since only links imply it. -/
structure Declared (name : String) (params : Params) : Prop where
  distinct : Members.Distinct params
  dotted : '.' ∈ name.toList → ∃ kind, Field.OfKind kind params

/-- What all resolved fields have in common: they also have a type. -/
structure Resolved (name : String) (params : Params) : Prop extends Declared name params where
  typed : (params.value "type").truthy = true

section
variable {name : String} {params params' : Params}

theorem Declared.overlay (h : Declared name params) (h' : Declared name params') :
    Declared name (Members.overlay params params') where
  distinct := Members.distinct_merge _ h.distinct
  dotted hdot := by
    obtain ⟨kind, hkind⟩ := h.dotted hdot
    obtain ⟨kind', hkind'⟩ := h'.dotted hdot
    exact ⟨kind', hkind.overlay hkind'⟩

theorem Resolved.overlay (h : Resolved name params) (h' : Resolved name params') :
    Resolved name (Members.overlay params params') :=
  ⟨h.toDeclared.overlay h'.toDeclared, Members.truthy_overlay _ h'.distinct h'.typed⟩

theorem Declared.resolve {config : Config} {t : FieldType} {found : Params} (h : Declared name params)
    (htype : (params.value "type").truthy = true) (hfound : (Field.resolve config name params t).result = .ok (some found)) :
    Resolved name found where
  distinct := Field.distinct_compiled (Field.compiled_of_resolve hfound)
  dotted hdot := (h.dotted hdot).imp fun _ hkind => hkind.of_resolve hfound
  typed := Field.truthy_type_of_resolve h.distinct htype hfound

end

/-- A part of a composite field is declared by the metadata of the field's type. -/
theorem exists_part_of_mem {config : Config} {field : String} {params : Params} {parts : Members String Params}
    (h : partsOf config m field params = .ok parts) {one : String × Params} (hone : one ∈ parts) :
    ∃ type, ∃ part ∈ (m.fieldType type).parts, ∃ place, one = (Naming.composed field part.1 place, part.2) := by
  unfold partsOf at h
  split at h
  · cases h
    cases hone
  · obtain ⟨t, ht, h⟩ := bind_eq_ok.1 h
    cases h
    obtain ⟨part, hpart, rfl⟩ := List.mem_map.1 (Members.mem_ofEntries hone)
    -- a field whose type is no text has no metadata, and no parts
    have htype : t = {} ∨ ∃ type, t = m.fieldType type := by
      unfold Metadata.typeOf at ht
      simp only at ht
      split at ht
      · obtain ⟨word, -, rfl⟩ := map_eq_ok.1 ht
        cases word with
        | none => exact .inl rfl
        | some type => exact .inr ⟨type, rfl⟩
      · cases ht
        exact .inl rfl
    rcases htype with rfl | ⟨type, rfl⟩
    · cases hpart
    · exact ⟨type, part, hpart, _, rfl⟩

/-- All declarations of an entity whose names have no dots. -/
theorem declared_of_fields {config : Config} (hplain : PlainFields m d) (hdistinct : DistinctParams m d)
    {links declared : Members String Params} (h : fields config m entity d links = .ok declared) :
    ∀ one ∈ declared, Declared one.1 one.2 := by
  have undotted : ∀ {name : String} {params : Params}, '.' ∉ name.toList → Members.Distinct params → Declared name params :=
    fun hname hd => ⟨hd, fun hdot => absurd hdot hname⟩
  refine forall_fields (P := Declared) Declared.overlay (fun link _ implied himplied one hone => ?_)
    (fun field hfield parts hparts one hone => ?_) (fun field hfield => ?_) h
  · obtain ⟨found, -, rfl⟩ := map_eq_ok.1 himplied
    obtain ⟨v, he, hv⟩ := Params.mem_ofObjects.1 hone
    cases found with
    | none => cases he
    | some kind =>
      obtain ⟨_, _, fieldKind, _, hkind, _⟩ := Link.implies_of_mem_fieldsOf he
      rw [hv] at hkind
      exact ⟨hkind.distinct, fun _ => ⟨fieldKind, hkind⟩⟩
  · obtain ⟨type, part, hpart, place, rfl⟩ := exists_part_of_mem hparts hone
    exact undotted (Naming.dot_not_mem_composed (hplain.fields field hfield) (hplain.parts type part hpart) place)
      (hdistinct.parts type part hpart)
  · exact undotted (hplain.fields field hfield) (hdistinct.fields field hfield)

/-- All resolved fields of such declarations. -/
theorem resolved_of_resolveAll {config : Config} {declared resolved : Members String Params}
    (hdeclared : ∀ one ∈ declared, Declared one.1 one.2)
    (h : (resolveAll config m (seeds d) declared).result = .ok resolved) : ∀ one ∈ resolved, Resolved one.1 one.2 := by
  refine forall_resolveAll (P := Resolved) Resolved.overlay h (fun one hone => ?_)
    fun one hone htype t found hfound => (hdeclared one hone).resolve htype hfound
  have hnone : ∀ name ∈ ["id", "name", "deleted"], '.' ∉ name.toList := by decide
  simp only [seeds, List.mem_cons, List.not_mem_nil, or_false] at hone
  rcases hone with rfl | rfl | rfl
  · exact ⟨⟨by simp [Members.Distinct, Members.keys]; decide, fun hdot => absurd hdot (hnone _ (by simp))⟩, rfl⟩
  · refine ⟨⟨by simp [Members.Distinct, Members.keys]; decide, fun hdot => absurd hdot (hnone _ (by simp))⟩, ?_⟩
    -- a declared type of the name is given, and any other gives way to a text
    show (if _ then _ else _ : Value).truthy = true
    split
    · assumption
    · rfl
  · exact ⟨⟨by simp [Members.Distinct, Members.keys]; decide, fun hdot => absurd hdot (hnone _ (by simp))⟩, rfl⟩

/-! ## Stages -/

/-- Fields that are all settled. -/
abbrev SettledFields : Members Key Value → Prop :=
  Field.FieldsWith fun _ => Field.Settled

/-- An entity before its search: all its fields are settled, and it has the indexes that it declares. -/
def Settled (entity : Key) (declared : Value) (schema : Members Key Value) : Prop :=
  ∃ own fields : Members Key Value, schema = [(entity, .object own)] ∧
    Members.get? own "fields" = some (.object fields) ∧ SettledFields fields ∧ own.value "indexes" = declared

variable {declared : Value}

/-- What the compiler adds is settled if each field of it is. -/
theorem settledFields_of_mem {fields : Members Key Value} (hd : Members.Distinct fields)
    (h : ∀ entry ∈ fields, ∃ m, entry.2 = .object m ∧ Members.Distinct m ∧ Field.Settled m) : SettledFields fields :=
  Field.FieldsWith.of_mem Field.mergeLaw_settled hd h

theorem settledFields_streamFields : SettledFields streamFields := by
  refine settledFields_of_mem plain_streamFields.distinct fun entry he => ?_
  obtain ⟨attributes, hattributes, hd, -⟩ := plain_streamFields.mem he
  refine ⟨attributes, hattributes, hd, .inl ?_⟩
  simp only [streamFields, List.mem_cons, List.not_mem_nil, or_false] at he
  rcases he with rfl | rfl | rfl <;> cases hattributes <;> rfl

/-- A fragment of an entity without indexes, and with settled fields if it has any. -/
theorem Settled.overlay (h : Settled entity declared schema) {more : Members Key Value} (hd : Members.Distinct more)
    (hindexes : Members.get? more "indexes" = none)
    (hmore : ∀ v, Members.get? more "fields" = some v → ∃ fields, v = .object fields ∧ SettledFields fields) :
    Settled entity declared (schema.overlay [(entity, .object more)]) := by
  obtain ⟨own, fields, rfl, hfields, hsettled, hdeclared⟩ := h
  have hvalue : (own.overlay more).value "indexes" = declared := by
    rw [Members.overlay, Members.value_congr (Members.get?_merge_of_none hindexes), hdeclared]
  have hget := Members.get?_overlay own hd "fields"
  rw [overlay_own]
  cases hupper : Members.get? more "fields" with
  | none =>
    rw [hupper, hfields] at hget
    exact ⟨_, fields, rfl, hget, hsettled, hvalue⟩
  | some v =>
    obtain ⟨added, rfl, hadded⟩ := hmore v hupper
    simp only [hupper, Members.mergedAt_of_get? hfields, Value.overlay_object] at hget
    exact ⟨_, _, rfl, hget, hsettled.overlay Field.mergeLaw_settled hadded, hvalue⟩

theorem Settled.overlay_fields (h : Settled entity declared schema) {more : Members Key Value} (hmore : SettledFields more) :
    Settled entity declared (schema.overlay (fieldsFragment entity more)) := by
  refine h.overlay (Members.distinct_singleton _ _) (by simp [Members.get?_cons]) fun v hv => ?_
  rw [Members.get?_cons, if_pos (by simp)] at hv
  cases hv
  exact ⟨more, rfl, hmore⟩

/-- A field that is taken away is so as a whole, if its name has no dot. -/
theorem Settled.unset_field (h : Settled entity declared schema) {field : String} (hfield : '.' ∉ field.toList) :
    Settled entity declared (schema.unset (Path.ofDotted (entity.display ++ ".fields." ++ field))) := by
  obtain ⟨own, fields, rfl, hfields, hsettled, hdeclared⟩ := h
  rcases unset_field_own entity own field with hsame | hless
  · rw [hsame]
    exact ⟨own, fields, rfl, hfields, hsettled, hdeclared⟩
  · rw [hless, unset_fields hfields, Path.ofDotted_of_plain hfield]
    refine ⟨_, Members.erase fields (.text field), rfl, Members.get?_set_self _ _ _,
      ⟨Members.distinct_erase _ hsettled.distinct, fun f v hv => ?_⟩, ?_⟩
    · rw [Members.get?_erase] at hv
      split at hv
      · cases hv
      · exact hsettled.each f v hv
    · rw [Members.value_set, if_neg (by simp), hdeclared]

/-- The processor of a resolved field keeps an entity settled: one for many links has no dot in the name of its field. -/
theorem Settled.process (h : Settled entity declared schema) {field : String × Params} (hfield : Resolved field.1 field.2)
    (hprocess : process {} entity field.1 (field.2.value "type") schema = .ok schema') : Settled entity declared schema' := by
  obtain rfl | ⟨type, p, paths, added, htype, hbuiltin, hadded, hmakes, rfl⟩ := process_cases hprocess
  · exact h
  · have hplain : '.' ∉ field.1.toList := fun hdot => by
      obtain ⟨kind, hkind⟩ := hfield.dotted hdot
      rw [Members.value_of_get? hkind.type] at htype
      cases htype
      have hnone : Members.get? Processor.builtins (.text kind.word) = none := by cases kind <;> decide
      rw [hnone] at hbuiltin
      cases hbuiltin
    refine Settled.overlay_fields ?_ (settledFields_of_mem hadded.plain.distinct fun entry he => ?_)
    · exact List.foldlRecOn paths _ h fun acc hacc text htext => by
        rw [hadded.place text htext]
        exact hacc.unset_field hplain
    · obtain ⟨attributes, hattributes, hd, -⟩ := hadded.plain.mem he
      obtain ⟨_, -, kind, more, rfl⟩ := hmakes.fields entry he
      cases hattributes
      exact ⟨_, rfl, hd, Field.settled_unstored kind more⟩

theorem Settled.withDefaultAttribute (h : Settled entity declared schema) (field : String) :
    Settled entity declared (withDefaultAttribute d entity field schema) := by
  unfold Entity.withDefaultAttribute
  split
  · rename_i v _
    refine h.overlay_fields (settledFields_of_mem (Members.distinct_singleton _ _) fun entry he => ?_)
    rw [List.mem_singleton] at he
    subst he
    exact ⟨_, rfl, Members.distinct_singleton _ _, Field.settled_default v⟩
  · exact h

/-- An entity with its resolved fields is settled. -/
theorem settled_base (hoptions : c.config.permittedEntityOptions = ({} : Config).permittedEntityOptions)
    {resolved : Members String Params} (hd : Members.Distinct resolved) (h : ∀ one ∈ resolved, Resolved one.1 one.2) :
    Settled entity (d.body.value "indexes")
      [(entity, .object ((base c.config d).set "fields" (.object (Params.toObjects resolved))))] := by
  have hbase : base c.config d = base {} d := by
    unfold base
    rw [hoptions]
  refine ⟨_, _, rfl, Members.get?_set_self _ _ _, ?_, ?_⟩
  · refine settledFields_of_mem (Params.distinct_toObjects hd) fun entry he => ?_
    obtain ⟨one, hone, rfl⟩ := Params.mem_toObjects.1 he
    exact ⟨one.2, rfl, (h one hone).distinct, .inl (h one hone).typed⟩
  · rw [Members.value_set, if_neg (by simp), hbase, value_indexes_base]

/-- The corrections of resolved fields keep an entity settled. -/
theorem Settled.correct (h : Settled entity declared schema) {fields : Members String Params} (hfields : ∀ field ∈ fields, Resolved field.1 field.2)
    (hcorrect : correct {} d entity fields schema = .ok schema') : Settled entity declared schema' :=
  correct_invariant (Settled entity declared) (fun field hfield _ _ hprocess hs => hs.process (hfields field hfield) hprocess)
    (fun field _ hs => hs.withDefaultAttribute field) (fun _ hs => hs.overlay_fields settledFields_streamFields) h hcorrect

/-- Links keep an entity settled: the fields that show columns of a junction have a mark. -/
theorem Settled.relate {links : Members String Params} (h : Settled entity declared schema)
    (hrelate : (relate m entity links schema).result = .ok schema') : Settled entity declared schema' := by
  refine relate_invariant (Settled entity declared) (fun _ _ _ _ shown _ hs _ _ hshown hmore => ?_) h hrelate
  obtain ⟨hd, hmarked⟩ := Link.attributeFields_eq_ok hshown
  have hsettled : SettledFields shown := settledFields_of_mem hd fun entry he => by
    obtain ⟨type, htype⟩ := hmarked entry he
    exact ⟨_, htype, Link.distinct_shown type, .inr (.inl (by simp [Members.value, Members.get?_cons, Value.truthy]))⟩
  exact hs.overlay hmore.distinct (hmore.other _ (by simp) (by simp)) fun v hv => ⟨shown, hmore.fields v hv, hsettled⟩

/-! ## Indexes -/

/-- An index that an entity does not get from its fields: a declared one, or the full-text one of an entity that is searched. -/
def IsGiven (c : Config) (declared : Value) (own : Members Key Value) (name : Key) : Prop :=
  Members.contains declared.members name = true ∨
    name = .text c.fullTextIndexName ∧ (own.value "fullTextSearchColumnList").texts ≠ []

/-- An entity after its search has settled fields and given indexes. -/
theorem Settled.search (h : Settled entity declared schema) (hsearch : (search c m entity d schema).result = .ok schema') :
    ∃ own fields : Members Key Value, schema' = [(entity, .object own)] ∧ Members.get? own "fields" = some (.object fields) ∧
      SettledFields fields ∧ ∀ name, Members.contains (own.value "indexes").members name = true → IsGiven c.config declared own name := by
  obtain ⟨own, fields, rfl, hfields, hsettled, hdeclared⟩ := h
  rcases search_eq_ok hsearch with rfl | ⟨hcolumns, rfl⟩
  · exact ⟨own, fields, rfl, hfields, hsettled, fun name hname => .inl (hdeclared ▸ hname)⟩
  · rw [overlay_own]
    generalize FullText.columns c.config m d = columns at hcolumns
    have hd : Members.Distinct (FullText.found c.config columns) := by
      simp [FullText.found, Members.Distinct, Members.keys]; decide
    have hlisted : Members.value (own.overlay (FullText.found c.config columns)) "fullTextSearchColumnList" = .ofTexts columns :=
      Members.value_of_get? (Members.get?_overlay_of_not_object own hd (by simp [FullText.found, Members.get?_cons])
        fun _ => Value.noConfusion)
    refine ⟨_, fields, rfl, ?_, hsettled, fun name hname => ?_⟩
    · rw [Members.overlay, Members.get?_merge_of_none (by simp [FullText.found, Members.get?_cons]), hfields]
    · rw [Members.value_overlay own hd (v := .object [(c.config.fullTextIndexName, FullText.index columns)])
        (by simp [FullText.found, Members.get?_cons]), Members.contains_members_overlay, Bool.or_eq_true, hdeclared] at hname
      refine hname.imp_right fun hname => ⟨?_, ?_⟩
      · obtain ⟨entry, he, hkey⟩ := Members.contains_iff_exists.1 hname
        rw [List.mem_singleton] at he
        rw [he, Key.text_beq] at hkey
        exact hkey
      · rw [hlisted]
        simpa [Value.ofTexts, Value.texts, Value.elements, Value.text?, Function.comp_def] using hcolumns

/-- An index that an entity has after all were made was there before, or it is derived from its fields. -/
theorem isDerived_of_synthesize {config : Config} {own found : Members Key Value}
    (h : Index.synthesize config (.object own) = .ok found) {name : Key} {index : Value}
    (hindex : Members.get? ((own.overlay found).value "indexes").members name = some index) :
    Members.contains (own.value "indexes").members name = true ∨ Index.IsDerived (own.value "fields").members index := by
  obtain ⟨indexes, -, -, hindexes, -, -, -⟩ := Index.synthesize_eq_ok_iff.1 h
  rw [Index.members_indexes_overlay h hindexes] at hindex
  exact Index.isDerived_of_overlay (fun one hone => Index.isDerived_of_entityIndexes hindexes hone) hindex

/-- The compiled fields of an entity whose names have no dots are settled, and each of its indexes is given or derived from
them. -/
theorem settled_of_compile (hc : c.registry = {})
    (hoptions : c.config.permittedEntityOptions = ({} : Config).permittedEntityOptions) (hplain : PlainNames m entity d)
    (hdistinct : DistinctParams m d) (h : (compile c m entity d).result = .ok schema) :
    ∃ own fields : Members Key Value, schema = [(entity, .object own)] ∧ Members.get? own "fields" = some (.object fields) ∧
      SettledFields fields ∧ ∀ name index, Members.get? (own.value "indexes").members name = some index →
        IsGiven c.config (d.body.value "indexes") own name ∨ Index.IsDerived fields index := by
  obtain ⟨links, declared, resolved, corrected, related, searched, withIndexes, -, hdeclared, hresolved, hcorrected, hrelated,
    hsearched, hindexed, hordered⟩ := compile_eq_ok h
  rw [hc] at hcorrected
  have hall := resolved_of_resolveAll (declared_of_fields hplain.plainFields hdistinct hdeclared) hresolved
  have hd := distinct_resolveAll hresolved
  have hsettled := ((settled_base (d := d) hoptions hd hall).correct hall hcorrected).relate hrelated
  obtain ⟨own, fields, rfl, hfields, hsettled, hgiven⟩ := hsettled.search hsearched
  -- the indexes that fields ask for join those that are given
  obtain ⟨compiled, found, hcompiled, hfound, rfl⟩ := indexed_eq_ok hindexed
  rw [Value.item_object (Members.get?_singleton _ _)] at hcompiled
  cases hcompiled
  rw [overlay_own] at hordered
  obtain ⟨own', rfl, hsame⟩ := ordered_own hordered
  have hget : ∀ key : Key, key ∉ [Key.text "indexes", "relations", "collection"] → Members.get? own' key = Members.get? own key := by
    intro key hkey
    simp only [List.mem_cons, List.not_mem_nil, or_false, not_or] at hkey
    obtain ⟨hindexes, hrelations, hcollection⟩ := hkey
    refine (hsame key hcollection).trans (Members.get?_merge_of_none (Members.get?_eq_none_iff.2 fun entry he => ?_))
    rcases Index.mem_of_synthesize hfound he with hname | ⟨hname, -⟩ <;> rw [hname, ← Bool.not_eq_true, Key.text_beq] <;> assumption
  refine ⟨own', fields, rfl, by rw [hget _ (by simp), hfields], hsettled, fun name index hindex => ?_⟩
  rw [Members.value_congr (hsame _ (by simp))] at hindex
  rcases isDerived_of_synthesize hfound hindex with hname | hderived
  · refine .inl ((hgiven name hname).imp_right fun hsearched => ?_)
    rwa [Members.value_congr (hget _ (by simp))]
  · rw [Members.value_of_get? hfields, Value.members_object] at hderived
    exact .inr hderived

end Entity

end EntitySchema
