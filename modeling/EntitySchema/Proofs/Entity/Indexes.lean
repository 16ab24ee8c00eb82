import EntitySchema.Proofs.Entity.Settled
import EntitySchema.Proofs.Index.Flags

/-!
# Indexes of a compiled entity

Until the indexes are made, no stage touches those that an entity declares: what is taken away is taken from its fields, and
what is laid over it are fields, relations and, with its search, the full-text index. So apart from these names the indexes in
the end are those that its fields ask for.

* `Declares`: an entity with the indexes that it declares.

Results:
* `Declares.correct`, `Declares.relate`, `Declares.search`: the stages before the indexes.
* `rel_indexes_of_synthesize`, `rel_indexes_of_compile`: the indexes that fields ask for are the indexes of other names.
-/
namespace EntitySchema.Entity

variable {c : Compiler} {m : Metadata} {entity : Key} {d : Definition} {schema schema' : Members Key Value} {declared : Value}

/-- A schema that holds one entity, which has the given indexes. -/
def Declares (entity : Key) (declared : Value) (schema : Members Key Value) : Prop :=
  ∃ own : Members Key Value, schema = [(entity, .object own)] ∧ own.value "indexes" = declared

/-! ## Stages before the indexes -/

theorem declares_base (entity : Key) (d : Definition)
    (hoptions : c.config.permittedEntityOptions = ({} : Config).permittedEntityOptions) (fields : Value) :
    Declares entity (d.body.value "indexes") [(entity, .object ((base c.config d).set "fields" fields))] := by
  have hbase : base c.config d = base {} d := by
    unfold base
    rw [hoptions]
  refine ⟨_, rfl, ?_⟩
  rw [Members.value_set, if_neg (by simp), hbase, value_indexes_base]

/-- A fragment without indexes. -/
theorem Declares.overlay (h : Declares entity declared schema) {more : Members Key Value}
    (hmore : Members.get? more "indexes" = none) : Declares entity declared (schema.overlay [(entity, .object more)]) := by
  obtain ⟨own, rfl, hdeclared⟩ := h
  rw [overlay_own]
  refine ⟨_, rfl, ?_⟩
  rw [Members.overlay, Members.value_congr (Members.get?_merge_of_none hmore), hdeclared]

theorem Declares.overlay_fields (h : Declares entity declared schema) (fields : Members Key Value) :
    Declares entity declared (schema.overlay (fieldsFragment entity fields)) :=
  h.overlay (by simp [Members.get?_cons])

theorem Declares.unset_field (h : Declares entity declared schema) (field : String) :
    Declares entity declared (schema.unset (Path.ofDotted (entity.display ++ ".fields." ++ field))) := by
  obtain ⟨own, rfl, hdeclared⟩ := h
  rcases unset_field_own entity own field with hsame | hless
  · rw [hsame]
    exact ⟨own, rfl, hdeclared⟩
  · rw [hless]
    refine ⟨_, rfl, ?_⟩
    cases hpath : Path.ofDotted field with
    | nil => exact absurd hpath (Path.ofDotted_ne_nil field)
    | cons next rest =>
      rw [Members.unset_cons_cons]
      split
      · rw [Members.value_set, if_neg (by simp), hdeclared]
      · exact hdeclared

theorem Declares.process (h : Declares entity declared schema) {field : String} {type : Value}
    (hprocess : process {} entity field type schema = .ok schema') : Declares entity declared schema' := by
  obtain rfl | ⟨_, _, paths, added, -, -, hadded, -, rfl⟩ := process_cases hprocess
  · exact h
  · refine Declares.overlay_fields ?_ added
    refine List.foldlRecOn (motive := Declares entity declared) paths _ h fun acc hacc text htext => ?_
    rw [hadded.place text htext]
    exact hacc.unset_field field

theorem Declares.withDefaultAttribute (h : Declares entity declared schema) (field : String) :
    Declares entity declared (withDefaultAttribute d entity field schema) := by
  unfold Entity.withDefaultAttribute
  split
  · exact h.overlay_fields _
  · exact h

/-- The corrections of fields leave the indexes of their entity alone. -/
theorem Declares.correct (h : Declares entity declared schema) {fields : Members String Params}
    (hcorrect : correct {} d entity fields schema = .ok schema') : Declares entity declared schema' :=
  correct_invariant (Declares entity declared) (fun _ _ _ _ hprocess hs => hs.process hprocess)
    (fun field _ hs => hs.withDefaultAttribute field) (fun _ hs => hs.overlay_fields _) h hcorrect

/-- Links leave the indexes of their entity alone. -/
theorem Declares.relate (h : Declares entity declared schema) {links : Members String Params}
    (hrelate : (relate m entity links schema).result = .ok schema') : Declares entity declared schema' := by
  refine relate_invariant (Declares entity declared) (fun _ _ _ _ _ _ hs _ _ _ hmore => ?_) h hrelate
  exact hs.overlay (hmore.other _ (by simp) (by simp))

/-- Full-text search adds an index of one name. -/
theorem Declares.search (h : Declares entity declared schema) (hsearch : (search c m entity d schema).result = .ok schema') :
    ∃ own : Members Key Value, schema' = [(entity, .object own)] ∧ ∀ name, name ≠ .text c.config.fullTextIndexName →
      Members.contains (own.value "indexes").members name = Members.contains declared.members name := by
  obtain ⟨own, rfl, hdeclared⟩ := h
  rcases search_eq_ok hsearch with rfl | ⟨-, rfl⟩
  · exact ⟨own, rfl, fun name _ => by rw [hdeclared]⟩
  · rw [overlay_own]
    refine ⟨_, rfl, fun name hname => ?_⟩
    generalize FullText.columns c.config m d = columns
    have hd : Members.Distinct (FullText.found c.config columns) := Members.distinct_pair (by decide) _ _
    rw [Members.value_overlay own hd (v := .object [(c.config.fullTextIndexName, FullText.index columns)])
      (by simp [FullText.found, Members.get?_cons]), Members.contains_members_overlay, hdeclared]
    have hother : Members.contains [(Key.text c.config.fullTextIndexName, FullText.index columns)] name = false := by
      rw [Members.contains, Members.get?_cons, if_neg (by simpa using hname)]
      rfl
    rw [hother, Bool.or_false]

/-! ## Indexes -/

/-- Under a name that was free before the indexes were made stands what fields ask for under it. -/
theorem rel_indexes_of_synthesize {config : Config} {own found : Members Key Value}
    (h : Index.synthesize config (.object own) = .ok found) :
    ∃ derived, Index.ofFields (own.value "fields").members = .ok derived ∧
      ∀ name, Members.contains (own.value "indexes").members name = false →
        Option.Rel (fun d index => Index.IsOver d.columns index) (Members.get? derived name)
          (Members.get? ((own.overlay found).value "indexes").members name) := by
  obtain ⟨_, indexes, -, hown, hindexes, -, -⟩ := Index.synthesize_eq_ok h
  cases hown
  obtain ⟨derived, hderived, hall, hcontains⟩ := Index.derived_of_entityIndexes hindexes
  refine ⟨derived, hderived, fun name hfree => ?_⟩
  rw [Index.members_indexes_overlay h hindexes]
  generalize hfinal : Members.get? (Value.overlay .override (own.value "indexes") (.object indexes)).members name = final
  cases final with
  | some index =>
    have hmade := Index.forall_overlay_indexes
      (P := fun key v => ∃ d, Members.get? derived key = some d ∧ Index.IsOver d.columns v)
      (fun hkey hv => by rwa [← Members.get?_congr hkey])
      (fun hv hw => by
        obtain ⟨_, -, hover⟩ := hv
        obtain ⟨d, hd, hover'⟩ := hw
        exact ⟨d, hd, hover.overlay hover'⟩)
      (fun index hindex => (hall index hindex).imp_right fun hmade => by
        obtain ⟨d, hd, hover⟩ := hmade
        exact ⟨d, Members.get?_of_mem (Index.distinct_ofFields hderived) hd, hover⟩)
      hfinal
    rw [hfree] at hmade
    obtain ⟨d, hd, hover⟩ := hmade.resolve_left Bool.false_ne_true
    rw [hd]
    exact .some hover
  | none =>
    -- what fields ask for would be there
    have hnone : Members.get? derived name = none := by
      rw [← Option.not_isSome_iff_eq_none]
      intro hasked
      have hthere : Members.contains (Value.overlay .override (own.value "indexes") (.object indexes)).members name = true := by
        rw [Members.contains_members_overlay, hcontains name hasked, Bool.or_true]
      rw [Members.contains, hfinal] at hthere
      cases hthere
    rw [hnone]
    exact .none

/-- The indexes of a compiled entity that it does not declare, the full-text one apart, are those that its fields ask for. -/
theorem rel_indexes_of_compile (hc : c.registry = {})
    (hoptions : c.config.permittedEntityOptions = ({} : Config).permittedEntityOptions)
    (h : (compile c m entity d).result = .ok schema) :
    ∃ (own fields : Members Key Value) (derived : Members Key Index.Derived),
      schema = [(entity, .object own)] ∧ Members.get? own "fields" = some (.object fields) ∧
      Members.Distinct fields ∧ Index.ofFields fields = .ok derived ∧
      ∀ name, Members.contains (d.body.value "indexes").members name = false → name ≠ .text c.config.fullTextIndexName →
        Option.Rel (fun d index => Index.IsOver d.columns index) (Members.get? derived name)
          (Members.get? (own.value "indexes").members name) := by
  obtain ⟨own, fields, rfl, -, hfields, hlawful⟩ :=
    lawful_compile (Field.fieldLaw_true c.config) hc (fun _ _ _ => trivial) h
  obtain ⟨links, declared, resolved, corrected, related, searched, withIndexes, -, -, -, hcorrected, hrelated, hsearched,
    hindexed, hordered⟩ := compile_eq_ok h
  rw [hc] at hcorrected
  have hdeclares := ((declares_base entity d hoptions _).correct hcorrected).relate hrelated
  obtain ⟨before, rfl, hnames⟩ := hdeclares.search hsearched
  obtain ⟨compiled, found, hcompiled, hfound, rfl⟩ := indexed_eq_ok hindexed
  rw [Value.item_object (Members.get?_singleton _ _)] at hcompiled
  cases hcompiled
  rw [overlay_own] at hordered
  obtain ⟨own', hown', hsame⟩ := ordered_own hordered
  cases hown'
  have hbefore : Members.get? before "fields" = some (.object fields) := by
    rw [← Members.get?_merge_of_none (Index.apart_of_synthesize hfound).2, ← Members.overlay, ← hsame _ (by simp), hfields]
  obtain ⟨derived, hderived, hrel⟩ := rel_indexes_of_synthesize hfound
  rw [Members.value_of_get? hbefore, Value.members_object] at hderived
  refine ⟨own, fields, derived, rfl, hfields, hlawful.distinct, hderived, fun name hfree hname => ?_⟩
  rw [Members.value_congr (hsame _ (by simp))]
  exact hrel name (by rw [hnames name hname, hfree])

end EntitySchema.Entity
