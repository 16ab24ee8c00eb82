import EntitySchema.Proofs.Index.Fragment

/-!
# Indexes that fields ask for

The columns of an index that no one declares are fields that ask for it: fields that are not marked and have a flag for an
index. Keys do not touch the columns.

* `IsAsked`: a column that is a field which asks for an index.
* `IsDerived`: an index over such columns.
* `IsOver`: an index over given columns.

Results:
* `asked_of_ofFields`: the columns of all indexes that fields ask for.
* `derived_of_entityIndexes`: the indexes of an entity are those that are there already and those that its fields ask for.
* `isDerived_of_entityIndexes`: an index of an entity is one that is there already, or it is derived.
* `forall_overlay_indexes`, `isDerived_of_overlay`: the same of the indexes that an entity has in the end.
-/
namespace EntitySchema.Index

variable {c : Config} {own fields : Members Key Value}

/-- A column that is a field of the entity: it is not marked, and a flag of its asks for an index. -/
def IsAsked (fields : Members Key Value) (column : Key) : Prop :=
  ∃ params, (column, .object params) ∈ fields ∧ (params.value "notStorable").truthy = false ∧ fieldKind? params ≠ none

/-- An index over columns that are fields which ask for one. -/
def IsDerived (fields : Members Key Value) (index : Value) : Prop :=
  ∃ (defs : Members Key Value) (columns : List Key), index = .object defs ∧ Members.Distinct defs ∧
    Members.get? defs "columns" = some (.list (columns.map Value.ofKey)) ∧ ∀ column ∈ columns, IsAsked fields column

/-! ## Columns -/

/-- A field joins the columns of indexes only if it asks for one. -/
theorem columns_addField {P : Key → Prop} {indexes : Members Key Derived} {field : Key} {params : Members Key Value}
    (hindexes : ∀ index ∈ indexes, ∀ column ∈ index.2.columns, P column)
    (hfield : (params.value "notStorable").truthy = false → fieldKind? params ≠ none → P field) :
    ∀ index ∈ addField indexes field params, ∀ column ∈ index.2.columns, P column := by
  intro index hindex column hcolumn
  rcases addField_cases field params with ⟨-, hsame⟩ | ⟨request, kind, -, hmark, hkind, hset⟩
  · rw [hsame] at hindex
    exact hindexes index hindex column hcolumn
  · rw [hset] at hindex
    rcases Members.mem_set hindex with hindex | ⟨-, hindex⟩
    · exact hindexes index hindex column hcolumn
    · rw [hindex] at hcolumn
      rcases request.mem_index hcolumn with rfl | ⟨old, hold, hcolumn⟩
      · exact hfield hmark (by rw [hkind]; exact Option.some_ne_none _)
      · exact hindexes old hold column hcolumn

/-- The columns of all indexes that fields ask for are such fields. -/
theorem asked_of_ofFields {derived : Members Key Derived} (h : ofFields fields = .ok derived) :
    ∀ index ∈ derived, ∀ column ∈ index.2.columns, IsAsked fields column := by
  refine foldlM_invariant (fun acc : Members Key Derived => ∀ index ∈ acc, ∀ column ∈ index.2.columns, IsAsked fields column)
    (fun acc field acc' hfield hacc hstep => ?_) (by simp) h
  obtain ⟨params, hparams, hstep⟩ := bind_eq_ok.1 hstep
  cases hstep
  rw [Value.openMembers_eq_ok] at hparams
  exact columns_addField hacc fun hmark hkind => ⟨params, hparams ▸ hfield, hmark, hkind⟩

/-! ## Indexes of an entity -/

/-- An index over columns. -/
def IsOver (columns : List Key) (index : Value) : Prop :=
  ∃ defs : Members Key Value, index = .object defs ∧ Members.Distinct defs ∧
    Members.get? defs "columns" = some (.list (columns.map Value.ofKey))

theorem IsDerived.of_isOver {columns : List Key} {index : Value} (h : IsOver columns index)
    (hasked : ∀ column ∈ columns, IsAsked fields column) : IsDerived fields index := by
  obtain ⟨defs, hindex, hd, hcolumns⟩ := h
  exact ⟨defs, columns, hindex, hd, hcolumns, hasked⟩

theorem isOver_of_hasNewKey {name : Key} {d : Derived} {index : Value} (h : HasNewKey c name d.toValue.members index) :
    IsOver d.columns index := by
  have hd : Members.Distinct d.toValue.members := Members.distinct_pair (by decide) _ _
  obtain ⟨kind, word, -, -, rfl⟩ := h
  refine ⟨_, rfl, Members.distinct_set _ _ hd, ?_⟩
  rw [Members.get?_set, if_neg (by simp)]
  simp [Derived.toValue, Value.members, Members.get?_cons]

/-- An index over columns stays one over any other index. -/
theorem IsOver.overlay {columns columns' : List Key} {v w : Value} (h : IsOver columns v) (h' : IsOver columns' w) :
    IsOver columns' (Value.overlay .override v w) := by
  obtain ⟨defs, rfl, hd, -⟩ := h
  obtain ⟨defs', rfl, hd', hcolumns⟩ := h'
  rw [Value.overlay_object]
  exact ⟨_, rfl, Members.distinct_merge _ hd, Members.get?_overlay_of_not_object _ hd' hcolumns fun _ => Value.noConfusion⟩

/-- All indexes have the names of those that are there and of those that fields ask for. -/
theorem contains_allOf (explicit : Members Key (Members Key Value)) (derived : Members Key Derived) (name : Key) :
    Members.contains (allOf explicit derived) name = (Members.contains explicit name || Members.contains derived name) := by
  induction derived generalizing explicit with
  | nil => exact (Bool.or_false _).symm
  | cons index rest ih =>
    have hcons : Members.contains (index :: rest) name = (index.1 == name || Members.contains rest name) := by
      rw [Members.contains, Members.get?_cons]
      cases hname : index.1 == name <;> simp [Members.contains]
    show Members.contains (allOf (explicit.setNew index.1 index.2.toValue.members) rest) name = _
    rw [ih, Members.contains_setNew, hcons]
    simp only [Bool.or_assoc, Bool.or_left_comm]

/-- An index of an entity is one that is there already, or one that its fields ask for; and each of these is there. -/
theorem derived_of_entityIndexes {indexes : Members Key Value} (h : entityIndexes c own = .ok indexes) :
    ∃ derived, ofFields (own.value "fields").members = .ok derived ∧
      (∀ index ∈ indexes, Members.contains (own.value "indexes").members index.1 = true ∨
        ∃ d, (index.1, d) ∈ derived ∧ IsOver d.columns index.2) ∧
      ∀ name, Members.contains derived name = true → Members.contains indexes name = true := by
  obtain ⟨given, explicit, fields, derived, hgiven, hread, hfields, hderived, hkeyed⟩ := entityIndexes_eq_ok_iff.1 h
  rw [Value.givenMembers_eq_ok hfields] at hderived
  refine ⟨derived, hderived, fun index hindex => ?_, fun name hname => ?_⟩
  · obtain ⟨defs, hdefs, hkey⟩ := hkeyed.exists_left hindex
    rcases mem_allOf (distinct_ofFields hderived) hdefs with hdefs | ⟨d, hd, rfl⟩
    · obtain ⟨v, hv, -⟩ := hread.exists_left hdefs
      rw [← Value.givenMembers_eq_ok hgiven]
      exact .inl (Members.contains_iff_exists.2 ⟨_, hv, BEq.rfl⟩)
    · exact .inr ⟨d, hd, isOver_of_hasNewKey (hasKey_toValue.1 hkey)⟩
  · rw [hkeyed.contains_eq, contains_allOf, hname, Bool.or_true]

/-- An index of an entity is one that is there already, or it is derived from its fields. -/
theorem isDerived_of_entityIndexes {indexes : Members Key Value} (h : entityIndexes c own = .ok indexes) {index : Key × Value}
    (hindex : index ∈ indexes) : Members.contains (own.value "indexes").members index.1 = true ∨
      IsDerived (own.value "fields").members index.2 := by
  obtain ⟨derived, hderived, hall, -⟩ := derived_of_entityIndexes h
  refine (hall index hindex).imp_right fun hmade => ?_
  obtain ⟨d, hd, hover⟩ := hmade
  exact .of_isOver hover (asked_of_ofFields hderived _ hd)

/-- A derived index over another one is derived. -/
theorem IsDerived.overlay {v w : Value} (h : IsDerived fields v) (h' : IsDerived fields w) :
    IsDerived fields (Value.overlay .override v w) := by
  obtain ⟨defs, columns, hv, hd, hcolumns, -⟩ := h
  obtain ⟨defs', columns', hw, hd', hcolumns', hasked⟩ := h'
  exact .of_isOver (IsOver.overlay ⟨defs, hv, hd, hcolumns⟩ ⟨defs', hw, hd', hcolumns'⟩) hasked

/-- Of indexes that are laid over others each is one of the others, or it has what those that are laid over have in common. -/
theorem forall_overlay_indexes {P : Key → Value → Prop} (hcongr : ∀ {k k' v}, (k == k') = true → P k v → P k' v)
    (hoverlay : ∀ {k v w}, P k v → P k w → P k (Value.overlay .override v w)) {given : Value} {indexes : Members Key Value}
    (hindexes : ∀ index ∈ indexes, Members.contains given.members index.1 = true ∨ P index.1 index.2) {name : Key} {v : Value}
    (h : Members.get? (Value.overlay .override given (.object indexes)).members name = some v) :
    Members.contains given.members name = true ∨ P name v := by
  let Q (key : Key) (v : Value) : Prop := Members.contains given.members key = true ∨ P key v
  have hcongrQ : ∀ {k k' v}, (k == k') = true → Q k v → Q k' v := fun hk =>
    Or.imp (fun hgiven => by rwa [Members.contains, ← Members.get?_congr hk]) (hcongr hk)
  have hall : ∀ index ∈ (Value.overlay .override given (.object indexes)).members, Q index.1 index.2 := by
    cases given with
    | object below =>
      rw [Value.overlay_object]
      refine Members.forall_merge_of (P := Q) (Q := Q) hcongrQ id (fun hv hw => ?_)
        (fun index hindex => .inl (Members.contains_iff_exists.2 ⟨index, hindex, BEq.rfl⟩)) hindexes
      rcases hv with hgiven | hv
      · exact .inl hgiven
      · exact hw.imp_right (hoverlay hv)
    | _ => exact hindexes
  obtain ⟨key, hkey, hmem⟩ := Members.exists_of_get? h
  exact hcongrQ hkey (hall _ hmem)

/-- Of indexes that are laid over others each is one of the others, or derived. -/
theorem isDerived_of_overlay {given : Value} {indexes : Members Key Value}
    (hindexes : ∀ index ∈ indexes, Members.contains given.members index.1 = true ∨ IsDerived fields index.2) {name : Key} {v : Value}
    (h : Members.get? (Value.overlay .override given (.object indexes)).members name = some v) :
    Members.contains given.members name = true ∨ IsDerived fields v :=
  forall_overlay_indexes (P := fun _ => IsDerived fields) (fun _ => id) (fun hv hw => hv.overlay hw) hindexes h

end EntitySchema.Index
