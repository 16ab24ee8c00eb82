import EntitySchema.Proofs.Index.Fragment

/-!
# A field more

A field is put anywhere among the fields of an entity. If it asks for an index of a name that is free, that index is made where
the field stands in the scan, and all that the fields before and after it do to other indexes is done beside it.

* `Unrelated`: a field that asks for no index, or for one of a free name.
* `WithNewIndex`: indexes, and the same with the one that a field asks for.

Results:
* `contains_foldl_addField`: which indexes there are after fields were added.
* `withOne_addField`, `withOne_foldl_addField`: what other fields do is done beside the new index.
* `ofFields_insert`, `entityIndexes_insert`: the indexes that fields ask for, and those of an entity, with the new one.
* `synthesize_insert`: an unrelated field disturbs no index.
-/
namespace EntitySchema

namespace Index

open Members (WithOne)

variable {c : Config} {entity fragment indexes fields before after params : Members Key Value} {derived derived' : Members Key Derived}
  {new : Key × Derived} {name : Key}

/-! ## Fields one after the other -/

/-- After a field was added there is the index that it asks for, besides those that were there. -/
theorem contains_addField (derived : Members Key Derived) (field : Key × Value) (name : Key) :
    Members.contains (addField derived field.1 field.2.members) name = (Members.contains derived name || asks name field) := by
  rcases addField_cases field.1 field.2.members with ⟨hnone, hsame⟩ | ⟨request, kind, hrequest, -, -, hset⟩
  · rw [hsame, asks, hnone]
    exact (Bool.or_false _).symm
  · rw [hset, asks, hrequest, Members.contains_set, Bool.or_comm]
    rfl

/-- After fields were added there are the indexes that they ask for, besides those that were there. -/
theorem contains_foldl_addField (derived : Members Key Derived) (fields : Members Key Value) (name : Key) :
    Members.contains (fields.foldl (fun acc field => addField acc field.1 field.2.members) derived) name =
      (Members.contains derived name || fields.any (asks name)) := by
  induction fields generalizing derived with
  | nil => exact (Bool.or_false _).symm
  | cons field rest ih => rw [List.foldl_cons, ih, contains_addField, List.any_cons, Bool.or_assoc]

/-- What another field does is done beside the new index. -/
theorem withOne_addField (h : WithOne new derived derived') {field : Key × Value} (hother : asks new.1 field = false) :
    WithOne new (addField derived field.1 field.2.members) (addField derived' field.1 field.2.members) := by
  rcases addField_cases field.1 field.2.members with ⟨-, hsame⟩ | ⟨request, kind, hrequest, -, -, hset⟩
  · rwa [hsame, hsame]
  · have hne : (new.1 == request.name field.1) = false := by
      rw [asks, hrequest] at hother
      rw [BEq.comm]
      exact hother
    have hindex : request.index derived' kind field.1 = request.index derived kind field.1 := by
      cases request with
      | own => rfl
      | shared other =>
        rw [Request.name] at hne
        simp only [Request.index, h.get?_eq hne]
    rw [hset, hset, hindex]
    exact h.set hne _

/-- What other fields do is done beside the new index. -/
theorem withOne_foldl_addField (h : WithOne new derived derived') (hother : fields.any (asks new.1) = false) :
    WithOne new (fields.foldl (fun acc field => addField acc field.1 field.2.members) derived)
      (fields.foldl (fun acc field => addField acc field.1 field.2.members) derived') := by
  induction fields generalizing derived derived' with
  | nil => exact h
  | cons field rest ih =>
    rw [List.any_cons, Bool.or_eq_false_iff] at hother
    exact ih (withOne_addField h hother.1) hother.2

/-- The indexes that fields ask for, with those of a field that asks for one of a free name. -/
theorem ofFields_insert {field : Key} (h : ofFields (before ++ after) = .ok derived)
    (hfree : ∀ request, request? params = some request → Members.contains derived (request.name field) = false) :
    ∃ derived', ofFields (before ++ (field, .object params) :: after) = .ok derived' ∧
      (request? params = none ∧ derived' = derived ∨ ∃ request kind, request? params = some request ∧
        fieldKind? params = some kind ∧ WithOne (request.name field, ⟨kind, [field]⟩) derived derived') := by
  obtain ⟨hobjects, rfl⟩ := ofFields_eq_ok_iff.1 h
  have hall : ∀ one ∈ before ++ (field, .object params) :: after, ∃ params, one.2 = .object params := by
    simp only [List.forall_mem_append, List.forall_mem_cons] at hobjects ⊢
    exact ⟨hobjects.1, ⟨params, rfl⟩, hobjects.2⟩
  refine ⟨_, ofFields_eq_ok_iff.2 ⟨hall, rfl⟩, ?_⟩
  rw [List.foldl_append, List.foldl_append, List.foldl_cons]
  rw [List.foldl_append] at hfree
  generalize before.foldl (fun acc field => addField acc field.1 field.2.members) [] = scanned at hfree ⊢
  simp only [Value.members_object]
  rcases addField_cases field params with ⟨hnone, hsame⟩ | ⟨request, kind, hrequest, -, hkind, hset⟩
  · exact .inl ⟨hnone, by rw [hsame]⟩
  · have hname := hfree request hrequest
    rw [contains_foldl_addField, Bool.or_eq_false_iff] at hname
    have hscanned : Members.get? scanned (request.name field) = none := by
      simpa [Members.contains] using hname.1
    have hindex : request.index scanned kind field = ⟨kind, [field]⟩ := by
      cases request with
      | own => rfl
      | shared other =>
        rw [Request.name] at hscanned
        simp only [Request.index, hscanned]
    refine .inr ⟨request, kind, hrequest, hkind, withOne_foldl_addField ?_ hname.2⟩
    refine ⟨scanned, [], (List.append_nil _).symm, ?_⟩
    exact (hset scanned).trans (by rw [hindex, Members.set_of_get?_none _ hscanned])

/-! ## Indexes of an entity -/

theorem withOne_allOf (h : WithOne new derived derived') (hd : Members.Distinct derived) (hd' : Members.Distinct derived')
    {explicit : Members Key (Members Key Value)} (hfree : Members.contains explicit new.1 = false) :
    WithOne (new.1, new.2.toValue.members) (allOf explicit derived) (allOf explicit derived') := by
  rw [allOf_eq hd, allOf_eq hd']
  obtain ⟨front, back, rfl, rfl⟩ := h
  rw [List.filter_append, List.filter_append, List.filter_cons_of_pos (by rw [hfree]; rfl), List.map_append, List.map_append,
    List.map_cons, ← List.append_assoc, ← List.append_assoc]
  exact ⟨_, _, rfl, rfl⟩

/-- A field that asks for no index, or for one of a name that neither an index of the entity has nor one that the other fields
ask for. -/
def Unrelated (entity others : Members Key Value) (field : Key) (params : Members Key Value) : Prop :=
  ∀ request, request? params = some request → Members.contains (entity.value "indexes").members (request.name field) = false ∧
    ∀ derived, ofFields others = .ok derived → Members.contains derived (request.name field) = false

/-- Indexes, and the same with the one that a field asks for, which is over that field alone. -/
def WithNewIndex (c : Config) (field : Key) (params indexes indexes' : Members Key Value) : Prop :=
  request? params = none ∧ indexes' = indexes ∨
    ∃ request kind index, request? params = some request ∧ fieldKind? params = some kind ∧
      HasNewKey c (request.name field) (Derived.toValue ⟨kind, [field]⟩).members index ∧
      WithOne (request.name field, index) indexes indexes'

theorem exists_hasNewKey (c : Config) (name : String) (d : Derived) : ∃ index, HasNewKey c (.text name) d.toValue.members index := by
  obtain ⟨kind, hkind⟩ := IndexKind.ofDefs_isOk_iff.2 (readable_toValue d)
  exact ⟨_, kind, name, hkind, rfl, rfl⟩

/-- An unrelated field changes no index of an entity. -/
theorem entityIndexes_insert {again : Members Key Value} {field : String} (h : entityIndexes c entity = .ok indexes)
    (hfields : (entity.value "fields").members = before ++ after)
    (hnew : Unrelated entity (before ++ after) (.text field) params)
    (hindexes : again.value "indexes" = entity.value "indexes")
    (hagain : again.value "fields" = .object (before ++ (.text field, .object params) :: after)) :
    ∃ indexes', entityIndexes c again = .ok indexes' ∧ WithNewIndex c (.text field) params indexes indexes' := by
  obtain ⟨given, explicit, fields, derived, hgiven, hread, hfieldsGiven, hderived, hkeyed⟩ := entityIndexes_eq_ok_iff.1 h
  rw [Value.givenMembers_eq_ok hfieldsGiven, hfields] at hderived
  obtain ⟨derived', hderived', hadded⟩ := ofFields_insert hderived fun request hrequest => (hnew request hrequest).2 _ hderived
  have hmake : ∀ {indexes'}, Members.Aligned (HasKey c) (allOf explicit derived') indexes' →
      entityIndexes c again = .ok indexes' := fun hkeyed' =>
    entityIndexes_eq_ok_iff.2 ⟨given, explicit, _, derived', by rw [hindexes, hgiven], hread,
      by rw [hagain, Value.givenMembers_object], hderived', hkeyed'⟩
  rcases hadded with ⟨hnone, rfl⟩ | ⟨request, kind, hrequest, hkind, hone⟩
  · exact ⟨indexes, hmake hkeyed, .inl ⟨hnone, rfl⟩⟩
  · obtain ⟨name, hname⟩ := request.exists_text field
    obtain ⟨index, hindex⟩ := exists_hasNewKey c name ⟨kind, [.text field]⟩
    rw [← hname] at hindex
    have hfree : Members.contains explicit (request.name (.text field)) = false := by
      rw [hread.contains_eq, Value.givenMembers_eq_ok hgiven]
      exact (hnew request hrequest).1
    have hall := withOne_allOf hone (distinct_ofFields hderived) (distinct_ofFields hderived') hfree
    obtain ⟨indexes', hkeyed', hwith⟩ := hkeyed.withOne hall (hasKey_toValue.2 hindex)
    exact ⟨indexes', hmake hkeyed', .inr ⟨request, kind, index, hrequest, hkind, hindex, hwith⟩⟩

/-! ## The fragment -/

/-- An unrelated field disturbs no index: all stay as they are, in their order, and at most the one that the field asks for is
added. -/
theorem synthesize_insert {field : String} (hfields : (entity.value "fields").members = before ++ after)
    (hnew : Unrelated entity (before ++ after) (.text field) params) (h : synthesize c (.object entity) = .ok fragment) :
    ∃ fragment', synthesize c (.object (entity.set "fields" (.object (before ++ (.text field, .object params) :: after)))) =
        .ok fragment' ∧
      WithNewIndex c (.text field) params (fragment.value "indexes").members (fragment'.value "indexes").members ∧
      fragment'.value "relations" = fragment.value "relations" := by
  have hvalue : ∀ key ≠ Key.text "fields", Members.value (entity.set "fields"
      (.object (before ++ (.text field, .object params) :: after))) key = entity.value key := fun key hkey => by
    rw [Members.value_set, if_neg (by simpa using hkey)]
  obtain ⟨indexes, relations, more, hindexes, hrelations, hmore, rfl⟩ := synthesize_eq_ok_iff.1 h
  obtain ⟨indexes', hindexes', hwith⟩ := entityIndexes_insert hindexes hfields hnew (hvalue _ (by simp))
    (by rw [Members.value_set, if_pos BEq.rfl])
  refine ⟨_, synthesize_eq_ok_iff.2 ⟨indexes', relations, more, hindexes', ?_, hmore, rfl⟩, ?_, ?_⟩
  · rw [hvalue _ (by simp), hrelations]
  · rwa [value_indexes, value_indexes]
  · rw [Members.value, Members.value, get?_relations, get?_relations]

/-- Fields that share an index on both sides of a place, and an index that is there. -/
def parted : Members Key Value :=
  [("fields", .object [("parentId", .object [("index", .str "parent")]), ("parentType", .object [("index", .str "parent")])]),
    ("indexes", .object [("byDate", .object [("columns", .list [.str "date"])])])]

/-- A unique field in that place. -/
theorem synthesize_insert_parted : ∃ fragment', synthesize {} (.object (parted.set "fields" (.object
      [("parentId", .object [("index", .str "parent")]), ("code", .object [("unique", .bool true)]),
        ("parentType", .object [("index", .str "parent")])]))) = .ok fragment' ∧
    WithNewIndex {} "code" [("unique", .bool true)]
      [("byDate", .object [("columns", .list [.str "date"]), ("key", .str "IDX_BY_DATE")]),
        ("parent", .object [("type", .str "index"), ("columns", .list [.str "parentId", .str "parentType"]),
          ("key", .str "IDX_PARENT")])]
      (fragment'.value "indexes").members := by
  have hnew : Unrelated parted ([(.text "parentId", Value.object [("index", .str "parent")])] ++
      [(.text "parentType", .object [("index", .str "parent")])]) (.text "code") [("unique", .bool true)] := by
    rintro request hrequest
    cases hrequest
    refine ⟨rfl, fun derived hderived => ?_⟩
    cases hderived
    rfl
  obtain ⟨fragment', hmade, hwith, -⟩ := synthesize_insert (c := {}) rfl hnew rfl
  exact ⟨fragment', hmade, hwith⟩

end Index

end EntitySchema
