import EntitySchema.Proofs.Index.Flags
import EntitySchema.Proofs.Record.Fits

/-!
# Indexes that give a result

Of an index it is open what its flags are, and the kind of an index is read from them. That fails exactly on flags that are
given and have no words inside: a true value or a number. An index that an entity declares with a key is not read at all; one
that a relation declares always is.

* `IndexKind.readable`: whether the kind of an index can be read.

Results:
* `ofDefs_isOk_iff`: when the kind of an index is read.
* `synthesize_isOk_iff`: when an entity gets its indexes.
-/
namespace EntitySchema

/-- Whether a value can be asked for a text: it has keys, elements or texts inside. -/
def Value.holdsTexts : Value → Bool
  | object _ => true
  | list _ => true
  | str _ => true
  | _ => false

theorem Value.holds_text_isOk_iff {v : Value} {s : String} : (∃ b, v.holds (.str s) = .ok b) ↔ v.holdsTexts = true := by
  cases v <;> simp [holds, holdsTexts, key, scalar?, Except.map]

/-- Whether the kind of an index can be read: its type says that it is unique, or its flags are not given or can be asked. -/
def IndexKind.readable (defs : Members Key Value) : Bool :=
  (defs.value "type").isText unique.word || !(defs.value "flags").truthy || (defs.value "flags").holdsTexts

theorem IndexKind.ofDefs_isOk_iff {defs : Members Key Value} :
    (∃ kind, ofDefs defs = .ok kind) ↔ readable defs = true := by
  unfold ofDefs readable
  simp only
  by_cases htype : (defs.value "type").isText unique.word = true
  · simp only [htype, if_true, Bool.true_or, iff_true]
    exact ⟨unique, rfl⟩
  · have hflags : (if (defs.value "flags").truthy then defs.value "flags" else .list []).holdsTexts = 
        (!(defs.value "flags").truthy || (defs.value "flags").holdsTexts) := by
      cases (defs.value "flags").truthy <;> rfl
    rw [Bool.not_eq_true] at htype
    rw [htype, Bool.false_or, ← hflags, ← Value.holds_text_isOk_iff (s := unique.word)]
    generalize (if (defs.value "flags").truthy then defs.value "flags" else Value.list []) = flags
    simp only [Bool.false_eq_true, if_false]
    rw [bind_isOk_iff]
    -- flags that can be asked for one word can be asked for the other
    refine exists_congr fun isUnique => and_iff_left_of_imp fun hunique => ?_
    obtain ⟨isFullText, hfull⟩ := Value.holds_text_isOk_iff (s := fullText.word).2 (Value.holds_text_isOk_iff.1 ⟨_, hunique⟩)
    cases isUnique with
    | true => exact ⟨unique, rfl⟩
    | false =>
      refine bind_isOk_iff.2 ⟨isFullText, hfull, ?_⟩
      cases isFullText <;> exact ⟨_, rfl⟩
namespace Index

variable {c : Config}

theorem keyFor_isOk_iff (c : Config) (name : String) {defs : Members Key Value} :
    (∃ key, keyFor c (.text name) defs = .ok key) ↔ IndexKind.readable defs = true := by
  rw [← IndexKind.ofDefs_isOk_iff]
  exact bind_isOk_of_total fun kind => ⟨_, rfl⟩

theorem withKey_isOk_iff {name : String} {defs : Members Key Value} :
    (∃ keyed, withKey c (.text name) defs = .ok keyed) ↔
      (defs.value "key").truthy = true ∨ IndexKind.readable defs = true := by
  rw [← keyFor_isOk_iff c name]
  unfold withKey
  split
  · rename_i hgiven
    exact ⟨fun _ => .inl hgiven, fun _ => ⟨defs, rfl⟩⟩
  · rename_i hgiven
    rw [map_isOk_iff]
    exact (or_iff_right hgiven).symm

theorem withNewKey_isOk_iff (c : Config) (name : String) {defs : Members Key Value} :
    (∃ keyed, withNewKey c (.text name) (.object defs) = .ok keyed) ↔ IndexKind.readable defs = true := by
  rw [← keyFor_isOk_iff c name]
  have hspread : (Value.object defs).spread = .ok defs := rfl
  unfold withNewKey
  rw [hspread, ok_bind]
  exact bind_isOk_of_total fun key => ⟨_, rfl⟩

/-! ## Indexes of an entity -/

theorem named_addField {indexes : Members Key Derived} {field : String} {params : Members Key Value}
    (h : Members.Named indexes) : Members.Named (addField indexes (.text field) params) := by
  rcases addField_cases (.text field) params with ⟨-, hsame⟩ | ⟨request, kind, -, -, -, hset⟩
  · rwa [hsame]
  · obtain ⟨name, hname⟩ := request.exists_text field
    rw [hset, hname]
    intro entry he
    rcases Members.mem_set he with he | ⟨hkey, -⟩
    · exact h entry he
    · exact ⟨name, Key.beq_text.1 hkey⟩

/-- The indexes that fields ask for. -/
theorem ofFields_yields {fields : Members Key Value} (h : fields.Objects) : Yields (ofFields fields) Members.Named := by
  unfold ofFields
  refine yields_foldlM (fun acc field hfield hacc => ?_) fun _ he => absurd he List.not_mem_nil
  obtain ⟨⟨name, hname⟩, below, hbelow⟩ := h field hfield
  rw [hname, hbelow]
  exact yields_ok (named_addField hacc)

/-- The indexes that are there, followed by those that fields ask for. -/
def allOf (explicit : Members Key (Members Key Value)) (derived : Members Key Derived) : Members Key (Members Key Value) :=
  derived.foldl (fun acc index => Members.setNew acc index.1 index.2.toValue.members) explicit

/-- The indexes that fields ask for come under new names behind those that are there. -/
theorem allOf_eq {derived : Members Key Derived} (hd : Members.Distinct derived) (explicit : Members Key (Members Key Value)) :
    allOf explicit derived = explicit ++
      (derived.filter fun index => !Members.contains explicit index.1).map fun index => (index.1, index.2.toValue.members) := by
  induction derived generalizing explicit with
  | nil => exact (List.append_nil explicit).symm
  | cons index rest ih =>
    obtain ⟨name, d⟩ := index
    obtain ⟨hne, hrest⟩ := Members.distinct_cons.1 hd
    show allOf (explicit.setNew name d.toValue.members) rest = _
    rw [ih hrest]
    cases hthere : Members.contains explicit name with
    | true => simp [Members.setNew, hthere]
    | false =>
      have hnone : Members.get? explicit name = none := by simpa [Members.contains] using hthere
      -- the name that was added is none of the names to come
      have hsame : (rest.filter fun index => !Members.contains (explicit ++ [(name, d.toValue.members)]) index.1) =
          rest.filter fun index => !Members.contains explicit index.1 := by
        refine List.filter_congr fun index hindex => ?_
        rw [Members.contains, Members.get?_append, Members.get?_cons, hne index hindex]
        simp [Members.contains]
      rw [Members.setNew, hthere, if_neg Bool.false_ne_true, Members.set_of_get?_none _ hnone, hsame,
        List.filter_cons_of_pos (by simp [hthere]), List.append_assoc]
      rfl

/-- An index of an entity is there already, or a field asks for it. -/
theorem mem_allOf {explicit : Members Key (Members Key Value)} {derived : Members Key Derived} (hd : Members.Distinct derived)
    {index : Key × Members Key Value} (h : index ∈ allOf explicit derived) :
    index ∈ explicit ∨ ∃ d, (index.1, d) ∈ derived ∧ index.2 = d.toValue.members := by
  rw [allOf_eq hd, List.mem_append] at h
  refine h.imp_right fun hindex => ?_
  obtain ⟨one, hone, rfl⟩ := List.mem_map.1 hindex
  exact ⟨one.2, List.mem_of_mem_filter hone, rfl⟩

theorem readable_toValue (d : Derived) : IndexKind.readable d.toValue.members = true := by
  simp [IndexKind.readable, Derived.toValue, Members.value, Members.get?_cons, Value.truthy]

/-- Whether an index that an entity declares can be given a key: it has one, or its kind can be read. -/
def keyable (index : Key × Value) : Prop :=
  (index.2.members.value "key").truthy = true ∨ IndexKind.readable index.2.members = true

theorem mapM_toMembers {declared : Members Key Value} (h : declared.Objects) :
    (declared.mapM fun index => do return (index.1, ← index.2.toMembers) : Except Misuse (Members Key (Members Key Value))) =
      .ok (declared.map fun index => (index.1, index.2.members)) := by
  refine mapM_eq_map fun index hindex => ?_
  obtain ⟨-, below, hbelow⟩ := h index hindex
  rw [hbelow]
  rfl

theorem mapM_withKey_isOk_iff {all : Members Key (Members Key Value)} :
    (∃ indexes, (all.mapM fun index => do return (index.1, Value.object (← withKey c index.1 index.2))) = .ok indexes) ↔
      ∀ index ∈ all, ∃ keyed, withKey c index.1 index.2 = .ok keyed := by
  rw [mapM_isOk_iff]
  exact forall₂_congr fun index _ => bind_isOk_of_total fun keyed => ⟨_, rfl⟩

/-- An entity gets its indexes exactly if those that it declares can be given keys. -/
theorem entityIndexes_isOk_iff {entity fields : Members Key Value}
    (hindexes : (Record.Shape.nullable Record.objects).Fits (entity.value "indexes"))
    (hfields : Members.get? entity "fields" = some (.object fields)) (hobjects : fields.Objects) :
    (∃ indexes, entityIndexes c entity = .ok indexes) ↔ ∀ index ∈ (entity.value "indexes").members, keyable index := by
  obtain ⟨hgiven, hdeclared⟩ := Record.objects_of_fits hindexes
  have hfieldsGiven := Members.givenMembers_of_get? hfields
  generalize (entity.value "indexes").members = declared at hgiven hdeclared ⊢
  obtain ⟨derived, hderived, hnamed⟩ := ofFields_yields hobjects
  have hd := distinct_ofFields hderived
  have hall : entityIndexes c entity =
      (allOf (declared.map fun index => (index.1, index.2.members)) derived).mapM fun index => do
        return (index.1, Value.object (← withKey c index.1 index.2)) := by
    unfold entityIndexes allOf
    rw [hgiven, ok_bind, mapM_toMembers hdeclared, ok_bind, hfieldsGiven, ok_bind, hderived, ok_bind]
  rw [hall, mapM_withKey_isOk_iff]
  constructor
  · intro h index hindex
    obtain ⟨⟨name, hname⟩, -⟩ := hdeclared index hindex
    have hthere : (index.1, index.2.members) ∈ allOf (declared.map fun index => (index.1, index.2.members)) derived := by
      rw [allOf_eq hd]
      exact List.mem_append_left _ (List.mem_map_of_mem hindex)
    have hkeyed := h _ hthere
    rw [hname] at hkeyed
    exact withKey_isOk_iff.1 hkeyed
  · intro h index hindex
    rcases mem_allOf hd hindex with hindex | ⟨d, hasked, hdefs⟩
    · obtain ⟨original, horiginal, rfl⟩ := List.mem_map.1 hindex
      obtain ⟨⟨name, hname⟩, -⟩ := hdeclared original horiginal
      rw [hname]
      exact withKey_isOk_iff.2 (h original horiginal)
    · obtain ⟨name, hname⟩ := hnamed _ hasked
      rw [hdefs, show index.1 = .text name from hname]
      exact withKey_isOk_iff.2 (.inr (readable_toValue d))

/-! ## Indexes of relations -/

/-- Whether the kinds of all indexes that a relation declares can be read. -/
def readableIn (relation : Members Key Value) : Prop :=
  ∀ index ∈ (relation.value "indexes").members, IndexKind.readable index.2.members = true

/-- A relation gets its indexes exactly if the kinds of all can be read. -/
theorem relationIndexes_isOk_iff {relation : Members Key Value}
    (hindexes : (Record.Shape.nullable Record.objects).Fits (relation.value "indexes")) :
    (∃ indexes, relationIndexes c (.object relation) = .ok indexes) ↔ readableIn relation := by
  obtain ⟨hgiven, hdeclared⟩ := Record.objects_of_fits hindexes
  unfold relationIndexes readableIn
  rw [Value.lookup_object]
  generalize relation.value "indexes" = indexes at hgiven hdeclared ⊢
  have hkeyed : (∃ keyed, (indexes.members.mapM fun index => do return (index.1, ← withNewKey c index.1 index.2)) = .ok keyed) ↔
      ∀ index ∈ indexes.members, IndexKind.readable index.2.members = true := by
    rw [mapM_isOk_iff]
    refine forall₂_congr fun index hindex => ?_
    obtain ⟨⟨name, hname⟩, below, hbelow⟩ := hdeclared index hindex
    rw [hname, hbelow, Value.members_object, ← withNewKey_isOk_iff c name]
    exact bind_isOk_of_total fun keyed => ⟨_, rfl⟩
  rw [← hkeyed, ok_bind]
  cases htruthy : indexes.truthy with
  | true =>
    have hopen : indexes.openMembers = .ok indexes.members := by
      rw [Value.givenMembers, if_pos htruthy] at hgiven
      exact hgiven
    rw [if_pos rfl, hopen, ok_bind]
    exact bind_isOk_of_total fun keyed => ⟨_, rfl⟩
  | false =>
    have hnone : indexes.members = [] := by
      rw [Value.givenMembers, htruthy] at hgiven
      exact (Except.ok.inj hgiven).symm
    rw [hnone]
    exact ⟨fun _ => ⟨[], rfl⟩, fun _ => ⟨none, rfl⟩⟩

/-- The relations of an entity get their indexes exactly if the kinds of all can be read. -/
theorem allRelationIndexes_isOk_iff {relations : Members Key Value}
    (h : ∀ entry ∈ relations, ∃ relation : Members Key Value, entry.2 = .object relation ∧
      (Record.Shape.nullable Record.objects).Fits (relation.value "indexes")) :
    (∃ indexes, allRelationIndexes c relations = .ok indexes) ↔ ∀ entry ∈ relations, readableIn entry.2.members := by
  induction relations with
  | nil => exact ⟨fun _ _ he => absurd he List.not_mem_nil, fun _ => ⟨[], rfl⟩⟩
  | cons entry rest ih =>
    obtain ⟨name, v⟩ := entry
    obtain ⟨relation, rfl, hindexes⟩ := h _ List.mem_cons_self
    have hrest := ih fun entry he => h entry (List.mem_cons_of_mem _ he)
    rw [List.forall_mem_cons, ← hrest, Value.members_object, ← relationIndexes_isOk_iff (c := c) hindexes]
    rw [allRelationIndexes, bind_isOk_iff, ← exists_and_right]
    refine exists_congr fun found => and_congr_right fun _ => ?_
    cases found with
    | none => exact Iff.rfl
    | some indexes => exact bind_isOk_of_total fun more => ⟨_, rfl⟩

/-- An entity gets its indexes exactly if those that it declares can be given keys and those of its relations can be read. -/
theorem synthesize_isOk_iff {entity fields relations : Members Key Value}
    (hindexes : (Record.Shape.nullable Record.objects).Fits (entity.value "indexes"))
    (hfields : Members.get? entity "fields" = some (.object fields)) (hobjects : fields.Objects)
    (hrelations : Members.get? entity "relations" = some (.object relations))
    (hdeclared : ∀ entry ∈ relations, ∃ relation : Members Key Value, entry.2 = .object relation ∧
      (Record.Shape.nullable Record.objects).Fits (relation.value "indexes")) :
    (∃ found, synthesize c (.object entity) = .ok found) ↔
      (∀ index ∈ (entity.value "indexes").members, keyable index) ∧ ∀ entry ∈ relations, readableIn entry.2.members := by
  have hgiven := Members.givenMembers_of_get? hrelations
  rw [← entityIndexes_isOk_iff (c := c) hindexes hfields hobjects, ← allRelationIndexes_isOk_iff (c := c) hdeclared]
  have hopen : (Value.object entity).openMembers = .ok entity := rfl
  unfold synthesize
  rw [hopen, ok_bind, hgiven, bind_isOk_iff, ← exists_and_right]
  refine exists_congr fun own => and_congr_right fun _ => ?_
  rw [ok_bind]
  exact bind_isOk_of_total fun more => ⟨_, rfl⟩

end Index

end EntitySchema
