import EntitySchema.Proofs.Index.Derived
import EntitySchema.Proofs.Tree.Assoc

/-!
# Indexes that are made again

The fragment of indexes is merged into the very entity that it was made for. What the entity then has are the indexes of the
fragment: those that were there in their places, with all that they had, and behind them those that fields ask for. Made
again from them, an index of the entity finds the key that it got. An index of a relation gets its key anew, but from the same
name and the same kind.

* `KeepsIndexes`, `Respects`: indexes, and a fragment, that keep the indexes of an entity.

Results:
* `HasKey.overlay`, `HasKey.keyed`: an index over what it was made of, and its key.
* `entityIndexes_overlay`, `allRelationIndexes_overlay`: indexes that are made from those that were made.
* `synthesize_overlay`: a fragment keeps the indexes of its entity, and it is the fragment of what it is merged into.
-/
namespace EntitySchema.Index

variable {c : Config} {entity fragment indexes relations more : Members Key Value} {name : Key} {defs : Members Key Value}
  {v index : Value}

/-! ## One index -/

theorem key_ne_empty (kind : IndexKind) (name : String) (limit : Int) : key kind name limit ≠ "" := by
  intro hempty
  have hlength := congrArg String.length hempty
  by_cases hfits : ((fullKey kind name).length : Int) ≤ limit
  · rw [key_of_fits hfits, fullKey, String.length_append, String.length_append] at hlength
    exact absurd hlength (by simp)
  · rw [key, if_neg hfits, String.length_ofList, List.length_append, List.length_cons] at hlength
    exact absurd hlength (by simp)

/-- A key that was made is made again from the definition that has it. -/
theorem HasNewKey.again (h : HasNewKey c name defs index) :
    ∃ keyed : Members Key Value, index = .object keyed ∧ (keyed.value "key").truthy = true ∧ HasNewKey c name keyed index := by
  obtain ⟨kind, word, hkind, hname, rfl⟩ := h
  refine ⟨_, rfl, ?_, kind, word, ?_, hname, ?_⟩
  · rw [Members.value_set, if_pos BEq.rfl]
    simp [Value.truthy, key_ne_empty]
  · rw [IndexKind.ofDefs_set_key, hkind]
  · rw [Members.set_set_of_beq BEq.rfl]

/-- An index with a new key over its definition is that index. -/
theorem HasNewKey.overlay (h : HasNewKey c name defs index) (hunique : (Value.object defs).UniqueKeys) :
    Value.overlay .override (.object defs) index = index := by
  obtain ⟨kind, word, -, -, rfl⟩ := h
  have hself : Members.merge .override defs defs = defs := by
    have h := Value.overlay_self hunique
    rw [Value.overlay_object] at h
    exact Value.object.inj h
  rw [Value.overlay_object, Members.merge_set hunique.distinct, hself, Members.mergedAt_of_not_object]
  exact fun _ => Value.noConfusion

theorem hasKey_of_truthy (h : (defs.value "key").truthy = true) : HasKey c name defs (.object defs) := by
  rw [HasKey, if_pos h]

/-- Every index has a key in the end. -/
theorem HasKey.keyed (h : HasKey c name defs index) : ∃ keyed : Members Key Value, index = .object keyed ∧ (keyed.value "key").truthy = true := by
  unfold HasKey at h
  split at h
  · rename_i hgiven
    exact ⟨defs, h, hgiven⟩
  · obtain ⟨keyed, hindex, hkey, -⟩ := h.again
    exact ⟨keyed, hindex, hkey⟩

/-- An index with its key over what it was made of is that index. -/
theorem HasKey.overlay (h : HasKey c name defs index) (hdefs : v.toMembers = .ok defs) (hunique : v.UniqueKeys) :
    Value.overlay .override v index = index := by
  cases v with
  | object members =>
    cases hdefs
    unfold HasKey at h
    split at h
    · rw [h, Value.overlay_self hunique]
    · exact h.overlay hunique
  | _ => exact Value.overlay_override_of_not_object fun _ _ hobjects => Value.noConfusion hobjects.1

/-! ## Indexes of an entity -/

theorem distinct_allOf {explicit : Members Key (Members Key Value)} {derived : Members Key Derived}
    (hd : Members.Distinct explicit) : Members.Distinct (allOf explicit derived) := by
  refine List.foldlRecOn (motive := Members.Distinct) derived _ hd fun acc hacc index _ => ?_
  unfold Members.setNew
  split
  · exact hacc
  · exact Members.distinct_set _ _ hacc

/-- Indexes that keep those of an entity: these come first, in their order, with all that they have, the key included if it is
given. Fields add theirs under new names behind them. -/
def KeepsIndexes (c : Config) (entity indexes : Members Key Value) : Prop :=
  ∃ kept added derived, indexes = kept ++ added ∧
    Members.Aligned (fun name v index => ∃ defs, v.toMembers = .ok defs ∧ HasKey c name defs index)
      (entity.value "indexes").members kept ∧
    ofFields (entity.value "fields").members = .ok derived ∧
    Members.Aligned (fun name d index => HasNewKey c name d.toValue.members index)
      (derived.filter fun index => !Members.contains (entity.value "indexes").members index.1) added

theorem keepsIndexes_of_entityIndexes (h : entityIndexes c entity = .ok indexes) : KeepsIndexes c entity indexes := by
  obtain ⟨given, explicit, fields, derived, hgiven, hread, hfields, hderived, hkeyed⟩ := entityIndexes_eq_ok_iff.1 h
  rw [allOf_eq (distinct_ofFields hderived)] at hkeyed
  obtain ⟨kept, added, rfl, hkept, hadded⟩ := Members.Aligned.append_left_iff.1 hkeyed
  unfold KeepsIndexes
  rw [← Value.givenMembers_eq_ok hgiven, ← Value.givenMembers_eq_ok hfields]
  refine ⟨kept, added, derived, rfl, hread.comp hkept, hderived, ?_⟩
  unfold Members.Aligned at hadded ⊢
  rw [List.forall₂_map_left_iff] at hadded
  simp only [hread.contains_eq, hasKey_toValue] at hadded
  exact hadded

/-- All indexes of an entity have keys. -/
theorem keyed_of_entityIndexes (h : entityIndexes c entity = .ok indexes) :
    ∀ index ∈ indexes, ∃ keyed : Members Key Value, index.2 = .object keyed ∧ (keyed.value "key").truthy = true := by
  obtain ⟨_, _, _, _, -, -, -, -, hkeyed⟩ := entityIndexes_eq_ok_iff.1 h
  intro index hindex
  obtain ⟨defs, -, hkey⟩ := hkeyed.exists_left hindex
  exact hkey.keyed

theorem distinct_of_entityIndexes (h : entityIndexes c entity = .ok indexes)
    (hd : Members.Distinct (entity.value "indexes").members) : Members.Distinct indexes := by
  obtain ⟨given, explicit, _, _, hgiven, hread, -, -, hkeyed⟩ := entityIndexes_eq_ok_iff.1 h
  rw [hkeyed.distinct_iff]
  refine distinct_allOf (hread.distinct_iff.2 ?_)
  rwa [Value.givenMembers_eq_ok hgiven]

/-- The indexes of an entity laid over those that were there are the indexes of the entity. -/
theorem overlay_of_entityIndexes (h : entityIndexes c entity = .ok indexes) (hunique : (entity.value "indexes").UniqueKeys) :
    Members.overlay (entity.value "indexes").members indexes = indexes := by
  have hd := distinct_of_entityIndexes h hunique.members.1
  obtain ⟨kept, added, _, rfl, hkept, -, -⟩ := keepsIndexes_of_entityIndexes h
  have hover : Members.Aligned (fun _ v w => Value.overlay .override v w = w) (entity.value "indexes").members kept := by
    refine hkept.imp_of_mem fun name v index hv hindex => ?_
    obtain ⟨defs, hdefs, hkey⟩ := hindex
    exact hkey.overlay hdefs (hunique.members.2 _ hv)
  exact Members.merge_eq_upper [] hover hd

/-- Made from the indexes that were made, the indexes are the same. -/
theorem entityIndexes_again {again : Members Key Value} (h : entityIndexes c entity = .ok indexes)
    (hindexes : (again.value "indexes").givenMembers = .ok indexes) (hfields : again.value "fields" = entity.value "fields") :
    entityIndexes c again = .ok indexes := by
  obtain ⟨given, explicit, fields, derived, -, -, hgiven, hderived, hkeyed⟩ := entityIndexes_eq_ok_iff.1 h
  have hread : Members.Aligned (fun _ v defs => v.toMembers = Except.ok defs) indexes
      (indexes.map fun index => (index.1, index.2.members)) := by
    refine Members.aligned_map.2 fun index hindex => ?_
    obtain ⟨keyed, hkey, -⟩ := keyed_of_entityIndexes h index hindex
    rw [hkey]
    rfl
  -- what fields ask for is there already
  have hnone : (derived.filter fun index =>
      !Members.contains (indexes.map fun index => (index.1, index.2.members)) index.1) = [] := by
    refine List.filter_eq_nil_iff.2 fun index hindex => ?_
    have hthere : Members.contains derived index.1 = true := Members.contains_iff_exists.2 ⟨index, hindex, BEq.rfl⟩
    simp [hread.contains_eq, hkeyed.contains_eq, contains_allOf, hthere]
  refine entityIndexes_eq_ok_iff.2 ⟨indexes, _, fields, derived, hindexes, hread, by rw [hfields, hgiven], hderived, ?_⟩
  rw [allOf_eq (distinct_ofFields hderived), hnone, List.map_nil, List.append_nil]
  refine List.forall₂_map_left_iff.2 (List.forall₂_same.2 fun index hindex => ⟨rfl, ?_⟩)
  obtain ⟨keyed, hkey, htruthy⟩ := keyed_of_entityIndexes h index hindex
  rw [hkey]
  exact hasKey_of_truthy htruthy

/-! ## Indexes of relations -/

/-- The indexes of a relation, made again from those that were made. -/
theorem relationIndexes_overlay {relation : Value} (h : relationIndexes c relation = .ok (some indexes))
    (hunique : relation.UniqueKeys) :
    relationIndexes c (Value.overlay .override relation (.object [("indexes", .object indexes)])) = .ok (some indexes) := by
  obtain ⟨members, given, rfl, hgiven, hne, hkeyed⟩ := relationIndexes_eq_ok_iff.1 h
  have hgivenUnique : (Value.object given).UniqueKeys := hgiven ▸ hunique.value "indexes"
  have hd : Members.Distinct indexes := hkeyed.distinct_iff.2 hgivenUnique.distinct
  have hover : given.overlay indexes = indexes := by
    have hkept : Members.Aligned (fun _ v w => Value.overlay .override v w = w) given indexes := by
      refine Members.Aligned.imp_of_mem (fun name v index hv hindex => ?_) hkeyed
      obtain ⟨defs, rfl, hkey⟩ := hindex
      exact hkey.overlay (hgivenUnique.members.2 _ hv)
    rw [← List.append_nil indexes] at hd ⊢
    exact Members.merge_eq_upper [] hkept hd
  have hkeys : indexes ≠ [] := by
    rintro rfl
    exact hne (List.forall₂_nil_right_iff.1 hkeyed)
  have hmerged : Members.value (members.overlay [("indexes", .object indexes)]) "indexes" = .object indexes := by
    rw [Members.value_overlay members (Members.distinct_singleton _ _) (Members.get?_singleton _ _), hgiven,
      Value.overlay_object]
    exact congrArg Value.object hover
  refine relationIndexes_eq_ok_iff.2 ⟨_, indexes, Value.overlay_object _ _ _, hmerged, hkeys, ?_⟩
  refine List.forall₂_same.2 fun index hindex => ⟨rfl, ?_⟩
  obtain ⟨_, -, defs, -, hkey⟩ := Members.Aligned.exists_left hkeyed hindex
  obtain ⟨keyed, hkeyed, -, hagain⟩ := hkey.again
  exact ⟨keyed, hkeyed, hagain⟩

/-- The indexes of relations, made again from those that were made; relations without indexes stay as they are. -/
theorem allRelationIndexes_overlay (front : Members Key Value) (h : allRelationIndexes c relations = .ok more)
    (hd : Members.Distinct (front ++ relations)) (hunique : ∀ relation ∈ relations, relation.2.UniqueKeys) :
    ∃ again, Members.overlay (front ++ relations) more = front ++ again ∧ allRelationIndexes c again = .ok more := by
  induction relations generalizing front more with
  | nil =>
    cases h
    exact ⟨[], Members.merge_nil _ _, rfl⟩
  | cons relation rest ih =>
    obtain ⟨name, relation⟩ := relation
    obtain ⟨hrelation, hrest⟩ := List.forall_mem_cons.1 hunique
    rw [allRelationIndexes] at h
    obtain ⟨indexes, hindexes, hstep⟩ := bind_eq_ok.1 h
    have hfront : Members.get? front name = none := Members.get?_eq_none_iff.2 (Members.distinct_split hd).1
    -- whatever the relation becomes, it joins those that are done
    have hdone : ∀ v : Value, front ++ (name, v) :: rest = front ++ [(name, v)] ++ rest := fun v => by simp
    have hdistinct : ∀ v : Value, Members.Distinct (front ++ [(name, v)] ++ rest) := fun v => by
      refine Members.distinct_of_keys_eq ?_ hd
      simp [Members.keys]
    cases indexes with
    | none =>
      obtain ⟨again, hagain, hmade⟩ := ih _ hstep (hdistinct relation) hrest
      refine ⟨(name, relation) :: again, ?_, ?_⟩
      · rw [hdone, hagain, List.append_assoc]
        rfl
      · rw [allRelationIndexes, hindexes, ok_bind]
        exact hmade
    | some indexes =>
      obtain ⟨others, hothers, hmore⟩ := bind_eq_ok.1 hstep
      cases hmore
      generalize hmerged : Value.overlay .override relation (.object [("indexes", .object indexes)]) = merged
      obtain ⟨again, hagain, hmade⟩ := ih _ hothers (hdistinct merged) hrest
      refine ⟨(name, merged) :: again, ?_, ?_⟩
      · have hfind : Members.get? (front ++ (name, relation) :: rest) name = some relation := by
          rw [Members.get?_append, hfront, Members.get?_cons, if_pos BEq.rfl]
          rfl
        rw [Members.overlay, Members.merge_cons, Members.mergedAt_of_get? hfind, hmerged,
          Members.set_append_of_get?_none _ _ hfront, Members.set, if_pos BEq.rfl, hdone, ← Members.overlay, hagain,
          List.append_assoc]
        rfl
      · rw [allRelationIndexes, ← hmerged, relationIndexes_overlay hindexes hrelation, ok_bind]
        exact bind_eq_ok.2 ⟨others, hmade, rfl⟩

/-- Every index that is made for relations has a key. -/
theorem keyed_of_allRelationIndexes (h : allRelationIndexes c relations = .ok more) {relation made : Key × Value}
    (hrelation : relation ∈ more) (hmade : made ∈ (relation.2.members.value "indexes").members) :
    (made.2.members.value "key").truthy = true := by
  obtain ⟨_, -, members, given, indexes, -, -, hindexes, hkeyed⟩ := (allRelationIndexes_aligned h).exists_left hrelation
  rw [hindexes] at hmade
  obtain ⟨_, -, defs, -, hkey⟩ := Members.Aligned.exists_left hkeyed hmade
  obtain ⟨keyed, hindex, htruthy, -⟩ := hkey.again
  rw [hindex]
  exact htruthy

/-! ## The whole -/

/-- A fragment that keeps the indexes of an entity. -/
structure Respects (c : Config) (entity fragment : Members Key Value) : Prop where
  own : KeepsIndexes c entity (fragment.value "indexes").members
  /-- The relations that have indexes keep them in their order, with all that they have but the keys. -/
  relations : Members.Aligned (fun _ => HasIndexes c)
    ((entity.value "relations").members.filter fun relation => (relation.2.members.value "indexes").truthy)
    (fragment.value "relations").members
  /-- Every index has a key. -/
  ownKeys : ∀ index ∈ (fragment.value "indexes").members, (index.2.members.value "key").truthy = true
  relationKeys : ∀ relation ∈ (fragment.value "relations").members,
    ∀ index ∈ (relation.2.members.value "indexes").members, (index.2.members.value "key").truthy = true

theorem respects_of_synthesize (h : synthesize c (.object entity) = .ok fragment) : Respects c entity fragment := by
  obtain ⟨indexes, relations, more, hindexes, hrelations, hmore, rfl⟩ := synthesize_eq_ok_iff.1 h
  refine ⟨?_, ?_, fun index hindex => ?_, fun relation hrelation index hindex => ?_⟩
  · rw [value_indexes]
    exact keepsIndexes_of_entityIndexes hindexes
  · rw [value_relations, ← Value.givenMembers_eq_ok hrelations]
    exact allRelationIndexes_aligned hmore
  · rw [value_indexes] at hindex
    obtain ⟨keyed, hkey, htruthy⟩ := keyed_of_entityIndexes hindexes index hindex
    rw [hkey]
    exact htruthy
  · rw [value_relations] at hrelation
    exact keyed_of_allRelationIndexes hmore hrelation hindex

/-- A fragment of indexes keeps those of the entity that it is made for. Merged into the entity it gives it the indexes of the
fragment, and made again the fragment is the same. -/
theorem synthesize_overlay (hunique : (Value.object entity).UniqueKeys) (h : synthesize c (.object entity) = .ok fragment) :
    Respects c entity fragment ∧
      ((entity.overlay fragment).value "indexes").members = (fragment.value "indexes").members ∧
      synthesize c (.object (entity.overlay fragment)) = .ok fragment := by
  have hrespects := respects_of_synthesize h
  have hd := (apart_of_synthesize h).1
  have hfields : (entity.overlay fragment).value "fields" = entity.value "fields" :=
    Members.value_congr (Members.get?_merge_of_none (apart_of_synthesize h).2)
  obtain ⟨indexes, relations, more, hindexes, hrelations, hmore, rfl⟩ := synthesize_eq_ok_iff.1 h
  obtain ⟨given, -, -, -, hgiven, -⟩ := entityIndexes_eq_ok_iff.1 hindexes
  have hindexesUnique := hunique.value "indexes"
  have hrelationsUnique := hunique.value "relations"
  have hown := Members.givenMembers_overlay hd (distinct_of_entityIndexes hindexes hindexesUnique.members.1)
    (get?_indexes indexes more) hgiven
  rw [Value.givenMembers_eq_ok hgiven, overlay_of_entityIndexes hindexes hindexesUnique] at hown
  have hrelationsDistinct : Members.Distinct relations := Value.givenMembers_eq_ok hrelations ▸ hrelationsUnique.members.1
  have hmoreDistinct : Members.Distinct more :=
    List.Pairwise.sublist (allRelationIndexes_eq_ok hmore).1 hrelationsDistinct
  have hbelow := Members.givenMembers_overlay hd hmoreDistinct (get?_relations indexes more) hrelations
  obtain ⟨again, hagain, hmade⟩ := allRelationIndexes_overlay [] hmore hrelationsDistinct
    (Value.givenMembers_eq_ok hrelations ▸ hrelationsUnique.members.2)
  rw [List.nil_append, List.nil_append] at hagain
  rw [hagain] at hbelow
  refine ⟨hrespects, ?_, synthesize_eq_ok_iff.2 ⟨indexes, again, more, ?_, hbelow, hmade, rfl⟩⟩
  · rw [value_indexes, ← Value.givenMembers_eq_ok hown]
  · exact entityIndexes_again hindexes hown hfields

/-- An index with a key, one without and one that is written as pairs; a field that asks for the second and one for a new one; a
relation with an index of an old key. -/
def indexedEntity : Members Key Value :=
  [("fields", .object [("byCode", .object [("index", .bool true)]), ("title", .object [("unique", .bool true)])]),
    ("indexes", .object [("byDate", .object [("key", .str "IDX_OLD"), ("columns", .list [.str "date"])]),
      ("byCode", .object [("type", .str "unique"), ("columns", .list [.str "code"])]),
      ("byPairs", .list [.list [.str "columns", .list [.str "a"]]])]),
    ("relations", .object [("leads", .object [("indexes", .object [("leadId", .object [("key", .str "OLD")])])]),
      ("tags", .object [])])]

def indexedFragment : Members Key Value :=
  [("indexes", .object [("byDate", .object [("key", .str "IDX_OLD"), ("columns", .list [.str "date"])]),
      ("byCode", .object [("type", .str "unique"), ("columns", .list [.str "code"]), ("key", .str "UNIQ_BY_CODE")]),
      ("byPairs", .object [("columns", .list [.str "a"]), ("key", .str "IDX_BY_PAIRS")]),
      ("title", .object [("type", .str "unique"), ("columns", .list [.str "title"]), ("key", .str "UNIQ_TITLE")])]),
    ("relations", .object [("leads", .object [("indexes", .object [("leadId", .object [("key", .str "IDX_LEAD_ID")])])])])]

theorem synthesize_overlay_indexedEntity : synthesize {} (.object indexedEntity) = .ok indexedFragment ∧
    synthesize {} (.object (indexedEntity.overlay indexedFragment)) = .ok indexedFragment := by
  have hunique : (Value.object indexedEntity).UniqueKeys := by decide
  exact ⟨rfl, (synthesize_overlay hunique rfl).2.2⟩

end EntitySchema.Index
