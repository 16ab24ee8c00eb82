import EntitySchema.Proofs.Index.Flags
import EntitySchema.Proofs.Index.Total
import EntitySchema.Proofs.Tree.Overlay

/-!
# The fragment of indexes

The fragment that gives an entity its indexes has those of the entity first and then those of its relations. An index of the
entity keeps the key that it is given. A key that is not given, and the key of every index of a relation, is made from the
name of the index and its kind.

* `HasNewKey`, `HasKey`: an index that got its key.
* `HasIndexes`: a relation whose indexes got their keys.

Results:
* `entityIndexes_eq_ok_iff`: the indexes of an entity, index by index.
* `allRelationIndexes_aligned`: the indexes of its relations, relation by relation.
* `synthesize_eq_ok_iff`, `get?_indexes`, `get?_relations`: the fragment and its two parts.
* `members_indexes_overlay`, `get?_relations_overlay`: what an entity has after the fragment is laid over it.
-/
namespace EntitySchema

namespace Members

variable {κ α β ε : Type} {R : κ → α → β → Prop} {m : Members κ α} {m' : Members κ β}

/-- A step that gives a value under a name. -/
theorem named_eq_ok_iff {γ : Type} {x : Except ε γ} {g : γ → β} {name : κ} {entry : κ × β} :
    (do return (name, g (← x)) : Except ε (κ × β)) = .ok entry ↔ name = entry.1 ∧ ∃ a, x = .ok a ∧ g a = entry.2 := by
  rw [bind_eq_ok]
  constructor
  · intro h
    obtain ⟨a, ha, hentry⟩ := h
    cases hentry
    exact ⟨rfl, a, ha, rfl⟩
  · intro h
    obtain ⟨rfl, a, ha, hvalue⟩ := h
    exact ⟨a, ha, congrArg Except.ok (Prod.ext rfl hvalue)⟩

/-- Members that are made one by one under the same names. -/
theorem mapM_aligned_iff {f : κ × α → Except ε (κ × β)} (h : ∀ a b, f a = .ok b ↔ a.1 = b.1 ∧ R a.1 a.2 b.2) :
    m.mapM f = .ok m' ↔ Aligned R m m' := by
  rw [mapM_eq_ok_iff, Aligned]
  simp only [h]

end Members

/-- The kind of an index does not depend on its key. -/
theorem IndexKind.ofDefs_set_key (defs : Members Key Value) (v : Value) :
    IndexKind.ofDefs (defs.set "key" v) = IndexKind.ofDefs defs := by
  have hflags : Members.value (defs.set "key" v) "flags" = defs.value "flags" := by
    rw [Members.value_set, if_neg (by simp)]
  have htype : Members.value (defs.set "key" v) "type" = defs.value "type" := by
    rw [Members.value_set, if_neg (by simp)]
  unfold IndexKind.ofDefs
  rw [hflags, htype]

namespace Index

variable {c : Config} {entity indexes found relations more : Members Key Value}

/-! ## Keys -/

/-- An index with a key that is made from its name and its kind; all else is as the definition has it. -/
def HasNewKey (c : Config) (name : Key) (defs : Members Key Value) (index : Value) : Prop :=
  ∃ kind word, IndexKind.ofDefs defs = .ok kind ∧ name = .text word ∧
    index = .object (defs.set "key" (.str (key kind word c.indexNameMaxLength)))

/-- An index with the key that its definition gives, or with one that is made if none is given. -/
def HasKey (c : Config) (name : Key) (defs : Members Key Value) (index : Value) : Prop :=
  if (defs.value "key").truthy then index = .object defs else HasNewKey c name defs index

theorem keyFor_eq_ok_iff {name : Key} {defs : Members Key Value} {v : Value} :
    keyFor c name defs = .ok v ↔ ∃ kind word, IndexKind.ofDefs defs = .ok kind ∧ name = .text word ∧
      v = .str (key kind word c.indexNameMaxLength) := by
  unfold keyFor
  rw [bind_eq_ok]
  refine exists_congr fun kind => ?_
  cases name with
  | text word =>
    rw [Key.word_text, ok_bind]
    constructor
    · intro h
      exact ⟨word, h.1, rfl, (Except.ok.inj h.2).symm⟩
    · rintro ⟨_, hkind, hword, rfl⟩
      cases hword
      exact ⟨hkind, rfl⟩
  | _ =>
    constructor
    · exact fun h => nomatch h.2
    · rintro ⟨_, -, hword, -⟩
      cases hword

theorem withKey_eq_ok_iff {name : Key} {defs : Members Key Value} {index : Value} :
    (∃ keyed, withKey c name defs = .ok keyed ∧ Value.object keyed = index) ↔ HasKey c name defs index := by
  unfold withKey HasKey
  split
  · constructor
    · rintro ⟨keyed, hkeyed, rfl⟩
      cases hkeyed
      rfl
    · rintro rfl
      exact ⟨defs, rfl, rfl⟩
  · simp only [map_eq_ok, keyFor_eq_ok_iff]
    constructor
    · rintro ⟨_, ⟨_, ⟨kind, word, hkind, hname, rfl⟩, rfl⟩, rfl⟩
      exact ⟨kind, word, hkind, hname, rfl⟩
    · rintro ⟨kind, word, hkind, hname, rfl⟩
      exact ⟨_, ⟨_, ⟨kind, word, hkind, hname, rfl⟩, rfl⟩, rfl⟩

theorem withNewKey_eq_ok_iff {name : Key} {defs index : Value} :
    withNewKey c name defs = .ok index ↔ ∃ members, defs = .object members ∧ HasNewKey c name members index := by
  unfold withNewKey
  simp only [bind_eq_ok, Value.spread_eq_ok, keyFor_eq_ok_iff]
  refine exists_congr fun members => and_congr_right fun _ => ?_
  constructor
  · rintro ⟨_, ⟨kind, word, hkind, hname, rfl⟩, hindex⟩
    cases hindex
    exact ⟨kind, word, hkind, hname, rfl⟩
  · rintro ⟨kind, word, hkind, hname, rfl⟩
    exact ⟨_, ⟨kind, word, hkind, hname, rfl⟩, rfl⟩

/-- An index that a field asks for has no key of its own. -/
theorem hasKey_toValue {name : Key} {d : Derived} {index : Value} :
    HasKey c name d.toValue.members index ↔ HasNewKey c name d.toValue.members index := by
  have hnone : d.toValue.members.value "key" = .null := by
    simp [Derived.toValue, Members.value, Members.get?_cons]
  rw [HasKey, hnone, if_neg (by simp [Value.truthy])]

/-! ## Indexes of an entity -/

/-- The indexes of an entity, index by index. -/
theorem entityIndexes_eq_ok_iff : entityIndexes c entity = .ok indexes ↔
    ∃ given explicit fields derived, (entity.value "indexes").givenMembers = .ok given ∧
      Members.Aligned (fun _ v defs => v.toMembers = .ok defs) given explicit ∧
      (entity.value "fields").givenMembers = .ok fields ∧ ofFields fields = .ok derived ∧
      Members.Aligned (HasKey c) (allOf explicit derived) indexes := by
  have hread : ∀ (given : Members Key Value) (explicit : Members Key (Members Key Value)),
      (given.mapM fun index => do return (index.1, ← index.2.toMembers)) = Except.ok explicit ↔
        Members.Aligned (fun _ v defs => v.toMembers = .ok defs) given explicit := fun given explicit =>
    Members.mapM_aligned_iff fun _ _ => (Members.named_eq_ok_iff (g := id)).trans (by simp)
  have hkeyed : ∀ all : Members Key (Members Key Value),
      (all.mapM fun index => do return (index.1, Value.object (← withKey c index.1 index.2))) = Except.ok indexes ↔
        Members.Aligned (HasKey c) all indexes := fun all =>
    Members.mapM_aligned_iff fun _ _ => Members.named_eq_ok_iff.trans (and_congr_right fun _ => withKey_eq_ok_iff)
  unfold entityIndexes allOf
  simp only [bind_eq_ok, hread, hkeyed, exists_and_left]

/-! ## Indexes of relations -/

/-- Indexes of a relation with new keys. -/
def AllHaveNewKeys (c : Config) (given indexes : Members Key Value) : Prop :=
  Members.Aligned (fun name v index => ∃ defs, v = .object defs ∧ HasNewKey c name defs index) given indexes

/-- A relation whose indexes got their keys. -/
def HasIndexes (c : Config) (relation made : Value) : Prop :=
  ∃ members given indexes : Members Key Value, relation = .object members ∧ members.value "indexes" = .object given ∧
    made = .object [("indexes", .object indexes)] ∧ AllHaveNewKeys c given indexes

theorem relationIndexes_eq_ok_iff {relation : Value} : relationIndexes c relation = .ok (some indexes) ↔
    ∃ members given : Members Key Value, relation = .object members ∧ members.value "indexes" = .object given ∧ given ≠ [] ∧
      AllHaveNewKeys c given indexes := by
  have hkeyed : ∀ given indexes, (given.mapM fun index => do return (index.1, ← withNewKey c index.1 index.2)) = Except.ok indexes ↔
      AllHaveNewKeys c given indexes := fun given indexes =>
    Members.mapM_aligned_iff fun _ _ => (Members.named_eq_ok_iff (g := id)).trans (by simp [withNewKey_eq_ok_iff])
  unfold relationIndexes
  rw [bind_eq_ok]
  simp only [Value.lookup, map_eq_ok, Value.openMembers_eq_ok]
  constructor
  · rintro ⟨_, ⟨members, rfl, rfl⟩, h⟩
    split at h
    · rename_i hgiven
      obtain ⟨given, hopen, h⟩ := bind_eq_ok.1 h
      obtain ⟨indexes', hindexes, h⟩ := bind_eq_ok.1 h
      cases h
      rw [Value.openMembers_eq_ok] at hopen
      refine ⟨members, given, rfl, hopen, ?_, (hkeyed _ _).1 hindexes⟩
      rintro rfl
      rw [hopen] at hgiven
      cases hgiven
    · cases h
  · rintro ⟨members, given, rfl, hgiven, hne, hindexes⟩
    refine ⟨_, ⟨members, rfl, rfl⟩, ?_⟩
    have htruthy : (Value.object given).truthy = true := by
      cases given with
      | nil => exact absurd rfl hne
      | cons => rfl
    rw [hgiven, if_pos htruthy]
    exact bind_eq_ok.2 ⟨given, rfl, bind_eq_ok.2 ⟨indexes, (hkeyed _ _).2 hindexes, rfl⟩⟩

theorem relationIndexes_eq_ok_none_iff {relation : Value} : relationIndexes c relation = .ok none ↔
    ∃ members : Members Key Value, relation = .object members ∧ (members.value "indexes").truthy = false := by
  unfold relationIndexes
  rw [bind_eq_ok]
  simp only [Value.lookup, map_eq_ok, Value.openMembers_eq_ok]
  constructor
  · rintro ⟨_, ⟨members, rfl, rfl⟩, h⟩
    split at h
    · obtain ⟨_, -, h⟩ := bind_eq_ok.1 h
      obtain ⟨_, -, h⟩ := bind_eq_ok.1 h
      cases h
    · rename_i hgiven
      exact ⟨members, rfl, by simpa using hgiven⟩
  · rintro ⟨members, rfl, hgiven⟩
    refine ⟨_, ⟨members, rfl, rfl⟩, ?_⟩
    rw [hgiven, if_neg Bool.false_ne_true]
    rfl

/-- The relations that have indexes get keys for all of them. -/
theorem allRelationIndexes_aligned (h : allRelationIndexes c relations = .ok more) :
    Members.Aligned (fun _ => HasIndexes c)
      (relations.filter fun relation => (relation.2.members.value "indexes").truthy) more := by
  induction relations generalizing more with
  | nil =>
    cases h
    exact .nil
  | cons relation rest ih =>
    obtain ⟨name, relation⟩ := relation
    rw [allRelationIndexes] at h
    obtain ⟨indexes, hindexes, hrest⟩ := bind_eq_ok.1 h
    cases indexes with
    | none =>
      obtain ⟨members, rfl, hnone⟩ := relationIndexes_eq_ok_none_iff.1 hindexes
      rw [List.filter_cons_of_neg (by simp [hnone])]
      exact ih hrest
    | some indexes =>
      obtain ⟨others, hothers, hrest⟩ := bind_eq_ok.1 hrest
      cases hrest
      obtain ⟨members, given, rfl, hgiven, hne, hkeyed⟩ := relationIndexes_eq_ok_iff.1 hindexes
      rw [List.filter_cons_of_pos (by simp [hgiven, Value.truthy, hne])]
      exact .cons ⟨rfl, members, given, indexes, rfl, hgiven, rfl, hkeyed⟩ (ih hothers)

/-- The relations that get indexes are relations of the entity, in their order, and get nothing else. -/
theorem allRelationIndexes_eq_ok (h : allRelationIndexes c relations = .ok more) :
    (Members.keys more).Sublist (Members.keys relations) ∧
      ∀ entry ∈ more, ∃ indexes, entry.2 = .object [("indexes", .object indexes)] := by
  have hmore := allRelationIndexes_aligned h
  refine ⟨?_, fun entry he => ?_⟩
  · rw [hmore.keys_eq]
    exact List.filter_sublist.map Prod.fst
  · obtain ⟨_, -, _, _, indexes, -, -, hindexes, -⟩ := hmore.exists_left he
    exact ⟨indexes, hindexes⟩

/-! ## The fragment -/

theorem mem_unlessEmpty {key : Key} {m : Members Key Value} {entry : Key × Value} (h : entry ∈ unlessEmpty key m) :
    entry = (key, .object m) := by
  unfold unlessEmpty at h
  split at h
  · cases h
  · exact List.mem_singleton.1 h

/-- What is made for an entity stands under its key in the fragment. -/
theorem get?_indexes (indexes more : Members Key Value) :
    Members.get? (unlessEmpty "indexes" indexes ++ unlessEmpty "relations" more) "indexes" =
      if indexes.isEmpty then none else some (.object indexes) := by
  unfold unlessEmpty
  cases indexes.isEmpty <;> cases more.isEmpty <;> simp [Members.get?_cons]

/-- What is made for its relations stands beside it. -/
theorem get?_relations (indexes more : Members Key Value) :
    Members.get? (unlessEmpty "indexes" indexes ++ unlessEmpty "relations" more) "relations" =
      if more.isEmpty then none else some (.object more) := by
  unfold unlessEmpty
  cases indexes.isEmpty <;> cases more.isEmpty <;> simp [Members.get?_cons]

theorem value_indexes (indexes more : Members Key Value) :
    (Members.value (unlessEmpty "indexes" indexes ++ unlessEmpty "relations" more) "indexes").members = indexes := by
  rw [Members.value, get?_indexes]
  cases indexes <;> rfl

theorem value_relations (indexes more : Members Key Value) :
    (Members.value (unlessEmpty "indexes" indexes ++ unlessEmpty "relations" more) "relations").members = more := by
  rw [Members.value, get?_relations]
  cases more <;> rfl

/-- The fragment of an entity is made of its indexes and those of its relations. -/
theorem synthesize_eq_ok_iff : synthesize c (.object entity) = .ok found ↔
    ∃ indexes relations more, entityIndexes c entity = .ok indexes ∧ (entity.value "relations").givenMembers = .ok relations ∧
      allRelationIndexes c relations = .ok more ∧ found = unlessEmpty "indexes" indexes ++ unlessEmpty "relations" more := by
  have hopen : (Value.object entity).openMembers = .ok entity := rfl
  unfold synthesize
  rw [hopen, ok_bind]
  simp only [bind_eq_ok, exists_and_left]
  refine exists_congr fun indexes => and_congr_right fun _ => exists_congr fun relations => and_congr_right fun _ =>
    exists_congr fun more => and_congr_right fun _ => ?_
  exact ⟨fun h => (Except.ok.inj h).symm, fun h => congrArg Except.ok h.symm⟩

/-- The indexes of an entity, and those of its relations. -/
theorem synthesize_eq_ok {compiled : Value} (h : synthesize c compiled = .ok found) :
    ∃ own indexes more : Members Key Value, compiled = .object own ∧ entityIndexes c own = .ok indexes ∧
      allRelationIndexes c (own.value "relations").members = .ok more ∧
        found = unlessEmpty "indexes" indexes ++ unlessEmpty "relations" more := by
  cases compiled with
  | object own =>
    obtain ⟨indexes, relations, more, hindexes, hrelations, hmore, hfound⟩ := synthesize_eq_ok_iff.1 h
    rw [Value.givenMembers_eq_ok hrelations] at hmore
    exact ⟨own, indexes, more, rfl, hindexes, hmore, hfound⟩
  | _ => cases h

/-- Indexes stand beside the fields of an entity. -/
theorem apart_of_synthesize {compiled : Value} (h : synthesize c compiled = .ok found) :
    Members.Distinct found ∧ Members.get? found "fields" = none := by
  obtain ⟨-, indexes, more, -, -, -, rfl⟩ := synthesize_eq_ok h
  unfold unlessEmpty
  split <;> split
  · exact ⟨Members.distinct_nil, rfl⟩
  · exact ⟨Members.distinct_singleton _ _, by simp [Members.get?_cons]⟩
  · exact ⟨Members.distinct_singleton _ _, by simp [Members.get?_cons]⟩
  · exact ⟨Members.distinct_pair (by decide) _ _, by simp [Members.get?_cons]⟩

/-- The indexes of an entity are laid over those that are there, if there are any. -/
theorem members_indexes_overlay (h : synthesize c (.object entity) = .ok found) (hindexes : entityIndexes c entity = .ok indexes) :
    ((entity.overlay found).value "indexes").members =
      (Value.overlay .override (entity.value "indexes") (.object indexes)).members := by
  have hd := (apart_of_synthesize h).1
  obtain ⟨made, _, more, hmade, -, -, rfl⟩ := synthesize_eq_ok_iff.1 h
  cases hindexes.symm.trans hmade
  have hget := get?_indexes indexes more
  cases indexes with
  | nil =>
    rw [Members.overlay, Members.value_congr (Members.get?_merge_of_none hget)]
    cases entity.value "indexes" with
    | object below => rw [Value.overlay_object, Members.merge_nil]
    | _ => rw [Value.overlay_override_of_not_object fun _ _ hobjects => Value.noConfusion hobjects.1]; rfl
  | cons first rest => rw [Members.value_overlay entity hd hget]

/-- The indexes of its relations are laid over the relations. -/
theorem get?_relations_overlay (h : synthesize c (.object entity) = .ok found)
    (hrelations : Members.get? entity "relations" = some (.object relations)) :
    ∃ more, allRelationIndexes c relations = .ok more ∧
      Members.get? (entity.overlay found) "relations" = some (.object (relations.overlay more)) := by
  have hd := (apart_of_synthesize h).1
  obtain ⟨indexes, given, more, -, hgiven, hmore, rfl⟩ := synthesize_eq_ok_iff.1 h
  cases (Members.givenMembers_of_get? hrelations).symm.trans hgiven
  refine ⟨more, hmore, ?_⟩
  rw [Members.get?_overlay entity hd, get?_relations]
  cases more with
  | nil => simp [hrelations, Members.overlay]
  | cons => simp [Members.mergedAt_of_get? hrelations, Members.overlay]

end Index

end EntitySchema
