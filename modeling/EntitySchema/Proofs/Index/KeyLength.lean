import EntitySchema.Proofs.Index.Fragment

/-!
# The length of keys

A key that is too long for its limit is cut and ends in `_` and eight digits. Under a limit that has no room for these nine
characters the end of the cut is negative. A negative end is counted from the back: instead of nothing, all but a few characters
at the end stay, and the nine come on top.

* `Assigned`: the indexes of a fragment for which a key was made.

Results:
* `length_upTo`, `length_key_of_cut`: how long a key becomes that is cut.
* `length_key_le_iff`: a key is within its limit exactly if it is not cut or the limit has room for the digits.
* `assigned_keys_fit_iff`: the same of all keys that are made for an entity.
-/
namespace EntitySchema.Index

variable {c : Config} {entity fragment : Members Key Value} {kind : IndexKind} {name : String} {limit : Int}

/-! ## Keys -/

theorem length_upTo (stop : Int) (cs : List Char) :
    (upTo stop cs).length = if 0 ≤ stop then min stop.toNat cs.length else cs.length - (-stop).toNat := by
  unfold upTo
  split
  · exact List.length_take
  · rw [List.length_take]
    exact Nat.min_eq_left (Nat.sub_le _ _)

/-- A key that is cut has nine characters behind the cut. -/
theorem length_key_of_cut (h : limit < (fullKey kind name).length) :
    (key kind name limit).length = (upTo (limit - digestLength - 1) (fullKey kind name).toList).length + (digestLength + 1) := by
  have hdigits : ((Sha1.hexDigits (fullKey kind name)).take digestLength).length = digestLength := by
    rw [List.length_take, Sha1.hexDigits_length]
    rfl
  unfold key
  rw [if_neg (Int.not_le.2 h), String.length_ofList, List.length_append, List.length_cons, hdigits]

/-- A key is within its limit exactly if it is not cut or the limit has room for the digits. -/
theorem length_key_le_iff : ((key kind name limit).length : Int) ≤ limit ↔
    ((fullKey kind name).length : Int) ≤ limit ∨ (digestLength : Int) < limit := by
  by_cases hfits : ((fullKey kind name).length : Int) ≤ limit
  · rw [key_of_fits hfits]
    exact ⟨.inl, fun _ => hfits⟩
  · have hcut : limit < (fullKey kind name).length := Int.not_le.1 hfits
    rw [length_key_of_cut hcut, length_upTo, or_iff_right hfits]
    unfold digestLength
    split <;> omega

/-! ## Keys of a fragment -/

/-- An index of a fragment for which a key was made: an index of the entity that was not given with a key, or any index of a
relation. -/
inductive Assigned (entity fragment : Members Key Value) : Key → Value → Prop
  | own {name index} : (name, index) ∈ (fragment.value "indexes").members →
      (∀ given ∈ (entity.value "indexes").members, (given.1 == name) = true →
        ∀ defs, given.2.toMembers = .ok defs → (defs.value "key").truthy = false) → Assigned entity fragment name index
  | ofRelation {relation name index} : relation ∈ (fragment.value "relations").members →
      (name, index) ∈ (relation.2.members.value "indexes").members → Assigned entity fragment name index

/-- A key was made for an index that had none, and for every index of a relation. -/
theorem hasNewKey_of_assigned (h : synthesize c (.object entity) = .ok fragment) {name : Key} {index : Value}
    (hassigned : Assigned entity fragment name index) : ∃ defs, HasNewKey c name defs index := by
  obtain ⟨indexes, relations, more, hindexes, -, hmore, rfl⟩ := synthesize_eq_ok_iff.1 h
  cases hassigned with
  | own hindex hnone =>
    rw [value_indexes] at hindex
    obtain ⟨given, explicit, fields, derived, hgiven, hread, -, hderived, hkeyed⟩ := entityIndexes_eq_ok_iff.1 hindexes
    obtain ⟨defs, hdefs, hkey⟩ := hkeyed.exists_left hindex
    refine ⟨defs, ?_⟩
    rcases mem_allOf (distinct_ofFields hderived) hdefs with hdefs | ⟨d, -, rfl⟩
    · obtain ⟨v, hv, hv'⟩ := hread.exists_left hdefs
      rw [Value.givenMembers_eq_ok hgiven] at hv
      rwa [HasKey, hnone _ hv BEq.rfl _ hv', if_neg Bool.false_ne_true] at hkey
    · exact hasKey_toValue.1 hkey
  | ofRelation hrelation hindex =>
    rw [value_relations] at hrelation
    obtain ⟨_, -, members, given, indexes, -, -, hmade, hkeyed⟩ := (allRelationIndexes_aligned hmore).exists_left hrelation
    rw [hmade] at hindex
    obtain ⟨_, -, defs, -, hkey⟩ := Members.Aligned.exists_left hkeyed hindex
    exact ⟨defs, hkey⟩

/-- Any key, and so every one that is made for an entity, is within the limit exactly if it is not cut or the limit has room for
the digits. -/
theorem assigned_keys_fit_iff (c : Config) : (∀ kind name limit, ((key kind name limit).length : Int) ≤ limit ↔
      ((fullKey kind name).length : Int) ≤ limit ∨ (digestLength : Int) < limit) ∧
    ∀ entity fragment, synthesize c (.object entity) = .ok fragment → ∀ name index, Assigned entity fragment name index →
      ∃ kind word text, IndexKind.ofDefs index.members = .ok kind ∧ name = .text word ∧
        index.members.value "key" = .str text ∧ text = key kind word c.indexNameMaxLength ∧
          ((text.length : Int) ≤ c.indexNameMaxLength ↔
            ((fullKey kind word).length : Int) ≤ c.indexNameMaxLength ∨ (digestLength : Int) < c.indexNameMaxLength) := by
  refine ⟨fun kind name limit => length_key_le_iff, fun entity fragment h name index hassigned => ?_⟩
  obtain ⟨defs, kind, word, hkind, hname, rfl⟩ := hasNewKey_of_assigned h hassigned
  refine ⟨kind, word, _, ?_, hname, ?_, rfl, length_key_le_iff⟩
  · rw [Value.members_object, IndexKind.ofDefs_set_key, hkind]
  · rw [Value.members_object, Members.value_set, if_pos BEq.rfl]

/-- An entity with an index of its own, one that a field asks for, and one of a relation, all without keys. -/
def keyless : Members Key Value :=
  [("fields", .object [("title", .object [("type", .str "varchar"), ("index", .bool true)])]),
    ("indexes", .object [("byCode", .object [("type", .str "unique"), ("columns", .list [.str "code"])])]),
    ("relations", .object [("leads", .object [("indexes", .object [("leadId", .object [("columns", .list [.str "leadId"])])])])])]

/-- The fragment of that entity under a limit. -/
def keylessFragment (limit : Int) : Members Key Value :=
  [("indexes", .object [
      ("byCode", .object [("type", .str "unique"), ("columns", .list [.str "code"]), ("key", .str (key .unique "byCode" limit))]),
      ("title", .object [("type", .str "index"), ("columns", .list [.str "title"]), ("key", .str (key .plain "title" limit))])]),
    ("relations", .object [("leads", .object [("indexes", .object [
      ("leadId", .object [("columns", .list [.str "leadId"]), ("key", .str (key .plain "leadId" limit))])])])])]

/-- Nine characters are enough for every key. -/
theorem assigned_keys_fit_keyless : ((key .plain "leadId" 9).length : Int) ≤ 9 ∧
    synthesize { indexNameMaxLength := 9 } (.object keyless) = .ok (keylessFragment 9) ∧
      Assigned keyless (keylessFragment 9) "leadId"
        (.object [("columns", .list [.str "leadId"]), ("key", .str (key .plain "leadId" 9))]) := by
  have hassigned : Assigned keyless (keylessFragment 9) "leadId"
      (.object [("columns", .list [.str "leadId"]), ("key", .str (key .plain "leadId" 9))]) := .ofRelation (.head _) (.head _)
  obtain ⟨kind, word, text, -, -, htext, -, hiff⟩ :=
    (assigned_keys_fit_iff { indexNameMaxLength := 9 }).2 keyless (keylessFragment 9) rfl _ _ hassigned
  cases htext
  exact ⟨hiff.2 (.inr (by decide)), rfl, hassigned⟩

/-- With eight characters there is no room for `_` and the digits, and of the nine characters of this key only one is cut. -/
theorem exists_overlong_key : (key .plain "title" 8).length = 17 ∧
    synthesize { indexNameMaxLength := 8 } (.object keyless) = .ok (keylessFragment 8) ∧
      Assigned keyless (keylessFragment 8) "title"
        (.object [("type", .str "index"), ("columns", .list [.str "title"]), ("key", .str (key .plain "title" 8))]) := by
  refine ⟨?_, rfl, .own (.tail _ (.head _)) fun given hgiven hname => ?_⟩
  · have hfull : fullKey .plain "title" = "IDX_TITLE" := rfl
    rw [length_key_of_cut (by rw [hfull]; decide), length_upTo, hfull]
    rfl
  · obtain rfl : given = _ := List.mem_singleton.1 hgiven
    exact absurd (Key.beq_text.1 hname) (by decide)

end EntitySchema.Index
