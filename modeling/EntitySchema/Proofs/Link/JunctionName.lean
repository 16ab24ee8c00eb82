import EntitySchema.Proofs.Link.Template
import Mathlib.Data.String.Basic

/-!
# Names of junctions

The name of a junction is made of the names of two entities without a mark between them: the lesser one and then the greater
one. Two pairs of entities may therefore share a junction, namely if the lesser name of one pair goes on where that of the
other ends, and what it has more is the beginning of the greater name of the other.

* `front`, `back`: the two halves of the name of a junction.
* `Overlap`: two pairs whose halves are cut from one name at different places, or are the same.
* `JoinsByDefault`: the relation of a link that leaves the name of its junction to the compiler.

Results:
* `relationName_comm`: both sides of a relation give it the same name.
* `junctionEntity_eq_iff`: which pairs share a name.
* `isOf_of_joinsByDefault`: a relation that is named by default is stored under the name of its pair.
-/
namespace EntitySchema

namespace Text

theorem lowerChar_ne_nil (c : Char) : lowerChar c ≠ [] := by
  unfold lowerChar
  split
  · simp
  · cases hspecial : special? lowerSpecial c with
    | none => simp
    | some cs =>
      obtain ⟨entry, hentry, rfl⟩ := Option.map_eq_some_iff.1 hspecial
      have hne : ∀ entry ∈ lowerSpecial, entry.2 ≠ [] := by decide
      simpa using hne entry (List.mem_of_find?_eq_some hentry)

theorem uncapitalize_ne_empty {s : String} (h : s ≠ "") : uncapitalize s ≠ "" := by
  unfold uncapitalize
  cases hs : s.toList with
  | nil => exact absurd (String.toList_eq_nil_iff.1 hs) h
  | cons c rest =>
    have hfirst : lowerFrom [] [c] ≠ [] := by
      rw [lowerFrom, lowerFrom, List.append_nil]
      split
      · simp
      · exact lowerChar_ne_nil c
    rw [ne_eq, ← String.toList_eq_nil_iff, String.toList_ofList]
    exact fun hnil => hfirst (List.append_eq_nil_iff.1 hnil).1

/-- Only the first of two texts that are joined gets a capital, if it is not empty. -/
theorem capitalize_append {s : String} (h : s ≠ "") (t : String) : capitalize (s ++ t) = capitalize s ++ t := by
  unfold capitalize
  rw [String.toList_append]
  cases hs : s.toList with
  | nil => exact absurd (String.toList_eq_nil_iff.1 hs) h
  | cons c rest =>
    rw [← String.toList_inj]
    simp

end Text

namespace Naming

/-! ## Halves of a name -/

def lesser (entity target : String) : String :=
  if target < entity then target else entity

def greater (entity target : String) : String :=
  if target < entity then entity else target

theorem relationName_eq (entity target : String) :
    relationName entity target = Text.uncapitalize (lesser entity target) ++ greater entity target := by
  unfold relationName lesser greater
  split <;> rfl

theorem lesser_comm (entity target : String) : lesser entity target = lesser target entity := by
  unfold lesser
  rcases lt_trichotomy entity target with h | rfl | h
  · rw [if_neg (lt_asymm h), if_pos h]
  · rfl
  · rw [if_pos h, if_neg (lt_asymm h)]

theorem greater_comm (entity target : String) : greater entity target = greater target entity := by
  unfold greater
  rcases lt_trichotomy entity target with h | rfl | h
  · rw [if_neg (lt_asymm h), if_pos h]
  · rfl
  · rw [if_pos h, if_neg (lt_asymm h)]

/-- Both sides of a relation give it the same name. -/
theorem relationName_comm (entity target : String) : relationName entity target = relationName target entity := by
  rw [relationName_eq, relationName_eq, lesser_comm, greater_comm]

/-- The lesser name as a junction shows it. -/
def front (entity target : String) : String :=
  Text.capitalize (Text.uncapitalize (lesser entity target))

/-- The greater name as a junction shows it: it comes first only if the lesser one is empty. -/
def back (entity target : String) : String :=
  if lesser entity target = "" then Text.capitalize (greater entity target) else greater entity target

/-- The name of a junction is that of the lesser entity and then that of the greater one. -/
theorem junctionEntity_relationName (entity target : String) :
    junctionEntity (relationName entity target) = front entity target ++ back entity target := by
  rw [relationName_eq, junctionEntity, front, back]
  by_cases h : lesser entity target = ""
  · have hempty : Text.uncapitalize "" = "" := rfl
    have hcapital : Text.capitalize "" = "" := rfl
    rw [if_pos h, h, hempty, hcapital, String.empty_append, String.empty_append]
  · rw [if_neg h, Text.capitalize_append (Text.uncapitalize_ne_empty h)]

/-! ## Pairs that share a name -/

/-- The first half of the second pair goes on where that of the first pair ends, with the beginning of the second half of the
first pair; the rest is the same. -/
def RunsOn (entity target entity' target' : String) : Prop :=
  ∃ shared, front entity' target' = front entity target ++ shared ∧ back entity target = shared ++ back entity' target'

/-- One of two pairs runs on into the other. -/
def Overlap (entity target entity' target' : String) : Prop :=
  RunsOn entity target entity' target' ∨ RunsOn entity' target' entity target

/-- Two pairs of entities share the name of a junction exactly if one of them runs on into the other. -/
theorem junctionEntity_eq_iff (entity target entity' target' : String) :
    junctionEntity (relationName entity target) = junctionEntity (relationName entity' target') ↔
      Overlap entity target entity' target' := by
  have hlist : ∀ {s t u v : String}, (∃ cs : List Char, t.toList = s.toList ++ cs ∧ u.toList = cs ++ v.toList) ↔
      ∃ shared : String, t = s ++ shared ∧ u = shared ++ v := by
    intro s t u v
    constructor
    · intro hcut
      obtain ⟨cs, ht, hu⟩ := hcut
      exact ⟨String.ofList cs, by rw [← String.toList_inj]; simpa using ht, by rw [← String.toList_inj]; simpa using hu⟩
    · intro hcut
      obtain ⟨shared, rfl, rfl⟩ := hcut
      exact ⟨shared.toList, String.toList_append, String.toList_append⟩
  rw [junctionEntity_relationName, junctionEntity_relationName, ← String.toList_inj, String.toList_append,
    String.toList_append, List.append_eq_append_iff, hlist]
  exact or_congr Iff.rfl hlist

end Naming

namespace Link

/-! ## Junctions of links -/

/-- A link to a target that leaves the name of its junction to the compiler. -/
structure NamedByDefault (target : String) (params : Params) : Prop where
  entity : params.value "entity" = .str target
  unnamed : (params.value "relationName").truthy = false

/-- A many-to-many link of an entity has a junction: an entity under its name. -/
def HasJunctionEntity (c : Config) (m : Metadata) (entity : String) (link : Value) (params : Params)
    (junction : Key × Value) : Prop :=
  ∃ relation, Link.relation m (.str entity) link params .manyMany = .ok relation ∧
    (Junction.ofRelation c (.object relation)).result = .ok (some junction)

section
variable {c : Config} {m : Metadata} {entity target : String} {link : Value} {params : Params}

theorem junctionName_text (entity target : String) :
    junctionName (.str entity) (.str target) = .ok (Naming.relationName entity target) := by
  unfold junctionName
  rw [Value.atMost?_text]
  rfl

/-- The relation of a link that leaves its name to the compiler says that name, whatever the template of its type says. -/
theorem relationName_of_relation (h : NamedByDefault target params) {relation : Members Key Value}
    (hrelation : Link.relation m (.str entity) link params .manyMany = .ok relation) :
    Members.get? relation "relationName" = some (.str (Naming.relationName entity target)) := by
  obtain ⟨built, hbuilt, -⟩ := relation_eq_ok.1 hrelation
  obtain ⟨name, keys, hown, hname, -⟩ := manyMany_eq_ok hbuilt
  rw [givenOr, if_neg (by simp [h.unnamed]), h.entity, junctionName_text] at hname
  cases hname
  refine get?_relation hbuilt hrelation (by simp [keptParams]) ?_ (fun _ => Value.noConfusion)
  rw [hown, get?_withGiven]
  simp [Members.get?_cons]

/-- Its junction stands under that name. -/
theorem name_of_hasJunctionEntity (h : NamedByDefault target params) {junction : Key × Value}
    (hjunction : HasJunctionEntity c m entity link params junction) :
    junction.1 = .text (Naming.junctionEntity (Naming.relationName entity target)) := by
  obtain ⟨relation, hrelation, hof⟩ := hjunction
  rcases Junction.ofRelation_eq_ok hof with ⟨-, hnone⟩ | ⟨-, name, declared, normal, hname, -, -, hentry⟩
  · cases hnone
  · cases hentry
    rw [Value.members_object, Members.value_of_get? (relationName_of_relation h hrelation)] at hname
    cases hname
    rfl

/-- The type of a many-to-many relation says so, whatever the template of its type says. -/
theorem type_of_manyMany {entity : Value} {relation : Members Key Value}
    (hrelation : Link.relation m entity link params .manyMany = .ok relation) :
    Members.get? relation "type" = some (.str LinkKind.manyMany.word) := by
  obtain ⟨built, hbuilt, -⟩ := relation_eq_ok.1 hrelation
  obtain ⟨name, keys, hown, -, -⟩ := manyMany_eq_ok hbuilt
  refine get?_relation hbuilt hrelation (by simp [keptParams]) ?_ (fun _ => Value.noConfusion)
  rw [hown, get?_withGiven]
  simp [Members.get?_cons]

end

/-! ## Relations that are named by default -/

/-- The junction between two entities whose name is left to the compiler. -/
def defaultJunction (entity target : String) : Key :=
  .text (Naming.junctionEntity (Naming.relationName entity target))

/-- The relation of a many-to-many link of an entity that leaves the name of its junction to the compiler, as it stands in the
compiled entity: only its indexes are not those of the link, for they have got keys. -/
def JoinsByDefault (m : Metadata) (entity target : String) (relation : Value) : Prop :=
  ∃ link params found, NamedByDefault target params ∧ Link.relation m (.str entity) link params .manyMany = .ok found ∧
    ∀ key : Key, key ≠ "indexes" → Members.get? relation.members key = Members.get? found key

/-- Such a relation is stored in the junction of its two entities and in no other. -/
theorem isOf_of_joinsByDefault {m : Metadata} {entity target : String} {relation : Value}
    (h : JoinsByDefault m entity target relation) (junction : Key) :
    Junction.isOf junction relation = (defaultJunction entity target == junction) := by
  obtain ⟨link, params, found, hdefault, hfound, hsame⟩ := h
  have htype := (hsame "type" (by simp)).trans (type_of_manyMany hfound)
  have hname := (hsame "relationName" (by simp)).trans (relationName_of_relation hdefault hfound)
  rw [Junction.isOf, Members.value_of_get? htype, Members.value_of_get? hname, Value.isText_iff.2 rfl, Bool.true_and]
  rfl

end Link

end EntitySchema
