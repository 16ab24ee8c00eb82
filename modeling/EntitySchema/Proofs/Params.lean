import EntitySchema.Metadata
import EntitySchema.Proofs.Members

/-!
# Named parameters as objects

Declarations are read from an object of objects and go back into one when they are laid over each other. Both ways keep names
distinct, and the way back keeps every name and what is under it.

Results:
* `mem_ofObjects`, `mem_toObjects`: the members on either side.
* `contains_ofObjects`, `get?_ofObjects`, `get?_toObjects`: look-ups on either side.
* `distinct_ofObjects`, `distinct_toObjects`: no name is there twice.
-/
namespace EntitySchema

namespace Params

variable {m : Members Key Value} {ps : Members String Params} {name : String}

theorem mem_ofObjects {one : String × Params} :
    one ∈ ofObjects m ↔ ∃ v, (Key.text one.1, v) ∈ m ∧ v.members = one.2 := by
  simp only [ofObjects, Members.named, List.mem_map, List.mem_filterMap]
  constructor
  · rintro ⟨named, ⟨⟨key, v⟩, he, hnamed⟩, rfl⟩
    cases key with
    | text s => cases hnamed; exact ⟨v, he, rfl⟩
    | _ => cases hnamed
  · rintro ⟨v, he, hv⟩
    exact ⟨(one.1, v), ⟨_, he, rfl⟩, Prod.ext rfl hv⟩

theorem mem_toObjects {entry : Key × Value} :
    entry ∈ toObjects ps ↔ ∃ one ∈ ps, entry = (.text one.1, .object one.2) := by
  simp only [toObjects, Members.keyed, List.map_map, List.mem_map, Function.comp_apply]
  exact exists_congr fun one => and_congr_right fun _ => eq_comm

theorem contains_ofObjects (m : Members Key Value) (name : String) :
    Members.contains (ofObjects m) name = Members.contains m (.text name) := by
  rw [Bool.eq_iff_iff, Members.contains_iff_mem_keys]
  simp only [Members.contains, Option.isSome_iff_exists]
  constructor
  · intro h
    obtain ⟨one, hone, rfl⟩ := List.mem_map.1 h
    obtain ⟨v, he, -⟩ := mem_ofObjects.1 hone
    cases hget : Members.get? m (.text one.1) with
    | some w => exact ⟨w, rfl⟩
    | none =>
      have hne := Members.get?_eq_none_iff.1 hget _ he
      rw [BEq.rfl] at hne
      cases hne
  · rintro ⟨v, hv⟩
    obtain ⟨key, hkey, he⟩ := Members.exists_of_get? hv
    rw [Key.beq_text.1 hkey] at he
    exact List.mem_map_of_mem (mem_ofObjects.2 ⟨v, he, rfl⟩ : (name, v.members) ∈ ofObjects m)

theorem get?_toObjects (ps : Members String Params) (name : String) :
    Members.get? (toObjects ps) (.text name) = (Members.get? ps name).map Value.object := by
  induction ps with
  | nil => rfl
  | cons one rest ih =>
    obtain ⟨other, params⟩ := one
    show Members.get? ((Key.text other, Value.object params) :: toObjects rest) (.text name) = _
    have hsame : (Key.text other == Key.text name) = (other == name) := by
      rw [Bool.eq_iff_iff, Key.beq_text, Key.text.injEq, beq_iff_eq]
    rw [Members.get?_cons, Members.get?_cons, ih, hsame]
    split <;> rfl

theorem contains_toObjects (ps : Members String Params) (name : String) :
    Members.contains (toObjects ps) (.text name) = Members.contains ps name := by
  rw [Members.contains, Members.contains, get?_toObjects, Option.isSome_map]

theorem get?_ofObjects (m : Members Key Value) (name : String) :
    Members.get? (ofObjects m) name = (Members.get? m (.text name)).map Value.members := by
  induction m with
  | nil => rfl
  | cons entry rest ih =>
    obtain ⟨key, v⟩ := entry
    cases key with
    | text other =>
      have hsame : (Key.text other == Key.text name) = (other == name) := by
        rw [Bool.eq_iff_iff, Key.beq_text, Key.text.injEq, beq_iff_eq]
      show Members.get? ((other, v.members) :: ofObjects rest) name = _
      rw [Members.get?_cons, Members.get?_cons, ih, hsame]
      split <;> rfl
    | _ =>
      rw [Members.get?_cons, if_neg (by simp), ← ih]
      rfl

theorem distinct_toObjects (hd : Members.Distinct ps) : Members.Distinct (toObjects ps) := by
  have hkeys : Members.keys (toObjects ps) = (Members.keys ps).map Key.text := by
    simp [Members.keys, toObjects, Members.keyed]
  unfold Members.Distinct
  rw [hkeys, List.pairwise_map]
  refine List.Pairwise.imp (fun {a b} hab => ?_) hd
  rw [← Bool.not_eq_true, Key.text_beq, Key.text.injEq]
  rintro rfl
  rw [BEq.rfl] at hab
  cases hab

theorem distinct_ofObjects (hd : Members.Distinct m) : Members.Distinct (ofObjects m) := by
  have hkeys : Members.keys (ofObjects m) = (Members.keys m).filterMap Key.text? := by
    simp only [Members.keys, ofObjects, Members.named, List.map_filterMap, List.filterMap_map]
    congr 1
    funext entry
    show _ = entry.1.text?
    cases entry.1.text? <;> rfl
  unfold Members.Distinct
  rw [hkeys, List.pairwise_filterMap]
  refine List.Pairwise.imp (fun {a b} hab s hs t ht => ?_) hd
  cases a with
  | text =>
    cases b with
    | text =>
      cases hs
      cases ht
      rw [← Bool.not_eq_true, Key.text_beq, Key.text.injEq] at hab
      simpa using Ne.symm hab
    | _ => cases ht
  | _ => cases hs

end Params

end EntitySchema
