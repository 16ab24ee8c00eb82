import EntitySchema.Proofs.Record.Fits
import EntitySchema.Proofs.Reordered

/-!
# Values up to the order of keys

Two values are the same up to the order of keys if the members of objects in them are in another order, at any depth; lists keep
their order. Objects with texts for keys are so as soon as the same, up to the order of keys, is found under every name.

* `Value.Reordered`: values that are the same up to the order of keys.

Results:
* `perm_of_get?`: members of which the same is found are the same in another order.
* `Value.Reordered.of_get?`: objects of which the same is found up to the order of keys.
-/
namespace EntitySchema

/-! ## Members by what is found -/

namespace Members

theorem nodup_of_distinct {κ α : Type} [BEq κ] [ReflBEq κ] {m : Members κ α} (hd : Distinct m) : m.Nodup := by
  refine List.Pairwise.imp (fun {a b} hab hsame => ?_) (List.pairwise_map.1 hd)
  rw [hsame, BEq.rfl] at hab
  cases hab

section
variable {α : Type} {m m' : Members Key α}

theorem mem_iff_get? (hd : Distinct m) {name : String} {v : α} : (.text name, v) ∈ m ↔ get? m (.text name) = some v := by
  refine ⟨get?_of_mem hd, fun h => ?_⟩
  obtain ⟨k, hk, hm⟩ := exists_of_get? h
  rwa [Key.beq_text.1 hk] at hm

/-- Members under names of which the same is found are the same in another order. -/
theorem perm_of_get? (hd : Distinct m) (hd' : Distinct m') (hnamed : Named m) (hnamed' : Named m')
    (h : ∀ key, get? m key = get? m' key) : m.Perm m' := by
  refine (List.perm_ext_iff_of_nodup (nodup_of_distinct hd) (nodup_of_distinct hd')).2 fun entry => ?_
  obtain ⟨key, v⟩ := entry
  by_cases hkey : ∃ name, key = .text name
  · obtain ⟨name, rfl⟩ := hkey
    rw [mem_iff_get? hd, mem_iff_get? hd', h]
  · exact ⟨fun hm => absurd (hnamed _ hm) hkey, fun hm => absurd (hnamed' _ hm) hkey⟩

theorem get?_of_perm (hd : Distinct m) (hperm : m.Perm m') (key : Key) : get? m key = get? m' key := by
  have hd' := distinct_of_perm hperm hd
  cases h : get? m key with
  | none =>
    refine (get?_eq_none_iff.2 fun entry he => ?_).symm
    exact get?_eq_none_iff.1 h entry (hperm.mem_iff.2 he)
  | some v =>
    obtain ⟨k, hk, hm⟩ := exists_of_get? h
    rw [← get?_congr hk, get?_of_mem hd' (hperm.mem_iff.1 hm)]

end

end Members

/-! ## Values up to the order of keys -/

/-- Values that are the same up to the order of the keys of their objects, at any depth; lists keep their order. -/
inductive Value.Reordered : Value → Value → Prop
  | refl (v : Value) : Reordered v v
  | list {xs ys : List Value} (h : List.Forall₂ Reordered xs ys) : Reordered (.list xs) (.list ys)
  /-- The members of an object in another order, each with the same value up to the order of keys. -/
  | object {m between m' : Members Key Value} (hperm : m.Perm between) (hkeys : between.keys = m'.keys)
      (hvalues : List.Forall₂ Reordered between.values m'.values) : Reordered (.object m) (.object m')

namespace Value.Reordered

variable {m m' : Members Key Value}

/-- An object of which one member is the same up to the order of keys. -/
theorem set {key : Key} {v w : Value} (hv : Members.get? m key = some v) (h : Reordered v w) :
    Reordered (.object m) (.object (m.set key w)) := by
  have hcontains : Members.contains m key = true := by rw [Members.contains, hv]; rfl
  refine .object (.refl m) (by rw [Members.keys_set, if_pos hcontains]) ?_
  clear hcontains
  induction m with
  | nil => cases hv
  | cons entry rest ih =>
    obtain ⟨k, u⟩ := entry
    rw [Members.get?_cons] at hv
    rw [Members.set]
    split at hv
    · rename_i hk
      cases hv
      rw [if_pos hk]
      exact .cons h (List.forall₂_same.2 fun u _ => .refl u)
    · rename_i hk
      rw [if_neg hk]
      exact .cons (.refl u) (ih hv)

/-- Objects of which the same is found under every name, up to the order of keys. -/
theorem of_get? (hd : Members.Distinct m) (hd' : Members.Distinct m') (hnamed : Members.Named m) (hnamed' : Members.Named m')
    (h : ∀ key, Option.Rel Reordered (Members.get? m key) (Members.get? m' key)) : Reordered (.object m) (.object m') := by
  -- the members of the first object in the order of the second
  have hfound : ∀ entry ∈ m', Members.get? m entry.1 = some (m.value entry.1) ∧ Reordered (m.value entry.1) entry.2 :=
    fun entry he => by
      have hrel := h entry.1
      rw [Members.get?_of_mem hd' he] at hrel
      obtain ⟨_, hget, hv⟩ := Members.rel_some_right.1 hrel
      rw [Members.value_of_get? hget]
      exact ⟨hget, hv⟩
  have hkeys : Members.keys (m'.map fun entry => (entry.1, m.value entry.1)) = m'.keys := by
    simp [Members.keys]
  refine .object ?_ hkeys ?_
  · refine Members.perm_of_get? hd (Members.distinct_of_keys_eq hkeys hd') hnamed ?_ fun key => ?_
    · intro entry he
      obtain ⟨other, hother, rfl⟩ := List.mem_map.1 he
      exact hnamed' other hother
    · cases hget : Members.get? m' key with
      | none =>
        have hrel := h key
        rw [hget] at hrel
        rw [Members.rel_none_right.1 hrel]
        refine (Members.get?_eq_none_iff.2 fun entry he => ?_).symm
        obtain ⟨other, hother, rfl⟩ := List.mem_map.1 he
        exact Members.get?_eq_none_iff.1 hget other hother
      | some v =>
        obtain ⟨k, hk, hm⟩ := Members.exists_of_get? hget
        rw [← Members.get?_congr hk, (hfound _ hm).1, ← Members.get?_congr hk]
        exact (Members.get?_of_mem (Members.distinct_of_keys_eq hkeys hd')
          (List.mem_map_of_mem (f := fun entry : Key × Value => (entry.1, m.value entry.1)) hm)).symm
  · rw [Members.values, Members.values, List.map_map, List.forall₂_map_left_iff, List.forall₂_map_right_iff]
    exact List.forall₂_same.2 fun entry he => (hfound entry he).2

end Value.Reordered

end EntitySchema
