import EntitySchema.Proofs.Tree.Overlay
import Mathlib.Data.List.Perm.Basic

/-!
# Members in another order

Two lists of members are the same object written in another order if one is a permutation of the other. What is put under the
same key of both leaves them so, and to lay one over the other changes nothing.

Results:
* `set_perm`: a value that is put into the same members in another order.
* `set_set_perm`: two names that get the same value in either order.
* `overlay_eq_self`: what is laid over members that have it already.
* `overlay_of_perm`: members laid over the same members in another order.
* `get?_foldl_overlay_perm`: the order in which members that agree are laid over others does not matter.
-/
namespace EntitySchema

namespace Members

section
variable {κ α : Type} [BEq κ]

theorem distinct_of_perm [EquivBEq κ] {m m' : Members κ α} (h : m.Perm m') (hd : Distinct m) : Distinct m' := by
  refine List.Perm.pairwise (h.map Prod.fst) hd ?_
  intro a b hab
  rw [BEq.comm, hab]

/-- A value that is put into the same members in another order. -/
theorem set_perm [EquivBEq κ] {m m' : Members κ α} (key : κ) (v : α) (hd : Distinct m) (h : m.Perm m') :
    (set m key v).Perm (set m' key v) := by
  induction h with
  | nil => exact .refl _
  | @cons entry rest rest' hrest ih =>
    obtain ⟨k, w⟩ := entry
    obtain ⟨-, hd⟩ := distinct_cons.1 hd
    rw [set, set]
    split
    · exact hrest.cons _
    · exact (ih hd).cons _
  | swap a b rest =>
    obtain ⟨k, w⟩ := a
    obtain ⟨k', w'⟩ := b
    obtain ⟨hne, -⟩ := distinct_cons.1 hd
    simp only [set]
    by_cases hk : (k == key) = true
    · -- the other of the two keys is a different one
      have hk' : (k' == key) = false := by
        rw [← BEq.congr_right hk]
        exact hne _ List.mem_cons_self
      simp only [hk, hk', if_true, Bool.false_eq_true, if_false]
      exact .swap _ _ _
    · simp only [hk, Bool.false_eq_true, if_false]
      split <;> exact .swap _ _ _
  | trans h _ ih ih' => exact (ih hd).trans (ih' (distinct_of_perm h hd))

end

/-- Two names that get the same value in either order. -/
theorem set_set_perm {α : Type} (m : Members Key α) (a b : String) (v : α) :
    (set (set m (.text a) v) (.text b) v).Perm (set (set m (.text b) v) (.text a) v) := by
  by_cases hab : a = b
  · rw [hab]
  have hne : ¬(Key.text a == Key.text b) = true := by
    rw [Key.beq_text, Key.text.injEq]
    exact hab
  have hne' : ¬(Key.text b == Key.text a) = true := by
    rw [BEq.comm]
    exact hne
  induction m with
  | nil =>
    simp only [set, if_neg hne, if_neg hne']
    exact .swap _ _ _
  | cons entry rest ih =>
    obtain ⟨k, w⟩ := entry
    by_cases ha : (k == Key.text a) = true
    · have hk : k = .text a := Key.beq_text.1 ha
      subst hk
      simp only [set, BEq.rfl, if_true, if_neg hne]
      exact .refl _
    · by_cases hb : (k == Key.text b) = true
      · have hk : k = .text b := Key.beq_text.1 hb
        subst hk
        simp only [set, BEq.rfl, if_true, if_neg hne']
        exact .refl _
      · simp only [set, if_neg ha, if_neg hb]
        exact ih.cons _

/-- Members of which each is there already, and stays what it is if it is laid over itself, change nothing. -/
theorem overlay_eq_self {lower upper : Members Key Value}
    (h : ∀ entry ∈ upper, get? lower entry.1 = some entry.2 ∧ Value.overlay .override entry.2 entry.2 = entry.2) :
    overlay lower upper = lower := by
  induction upper with
  | nil => exact merge_nil _ _
  | cons entry rest ih =>
    obtain ⟨key, v⟩ := entry
    obtain ⟨⟨hget, hself⟩, hrest⟩ := List.forall_mem_cons.1 h
    rw [overlay, merge_cons, mergedAt_of_get? hget, hself, set_of_get? hget]
    exact ih hrest

/-- Members laid over the same members in another order. -/
theorem overlay_of_perm {m m' : Members Key Value} (hd : Distinct m) (h : m.Perm m')
    (hself : ∀ entry ∈ m, Value.overlay .override entry.2 entry.2 = entry.2) : overlay m m' = m :=
  overlay_eq_self fun entry he => ⟨get?_of_mem hd (h.mem_iff.2 he), hself entry (h.mem_iff.2 he)⟩

end Members

namespace Value

/-- An object of different members that stay what they are if they are laid over themselves does so, too. -/
theorem overlay_self_object {m : Members Key Value} (hd : Members.Distinct m)
    (hself : ∀ entry ∈ m, overlay .override entry.2 entry.2 = entry.2) : overlay .override (object m) (object m) = object m := by
  rw [overlay_object]
  exact congrArg object (Members.overlay_of_perm hd (.refl m) hself)

theorem overlay_self_of_not_object {v : Value} (h : ∀ m, v ≠ object m) : overlay .override v v = v :=
  overlay_override_of_not_object fun m _ hobjects => h m hobjects.1

end Value

/-- What corresponds to the elements of a list in another order, if one thing at most corresponds to each of them. -/
theorem perm_of_forall₂ {α β : Type} {R : α → β → Prop} (hR : Relator.RightUnique R) {xs xs' : List α} {ys ys' : List β}
    (h : List.Forall₂ R xs ys) (h' : List.Forall₂ R xs' ys') (hperm : xs.Perm xs') : ys.Perm ys' := by
  obtain ⟨zs, hzs, hperm⟩ := List.perm_comp_forall₂ hperm h'
  rwa [List.right_unique_forall₂' hR h hzs]

/-! ## Members laid over others in any order -/

namespace Members

/-- What is found after one thing is laid over another, if either is there. -/
def foundOver (old new : Option Value) : Option Value :=
  match old, new with
  | old, none => old
  | none, some v => some v
  | some old, some v => some (Value.overlay .override old v)

theorem get?_overlay_eq_foundOver (lower : Members Key Value) {upper : Members Key Value} (hd : Distinct upper) (key : Key) :
    get? (overlay lower upper) key = foundOver (get? lower key) (get? upper key) := by
  rw [get?_overlay lower hd]
  cases get? upper key with
  | none => cases get? lower key <;> rfl
  | some v => cases hlower : get? lower key <;> simp only [foundOver, mergedAt, hlower]

/-- What is found under a key after one thing after the other is laid over depends on what each has there. -/
theorem get?_foldl_overlay {uppers : List (Members Key Value)} (hd : ∀ upper ∈ uppers, Distinct upper)
    (lower : Members Key Value) (key : Key) :
    get? (uppers.foldl overlay lower) key = (uppers.map fun upper => get? upper key).foldl foundOver (get? lower key) := by
  induction uppers generalizing lower with
  | nil => rfl
  | cons upper rest ih =>
    rw [List.foldl_cons, ih (fun other hother => hd other (List.mem_cons_of_mem _ hother)), List.map_cons, List.foldl_cons,
      get?_overlay_eq_foundOver lower (hd upper List.mem_cons_self)]

/-- If no two of the members that are laid over others have different values for a key, their order does not matter there. -/
theorem get?_foldl_overlay_perm {uppers uppers' : List (Members Key Value)} (hperm : uppers.Perm uppers')
    (hd : ∀ upper ∈ uppers, Distinct upper) (lower : Members Key Value) (key : Key)
    (hagree : ∀ upper ∈ uppers, ∀ other ∈ uppers, ∀ v w, get? upper key = some v → get? other key = some w → v = w) :
    get? (uppers.foldl overlay lower) key = get? (uppers'.foldl overlay lower) key := by
  rw [get?_foldl_overlay hd, get?_foldl_overlay fun upper hupper => hd upper (hperm.mem_iff.2 hupper)]
  refine (hperm.map _).foldl_eq' (fun x hx y hy found => ?_) _
  obtain ⟨upper, hupper, rfl⟩ := List.mem_map.1 hx
  obtain ⟨other, hother, rfl⟩ := List.mem_map.1 hy
  -- either one of the two has nothing there, or both have the same
  cases hv : get? upper key with
  | none => cases found <;> rfl
  | some v =>
    cases hw : get? other key with
    | none => cases found <;> rfl
    | some w => rw [hagree upper hupper other hother v w hv hw]

end Members

end EntitySchema
