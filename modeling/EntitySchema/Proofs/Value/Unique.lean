import EntitySchema.Proofs.Members
import EntitySchema.Value

/-!
# Values without double keys

What a reader or the compiler builds has no object with a key twice. Such a value is an object of distinct members that have no
key twice either, or no object.

Results:
* `Value.membersInduction`: what holds of a value if it holds of its members holds of every value.
* `decideUniqueKeys`: whether a value has no key twice can be decided.
* `uniqueKeys_object`: objects without double keys, by their members.
-/
namespace EntitySchema

namespace Members

/-- Keys are distinct exactly if their canonical spellings are. -/
theorem distinct_iff_nodup_canonical {α : Type} {m : Members Key α} :
    Distinct m ↔ (m.map fun entry => entry.1.canonical).Nodup := by
  have hkeys : (m.map fun entry => entry.1.canonical) = m.keys.map Key.canonical := by
    rw [keys, List.map_map]
    rfl
  rw [hkeys, Distinct, List.Nodup, List.pairwise_map]
  refine List.Pairwise.iff fun {a b} => ?_
  rw [← Bool.not_eq_true, Key.beq_iff]

end Members

namespace Value

/-! ## Induction along members -/

mutual

/-- What holds of a value if it holds of its members holds of every value. -/
@[elab_as_elim]
theorem membersInduction {P : Value → Prop} (h : ∀ v, (∀ entry ∈ v.members, P entry.2) → P v) : ∀ v, P v
  | object m => h _ (forall_mem_of_members h m)
  | list _ => h _ fun _ he => nomatch he
  | null => h _ fun _ he => nomatch he
  | bool _ => h _ fun _ he => nomatch he
  | int _ => h _ fun _ he => nomatch he
  | float _ => h _ fun _ he => nomatch he
  | str _ => h _ fun _ he => nomatch he

theorem forall_mem_of_members {P : Value → Prop} (h : ∀ v, (∀ entry ∈ v.members, P entry.2) → P v) :
    ∀ m : List (Key × Value), ∀ entry ∈ m, P entry.2
  | [], _, he => nomatch he
  | (_, v) :: rest, _, he => (List.mem_cons.1 he).elim (fun heq => heq ▸ membersInduction h v) (forall_mem_of_members h rest _)

end

/-! ## Keys -/

mutual

/-- Whether a value has no key twice, decided along the value. -/
def decideUniqueKeys : (v : Value) → Decidable v.UniqueKeys
  | null => .isTrue trivial
  | bool _ => .isTrue trivial
  | int _ => .isTrue trivial
  | float _ => .isTrue trivial
  | str _ => .isTrue trivial
  | list xs => decideUniqueKeysAll xs
  | object m =>
    have := decideUniqueKeysIn m
    inferInstanceAs (Decidable (_ ∧ UniqueKeysIn m))

def decideUniqueKeysAll : (xs : List Value) → Decidable (UniqueKeysAll xs)
  | [] => .isTrue trivial
  | v :: rest =>
    have := decideUniqueKeys v
    have := decideUniqueKeysAll rest
    inferInstanceAs (Decidable (_ ∧ _))

def decideUniqueKeysIn : (m : List (Key × Value)) → Decidable (UniqueKeysIn m)
  | [] => .isTrue trivial
  | (_, v) :: rest =>
    have := decideUniqueKeys v
    have := decideUniqueKeysIn rest
    inferInstanceAs (Decidable (_ ∧ _))

end

instance (v : Value) : Decidable v.UniqueKeys :=
  decideUniqueKeys v

theorem uniqueKeysIn_iff {m : Members Key Value} : UniqueKeysIn m ↔ ∀ entry ∈ m, entry.2.UniqueKeys := by
  induction m with
  | nil => simp [UniqueKeysIn]
  | cons entry rest ih => rw [UniqueKeysIn, ih, List.forall_mem_cons]

theorem uniqueKeysAll_iff {xs : List Value} : UniqueKeysAll xs ↔ ∀ v ∈ xs, v.UniqueKeys := by
  induction xs with
  | nil => simp [UniqueKeysAll]
  | cons v rest ih => rw [UniqueKeysAll, ih, List.forall_mem_cons]

/-- An object has no key twice at any depth exactly if its members are distinct and have no key twice. -/
theorem uniqueKeys_object {m : Members Key Value} :
    (object m).UniqueKeys ↔ Members.Distinct m ∧ ∀ entry ∈ m, entry.2.UniqueKeys := by
  rw [UniqueKeys, uniqueKeysIn_iff, Members.distinct_iff_nodup_canonical]

theorem uniqueKeys_list {xs : List Value} : (list xs).UniqueKeys ↔ ∀ v ∈ xs, v.UniqueKeys := by
  rw [UniqueKeys, uniqueKeysAll_iff]

theorem UniqueKeys.distinct {m : Members Key Value} (h : (object m).UniqueKeys) : Members.Distinct m :=
  (uniqueKeys_object.1 h).1

theorem UniqueKeys.of_get? {m : Members Key Value} {key : Key} {v : Value} (h : (object m).UniqueKeys)
    (hv : Members.get? m key = some v) : v.UniqueKeys := by
  obtain ⟨k, -, hm⟩ := Members.exists_of_get? hv
  exact (uniqueKeys_object.1 h).2 _ hm

/-- The members of any value without double keys. -/
theorem UniqueKeys.members {v : Value} (h : v.UniqueKeys) : Members.Distinct v.members ∧ ∀ entry ∈ v.members, entry.2.UniqueKeys := by
  cases v with
  | object m => exact uniqueKeys_object.1 h
  | _ => exact ⟨Members.distinct_nil, fun _ he => absurd he List.not_mem_nil⟩

theorem UniqueKeys.value {m : Members Key Value} (h : (object m).UniqueKeys) (key : Key) : (m.value key).UniqueKeys := by
  unfold Members.value
  cases hget : Members.get? m key with
  | none => trivial
  | some v => exact h.of_get? hget

theorem uniqueKeys_nil : (object []).UniqueKeys := by
  simp [uniqueKeys_object]

end Value

end EntitySchema
