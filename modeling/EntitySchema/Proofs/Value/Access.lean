import EntitySchema.Value.Access

/-!
# Answers of values

What is known of a value that had an answer.

Results:
* `openMembers_eq_ok`, `spread_eq_ok`: only an object has members.
* `givenMembers_eq_ok`: members that are given, or none.
* `item_eq_ok`: a key that had to be there.
* `value_eq_str`: a text under a key is there.
-/
namespace EntitySchema

namespace Value

@[simp] theorem members_object (m : List (Key × Value)) : (object m).members = m := rfl

@[simp] theorem openMembers_eq_ok {v : Value} {m : Members Key Value} : v.openMembers = .ok m ↔ v = .object m := by
  cases v <;> simp [openMembers]

@[simp] theorem spread_eq_ok {v : Value} {m : Members Key Value} : v.spread = .ok m ↔ v = .object m := by
  cases v <;> simp [spread]

theorem givenMembers_eq_ok {v : Value} {m : Members Key Value} (h : v.givenMembers = .ok m) : m = v.members := by
  unfold givenMembers at h
  split at h
  · rw [openMembers_eq_ok.1 h]; rfl
  · rename_i hv
    cases h
    cases v with
    | object fields => cases fields <;> simp_all [truthy, members]
    | _ => rfl

@[simp] theorem givenMembers_object (m : Members Key Value) : (object m).givenMembers = .ok m := by
  cases m <;> rfl

theorem item_eq_ok {v w : Value} {key : Key} (h : v.item key = .ok w) : ∃ m, v = .object m ∧ Members.get? m key = some w := by
  cases v with
  | object m =>
    unfold item at h
    simp only at h
    split at h
    · rename_i found hfound
      cases h
      exact ⟨m, rfl, hfound⟩
    · cases h
  | _ => cases h

@[simp] theorem nameText_eq_ok {v : Value} {s : String} : v.nameText = .ok s ↔ v = .str s := by
  cases v <;> simp [nameText]

theorem isNull_iff {v : Value} : v.isNull = true ↔ v = .null := by
  cases v <;> simp [isNull]

@[simp] theorem isText_iff {v : Value} {s : String} : v.isText s = true ↔ v = .str s := by
  cases v <;> simp [isText]

end Value

namespace Members

theorem value_of_get? {m : Members Key Value} {key : Key} {v : Value} (h : get? m key = some v) : value m key = v := by
  rw [value, h]; rfl

/-- What stands under a key depends on the look-up alone. -/
theorem value_congr {m m' : Members Key Value} {key : Key} (h : get? m key = get? m' key) : value m key = value m' key := by
  unfold value
  rw [h]

theorem get?_of_value {m : Members Key Value} {key : Key} {v : Value} (h : value m key = v) (hv : v ≠ .null) :
    get? m key = some v := by
  unfold value at h
  cases hget : get? m key with
  | none => rw [hget] at h; exact absurd h.symm hv
  | some w => rw [hget] at h; exact congrArg some h

theorem value_set (m : Members Key Value) (key : Key) (v : Value) (other : Key) :
    value (set m key v) other = if key == other then v else value m other := by
  unfold value
  rw [get?_set]
  split <;> rfl

theorem givenMembers_of_get? {m below : Members Key Value} {key : Key} (h : get? m key = some (.object below)) :
    (value m key).givenMembers = .ok below := by
  rw [value_of_get? h, Value.givenMembers_object]

theorem value_eq_str {m : Members Key Value} {key : Key} {s : String} :
    value m key = .str s ↔ get? m key = some (.str s) := by
  unfold value
  cases get? m key <;> simp

end Members

end EntitySchema
