import EntitySchema.Field.Normal
import EntitySchema.Proofs.Members
import EntitySchema.Proofs.Run

/-!
# Fields in normal form

The normal form of an entity's fields is taken field by field: what a field becomes depends on its own attributes alone, and
of those only a few are touched.

* `Puts`: what a normal form may put under a key.

Results:
* `get?_normalizeAll`: the normal form of a field of an entity.
* `normalize_invariant`: what such puts keep, the normal form keeps.
* `get?_normalize_of_untouched`: attributes that the normal form leaves alone.
* `get?_normalize_default`: a default that is not a truth value was there before.
* `normalize_eq_none_iff`: which fields are dropped.
-/
namespace EntitySchema.Field

/-! ## One field -/

/-- What a normal form may put under a key. -/
inductive Puts : Key → Value → Prop where
  | type (word : String) : Puts "type" (.str word)
  | dbType (word : String) : Puts "dbType" (.str word)
  | len (n : Int) : Puts "len" (.int n)
  | notNull : Puts "notNull" (.bool false)
  | default (b : Bool) : Puts "default" (.bool b)

/-- The attributes that a normal form may set. -/
def normalizedKeys : List Key := ["type", "dbType", "len", "notNull", "default"]

theorem Puts.mem_of_beq {key other : Key} {v : Value} (h : Puts key v) (hkey : (key == other) = true) :
    other ∈ normalizedKeys := by
  cases h <;> rw [Key.text_beq.1 hkey] <;> simp [normalizedKeys]

section
variable {c : Config} {params normal : Members Key Value}

/-- The normal form of a typed field is one of six. -/
theorem normalizeTyped_cases {declared : Value} (h : normalizeTyped c declared params = .ok normal) :
    normal = params ∨ normal = identifier c params ∨ normal = (identifier c params).set "notNull" (.bool false) ∨
      normal = discriminator c params ∨ normal = flag c params ∨ normal = params.set "type" (.str c.defaultFieldType) := by
  obtain ⟨word, -, rfl⟩ := map_eq_ok.1 h
  cases word.bind FieldKind.ofText? with
  | none => simp only; split <;> simp
  | some kind => cases kind <;> simp

theorem normalize_eq_ok {form : Option (Members Key Value)} (h : normalize c params = .ok form) :
    (params.value "type").isNull = true ∧ form = (if (params.value "notStorable").truthy then some params else none) ∨
      (params.value "type").isNull = false ∧
        ∃ normal, form = some normal ∧ normalizeTyped c (params.value "type") params = .ok normal := by
  unfold normalize at h
  simp only at h
  split at h
  · rename_i hnull
    cases h
    exact .inl ⟨hnull, rfl⟩
  · rename_i hnull
    obtain ⟨normal, hn, rfl⟩ := map_eq_ok.1 h
    exact .inr ⟨by simpa using hnull, normal, rfl, hn⟩

theorem identifier_invariant {P : Members Key Value → Prop} (hput : ∀ {m key v}, Puts key v → P m → P (Members.set m key v))
    (h : P params) : P (identifier c params) := by
  unfold identifier Members.setNew
  split
  · exact h
  · split
    · exact hput (.dbType _) h
    · exact hput (.len _) (hput (.dbType _) h)

/-- What everything that a normal form may put leaves as it is holds of the normal form of attributes of which it holds. -/
theorem normalize_invariant {P : Members Key Value → Prop} (hput : ∀ {m key v}, Puts key v → P m → P (Members.set m key v))
    (h : P params) (hnormal : normalize c params = .ok (some normal)) : P normal := by
  rcases normalize_eq_ok hnormal with ⟨-, hform⟩ | ⟨-, p, hform, hp⟩
  · split at hform
    · cases hform; exact h
    · cases hform
  · cases hform
    rcases normalizeTyped_cases hp with rfl | rfl | rfl | rfl | rfl | rfl
    · exact h
    · exact identifier_invariant hput h
    · exact hput .notNull (identifier_invariant hput h)
    · unfold discriminator
      simp only
      split
      · exact hput (.dbType _) h
      · exact hput (.len _) (hput (.dbType _) h)
    · exact hput (.default _) h
    · exact hput (.type _) h

theorem get?_normalize_of_untouched (h : normalize c params = .ok (some normal)) {key : Key}
    (hkey : key ∉ normalizedKeys) : Members.get? normal key = Members.get? params key := by
  refine normalize_invariant (P := fun m => Members.get? m key = Members.get? params key) (fun hputs hm => ?_) rfl h
  rw [Members.get?_set, if_neg fun hk => hkey (hputs.mem_of_beq hk), hm]

/-- A default of a normal form was there before, or is a truth value. -/
theorem get?_normalize_default (h : normalize c params = .ok (some normal)) :
    Members.get? normal "default" = Members.get? params "default" ∨
      ∃ b, Members.get? normal "default" = some (.bool b) := by
  refine normalize_invariant (P := fun m => Members.get? m "default" = Members.get? params "default" ∨
    ∃ b, Members.get? m "default" = some (.bool b)) (fun hputs hm => ?_) (.inl rfl) h
  cases hputs with
  | default b => exact .inr ⟨b, Members.get?_set_self _ _ _⟩
  | _ => rwa [Members.get?_set, if_neg (by simp)]

/-- A field is dropped exactly if it has no type and is not marked. -/
theorem normalize_eq_none_iff {form : Option (Members Key Value)} (h : normalize c params = .ok form) :
    form = none ↔ (params.value "type").isNull = true ∧ (params.value "notStorable").truthy = false := by
  rcases normalize_eq_ok h with ⟨hnull, rfl⟩ | ⟨hnull, p, rfl, -⟩
  · simp [hnull]
  · simp [hnull]

end

/-! ## All fields of an entity -/

/-- The normal form of fields does not depend on the entity, which is named in notes only. -/
theorem result_normalizeAll (c : Config) (entity entity' : Key) (fields : List (Key × Value)) :
    (normalizeAll c entity fields).result = (normalizeAll c entity' fields).result := by
  induction fields with
  | nil => rfl
  | cons field rest ih =>
    obtain ⟨name, v⟩ := field
    rw [normalizeAll, normalizeAll, Run.result_bind, Run.result_bind]
    refine bind_congr fun params => ?_
    rw [Run.result_bind, Run.result_bind]
    refine bind_congr fun form => ?_
    cases form with
    | none => exact ih
    | some normal =>
      simp only [Run.result_bind]
      rw [ih]

section
variable {c : Config} {entity : Key}

theorem normalizeAll_cons_eq_ok {name : Key} {v : Value} {rest normal : Members Key Value}
    (h : (normalizeAll c entity ((name, v) :: rest)).result = .ok normal) :
    ∃ params form rest', v = .object params ∧ normalize c params = .ok form ∧
      (normalizeAll c entity rest).result = .ok rest' ∧
      normal = (form.map fun p => (name, Value.object p)).toList ++ rest' := by
  rw [normalizeAll] at h
  obtain ⟨params, hparams, h⟩ := Run.result_bind_eq_ok.1 h
  obtain ⟨form, hform, h⟩ := Run.result_bind_eq_ok.1 h
  rw [Run.lift_eq_ok] at hparams hform
  have hv : v = .object params := by cases v <;> simp_all [Value.openMembers]
  cases form with
  | none =>
    obtain ⟨-, -, h⟩ := Run.result_bind_eq_ok.1 h
    exact ⟨params, none, normal, hv, hform, h, rfl⟩
  | some p =>
    obtain ⟨rest', hrest, h⟩ := Run.result_bind_eq_ok.1 h
    cases h
    exact ⟨params, some p, rest', hv, hform, hrest, rfl⟩

/-- What a field becomes; nothing if it is dropped. -/
def normalForm? (c : Config) (v : Value) : Option Value :=
  match normalize c v.members with
  | .ok (some params) => some (.object params)
  | _ => none

theorem normalForm?_eq_some {v w : Value} :
    normalForm? c v = some w ↔ ∃ params, normalize c v.members = .ok (some params) ∧ w = .object params := by
  unfold normalForm?
  split
  · rename_i params hparams
    simp [hparams, eq_comm]
  · rename_i hnone
    simp only [reduceCtorEq, false_iff, not_exists, not_and]
    exact fun params hparams => absurd hparams (hnone params)

theorem keys_normalizeAll {fields normal : Members Key Value} (h : (normalizeAll c entity fields).result = .ok normal) :
    (Members.keys normal).Sublist (Members.keys fields) := by
  induction fields generalizing normal with
  | nil => cases h; exact List.Sublist.slnil
  | cons entry rest ih =>
    obtain ⟨name, v⟩ := entry
    obtain ⟨params, form, rest', -, -, hrest, rfl⟩ := normalizeAll_cons_eq_ok h
    cases form with
    | none => exact (ih hrest).cons _
    | some p => exact (ih hrest).cons_cons _

theorem distinct_normalizeAll {fields normal : Members Key Value} (hd : Members.Distinct fields)
    (h : (normalizeAll c entity fields).result = .ok normal) : Members.Distinct normal :=
  List.Pairwise.sublist (keys_normalizeAll h) hd

/-- Every field of an entity that has a normal form is an object of attributes. -/
theorem normalize_of_mem {fields normal : Members Key Value} (h : (normalizeAll c entity fields).result = .ok normal)
    {name : Key} {v : Value} (hm : (name, v) ∈ fields) : ∃ params form, v = .object params ∧ normalize c params = .ok form := by
  induction fields generalizing normal with
  | nil => cases hm
  | cons entry rest ih =>
    obtain ⟨name', v'⟩ := entry
    obtain ⟨params, form, rest', hv, hform, hrest, -⟩ := normalizeAll_cons_eq_ok h
    rcases List.mem_cons.1 hm with hm | hm
    · cases hm; exact ⟨params, form, hv, hform⟩
    · exact ih hrest hm

/-- Every field of a normal form is the normal form of a field under its name. -/
theorem exists_of_mem_normalizeAll {fields normal : Members Key Value} (h : (normalizeAll c entity fields).result = .ok normal)
    {field : Key × Value} (hm : field ∈ normal) :
    ∃ params p, (field.1, .object params) ∈ fields ∧ normalize c params = .ok (some p) ∧ field.2 = .object p := by
  induction fields generalizing normal with
  | nil => cases h; cases hm
  | cons head rest ih =>
    obtain ⟨name, v⟩ := head
    obtain ⟨params, form, rest', rfl, hform, hrest, rfl⟩ := normalizeAll_cons_eq_ok h
    rcases List.mem_append.1 hm with hm | hm
    · cases form with
      | none => cases hm
      | some p =>
        rw [Option.map_some, Option.toList_some, List.mem_singleton] at hm
        subst hm
        exact ⟨params, p, List.mem_cons_self, hform, rfl⟩
    · obtain ⟨params', p, hmem, hp, hfield⟩ := ih hrest hm
      exact ⟨params', p, List.mem_cons_of_mem _ hmem, hp, hfield⟩

/-- The normal form of a field is found where the field was. -/
theorem get?_normalizeAll {fields normal : Members Key Value} (hd : Members.Distinct fields)
    (h : (normalizeAll c entity fields).result = .ok normal) (key : Key) :
    Members.get? normal key = (Members.get? fields key).bind (normalForm? c) := by
  induction fields generalizing normal with
  | nil => cases h; rfl
  | cons entry rest ih =>
    obtain ⟨name, v⟩ := entry
    obtain ⟨hne, hdrest⟩ := Members.distinct_cons.1 hd
    obtain ⟨params, form, rest', rfl, hform, hrest, rfl⟩ := normalizeAll_cons_eq_ok h
    rw [Members.get?_append, Members.get?_cons, ih hdrest hrest]
    by_cases hk : (name == key) = true
    · have hnone : Members.get? rest key = none := by
        refine Members.get?_eq_none_iff.2 fun entry he => ?_
        rw [← BEq.congr_right hk, BEq.comm]
        exact hne entry he
      cases form <;> simp [hnone, hk, normalForm?, Value.members, hform, Members.get?_cons]
    · cases form <;> simp [hk, Members.get?_cons]

end

end EntitySchema.Field
