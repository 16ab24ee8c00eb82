import EntitySchema.Proofs.Field.Normal
import EntitySchema.Proofs.Tree.Overlay
import EntitySchema.Proofs.Tree.Unset
import EntitySchema.Field.Resolve

/-!
# Laws of compiled fields

Fields are resolved, merged, cut and normalized at many places. `FieldLaw` collects what a property of attributes has to be
closed under to hold after all of these; a property that is a law then holds of every field at every stage.

* `Plain`: attributes as the compiler itself writes them.
* `MergeLaw`, `FieldLaw`: the closure conditions, for attributes that are merged only and for all stages.
* `FieldsWith`: different fields, each with the property.

Results:
* `FieldsWith.overlay`, `FieldsWith.unset`, `FieldsWith.normalizeAll`: what keeps the fields of an entity lawful.
-/
namespace EntitySchema.Field

/-- Attributes as the compiler writes them: the mark under its key alone, and no text for a default. -/
structure Plain (attributes : Members Key Value) : Prop where
  distinct : Members.Distinct attributes
  marked : Members.get? attributes "not_storable" = none
  default : ∀ text, Members.get? attributes "default" ≠ some (.str text)

/-- A property of a field and its attributes that every stage keeps. -/
structure FieldLaw (c : Config) (P : Key → Members Key Value → Prop) : Prop where
  congr : ∀ {f g m}, (f == g) = true → P f m → P g m
  plain : ∀ f {m}, Plain m → P f m
  resolved : ∀ f {params m}, compiled c params = .ok m → P f m
  merge : ∀ f {m m'}, Members.Distinct m' → P f m → P f m' → P f (m.overlay m')
  unset : ∀ f {m} path, P f m → P f (m.unset path)
  normal : ∀ f {m m'}, normalize c m = .ok (some m') → P f m → P f m'

/-- A law that says nothing. -/
theorem fieldLaw_true (c : Config) : FieldLaw c fun _ _ => True :=
  ⟨fun _ _ => trivial, fun _ _ _ => trivial, fun _ _ _ _ => trivial, fun _ _ _ _ _ _ => trivial, fun _ _ _ _ => trivial,
    fun _ _ _ _ _ => trivial⟩

/-- A property of a field and its attributes that is kept when attributes are merged. -/
structure MergeLaw (P : Key → Members Key Value → Prop) : Prop where
  congr : ∀ {f g m}, (f == g) = true → P f m → P g m
  merge : ∀ f {m m'}, Members.Distinct m' → P f m → P f m' → P f (m.overlay m')

theorem FieldLaw.mergeLaw {c : Config} {P : Key → Members Key Value → Prop} (h : FieldLaw c P) : MergeLaw P :=
  ⟨h.congr, h.merge⟩

/-- Fields of different names, each an object of different attributes with the property. -/
structure FieldsWith (P : Key → Members Key Value → Prop) (fields : Members Key Value) : Prop where
  distinct : Members.Distinct fields
  each : ∀ f v, Members.get? fields f = some v → ∃ m, v = .object m ∧ Members.Distinct m ∧ P f m

section
variable {c : Config} {P : Key → Members Key Value → Prop} {fields more : Members Key Value}

theorem FieldsWith.nil : FieldsWith P [] :=
  ⟨Members.distinct_nil, fun _ _ h => nomatch h⟩

theorem FieldsWith.mem (h : FieldsWith P fields) {entry : Key × Value} (he : entry ∈ fields) :
    ∃ m, entry.2 = .object m ∧ Members.Distinct m ∧ P entry.1 m :=
  h.each entry.1 entry.2 (Members.get?_of_mem h.distinct he)

theorem FieldsWith.of_mem (hlaw : MergeLaw P) (hd : Members.Distinct fields)
    (h : ∀ entry ∈ fields, ∃ m, entry.2 = .object m ∧ Members.Distinct m ∧ P entry.1 m) : FieldsWith P fields := by
  refine ⟨hd, fun f v hv => ?_⟩
  obtain ⟨k, hk, hm⟩ := Members.exists_of_get? hv
  obtain ⟨m, hm, hdm, hP⟩ := h _ hm
  exact ⟨m, hm, hdm, hlaw.congr hk hP⟩

/-- Lawful fields over lawful fields are lawful. -/
theorem FieldsWith.overlay (hlaw : MergeLaw P) (h : FieldsWith P fields) (hmore : FieldsWith P more) :
    FieldsWith P (fields.overlay more) := by
  refine ⟨Members.distinct_merge _ h.distinct, fun f v hv => ?_⟩
  rw [Members.overlay, Members.get?_merge hmore.distinct] at hv
  cases hupper : Members.get? more f with
  | none => rw [hupper] at hv; exact h.each f v hv
  | some w =>
    rw [hupper] at hv
    cases hv
    obtain ⟨m', rfl, hd', hP'⟩ := hmore.each f w hupper
    cases hlower : Members.get? fields f with
    | none => rw [Members.mergedAt_of_get?_none hlower]; exact ⟨m', rfl, hd', hP'⟩
    | some v =>
      obtain ⟨m, rfl, hd, hP⟩ := h.each f v hlower
      rw [Members.mergedAt_of_get? hlower, Value.overlay_object]
      exact ⟨_, rfl, Members.distinct_merge _ hd, hlaw.merge f hd' hP hP'⟩

/-- Lawful fields of which something was taken away are lawful. -/
theorem FieldsWith.unset (hlaw : FieldLaw c P) (h : FieldsWith P fields) (path : Path) : FieldsWith P (fields.unset path) := by
  refine ⟨Members.distinct_unset path h.distinct, fun f v hv => ?_⟩
  rcases Members.get?_unset hv with hv | ⟨below, rest, hbelow, rfl⟩
  · exact h.each f v hv
  · obtain ⟨m, hm, hd, hP⟩ := h.each f _ hbelow
    cases hm
    exact ⟨_, rfl, Members.distinct_unset rest hd, hlaw.unset f rest hP⟩

theorem distinct_normalize {params normal : Members Key Value} (hd : Members.Distinct params)
    (h : normalize c params = .ok (some normal)) : Members.Distinct normal :=
  normalize_invariant (fun _ hm => Members.distinct_set _ _ hm) hd h

theorem Plain.normalize {params normal : Members Key Value} (h : Plain params)
    (hnormal : Field.normalize c params = .ok (some normal)) : Plain normal where
  distinct := distinct_normalize h.distinct hnormal
  marked := by
    rw [get?_normalize_of_untouched hnormal (by simp [normalizedKeys])]
    exact h.marked
  default text := by
    rcases get?_normalize_default hnormal with hsame | ⟨b, hb⟩
    · rw [hsame]; exact h.default text
    · rw [hb]; simp

/-- The normal forms of lawful fields are lawful. -/
theorem FieldsWith.normalizeAll (hlaw : FieldLaw c P) {entity : Key} {normal : Members Key Value} (h : FieldsWith P fields)
    (hnormal : (normalizeAll c entity fields).result = .ok normal) : FieldsWith P normal := by
  refine ⟨distinct_normalizeAll h.distinct hnormal, fun f v hv => ?_⟩
  rw [get?_normalizeAll h.distinct hnormal] at hv
  obtain ⟨w, hw, hv⟩ := Option.bind_eq_some_iff.1 hv
  obtain ⟨m, rfl, hd, hP⟩ := h.each f w hw
  obtain ⟨params, hparams, rfl⟩ := normalForm?_eq_some.1 hv
  exact ⟨params, rfl, distinct_normalize hd hparams, hlaw.normal f hparams hP⟩

end

end EntitySchema.Field
