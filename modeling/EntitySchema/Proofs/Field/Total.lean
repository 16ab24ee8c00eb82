import EntitySchema.Proofs.Field.Normal
import EntitySchema.Proofs.Field.Resolve
import EntitySchema.Proofs.Record.Fits

/-!
# Fields that give a result

The types of declared fields are texts or null, and with those nothing can go wrong when a field is resolved. In a compiled
field the type may be anything; there the normal form fails exactly on the types that are lists or objects.

* `TextType`: the type of a field is a text or null.
* `Readable`: the type of a field need not be looked up, or can be.

Results:
* `compiled_of_readable`, `compiled_of_not_readable`: a declaration is compiled exactly if it is readable.
* `resolve_yields`: a declared field is resolved or left out.
* `normalizeAll_isOk_iff`: when the fields of an entity have normal forms.
-/
namespace EntitySchema

/-- Whether a value is no list and no object. -/
def Value.isScalar (v : Value) : Bool :=
  v.scalar?.isSome

namespace Field

/-! ## Resolving -/

variable {c : Config} {params : Params}

/-- A type that is null or a text. -/
abbrev TextType (params : Params) : Prop :=
  (Record.Shape.nullable .text).Fits (params.value "type")

theorem textType_congr {m m' : Params} (h : Members.get? m "type" = Members.get? m' "type") (hm' : TextType m') :
    TextType m := by
  unfold TextType Members.value at hm' ⊢
  rw [h]
  exact hm'

theorem TextType.overlay {m m' : Params} (hd : Members.Distinct m') (h : TextType m) (h' : TextType m') :
    TextType (Members.overlay m m') := by
  have hget := Members.get?_overlay m hd "type"
  unfold TextType at h h' ⊢
  cases hupper : Members.get? m' "type" with
  | none =>
    rw [hupper] at hget
    rw [Members.value, hget]
    exact h
  | some w =>
    rw [Members.value_of_get? hupper] at h'
    rw [hupper] at hget
    rw [Members.value_of_get? hget]
    cases hlower : Members.get? m "type" with
    | none => rw [Members.mergedAt_of_get?_none hlower]; exact h'
    | some v =>
      rw [Members.value_of_get? hlower] at h
      rw [Members.mergedAt_of_get? hlower]
      exact Record.fits_overlay h h'

/-- The type of a declaration is looked up only if it is given and no length is; it must be a scalar then. -/
def Readable (params : Params) : Prop :=
  (params.value "type").truthy = true → params.contains "maxLength" = false → params.contains "len" = false →
    (params.value "type").isScalar = true

theorem withDefaultLength_yields {defs : Params} (h : (defs.value "type").truthy = true → defs.contains "len" = false →
      (defs.value "type").isScalar = true) :
    Yields (withDefaultLength c defs) fun m => ∀ key : Key, (key = "len" → defs.contains "len" = true) →
      Members.get? m key = Members.get? defs key := by
  unfold withDefaultLength
  simp only
  split
  · rename_i hlookup
    obtain ⟨htype, hlen⟩ := Bool.and_eq_true_iff.1 hlookup
    have hlen : defs.contains "len" = false := by simpa using hlen
    have hword : Yields (Value.word? (defs.value "type")) fun _ => True := by
      obtain ⟨key, hkey⟩ := Option.isSome_iff_exists.1 (h htype hlen)
      exact ⟨key.text?, by rw [Value.word?, Value.key, hkey]; rfl, trivial⟩
    refine hword.map fun word _ key hkey => ?_
    have hne : key ≠ .text "len" := fun heq => by
      have hthere := hkey heq
      rw [hlen] at hthere
      cases hthere
    split
    · rw [Members.get?_set, if_neg (by simpa using hne)]
    · rfl
  · exact yields_ok fun _ _ => rfl

theorem withDefaultLength_eq_error {defs : Params} (htype : (defs.value "type").truthy = true)
    (hlen : defs.contains "len" = false) (hscalar : (defs.value "type").isScalar = false) :
    withDefaultLength c defs = .error .badOperand := by
  have hnone : (defs.value "type").scalar? = none := by simpa [Value.isScalar] using hscalar
  unfold withDefaultLength
  simp only
  rw [if_pos (by simp [htype, hlen]), Value.word?, Value.key, hnone]
  rfl

/-- Before a length is filled in, a field has what its declaration says. -/
theorem compiled_eq (c : Config) (params : Params) : ∃ defs, compiled c params = withDefaultLength c defs ∧
    ∀ target : String, target ∉ ["notStorable", "notNull", "fieldType"] → Members.get? defs target = said c params target := by
  have hsaid : ∀ target : String, target ∉ ["notStorable", "notNull", "fieldType"] →
      Members.get? (attributes c (withoutIdleNotNull params)) target = said c params target := fun target htarget => by
    rw [get?_attributes (by simp_all), said_withoutIdleNotNull (by simp_all)]
  unfold compiled
  simp only
  split
  · refine ⟨_, rfl, fun target htarget => ?_⟩
    rw [Members.get?_set, if_neg (by simpa using fun heq => htarget (by simp [← heq]))]
    exact hsaid target htarget
  · exact ⟨_, rfl, hsaid⟩

/-- The attributes of a readable declaration are what it says; a length only if it says one. -/
theorem compiled_of_readable (h : Readable params) : Yields (compiled c params) fun m =>
    ∀ target : String, target ∉ ["notStorable", "notNull", "fieldType"] → (target = "len" → said c params "len" ≠ none) →
      Members.get? m target = said c params target := by
  obtain ⟨defs, hcompiled, hdefs⟩ := compiled_eq c params
  have htype : defs.value "type" = params.value "type" := by
    rw [Members.value, hdefs "type" (by decide), said_type, Members.value]
  have hlength : Members.get? defs "len" = said c params "len" := hdefs "len" (by decide)
  have hreadable : (defs.value "type").truthy = true → defs.contains "len" = false → (defs.value "type").isScalar = true := by
    intro htruthy hlen
    rw [htype] at htruthy ⊢
    rw [Members.contains, hlength, said_len] at hlen
    exact h htruthy (by simp_all [Members.contains]) (by simp_all [Members.contains])
  rw [hcompiled]
  obtain ⟨m, hm, hget⟩ := withDefaultLength_yields (c := c) hreadable
  refine ⟨m, hm, fun target htarget hlen => ?_⟩
  rw [hget target fun heq => ?_, hdefs target htarget]
  rw [Members.contains, hlength, Option.isSome_iff_ne_none]
  exact hlen (Key.text.inj heq)

theorem compiled_of_not_readable (h : ¬Readable params) : compiled c params = .error .badOperand := by
  obtain ⟨defs, hcompiled, hdefs⟩ := compiled_eq c params
  have htype : defs.value "type" = params.value "type" := by
    rw [Members.value, hdefs "type" (by decide), said_type, Members.value]
  simp only [Readable, Classical.not_imp] at h
  obtain ⟨htruthy, hlong, hshort, hscalar⟩ := h
  rw [hcompiled]
  refine withDefaultLength_eq_error (by rwa [htype]) ?_ (by rw [htype]; simpa using hscalar)
  rw [Members.contains, hdefs "len" (by decide), said_len]
  simp_all [Members.contains]

/-- A declaration whose type is a text or null is compiled, and so is its type. -/
theorem compiled_yields (h : TextType params) : Yields (compiled c params) TextType := by
  have hread : Readable params := fun htruthy _ _ => by
    obtain ⟨s, hs⟩ := Record.text_of_truthy h htruthy
    rw [hs]
    rfl
  obtain ⟨m, hm, hget⟩ := compiled_of_readable (c := c) hread
  refine ⟨m, hm, textType_congr ?_ h⟩
  rw [hget "type" (by decide) fun hlen => absurd hlen (by decide), said_type]

/-- So is a declaration whose type has no metadata, unless it is left out. -/
theorem resolve_yields (name : String) (h : Record.typedRecord.Fits (.object params)) :
    Yields (resolve c name params {}).result fun found => ∀ m, found = some m → Members.Distinct m ∧ TextType m := by
  have hover : TextType (Members.overlay [] params) := Record.fits_type (Record.fits_merge Record.fits_record_nil h)
  have htype : TextType (withTypeDefs {} params) := textType_congr (get?_withTypeDefs (by simp)) hover
  by_cases hnone : (resolve c name params {}).result = .ok none
  · exact ⟨none, hnone, fun _ h => nomatch h⟩
  · obtain ⟨m, hm, hmtype⟩ := compiled_yields (c := c) htype
    refine ⟨some m, by rw [result_resolve hnone, hm]; rfl, fun m' hm' => ?_⟩
    cases hm'
    exact ⟨distinct_compiled hm, hmtype⟩

/-! ## Normal forms -/

theorem normalize_isOk_iff : (∃ form, normalize c params = .ok form) ↔ (params.value "type").isScalar = true := by
  unfold normalize normalizeTyped Value.word? Value.key Value.isScalar
  simp only
  cases params.value "type" <;> simp [Value.isNull, Value.scalar?, Except.map]

theorem onlyMisuses_normalizeAll (c : Config) (entity : Key) (fields : Members Key Value) :
    OnlyMisuses (normalizeAll c entity fields).result := by
  induction fields with
  | nil => exact onlyMisuses_ok
  | cons entry rest ih =>
    rw [normalizeAll, Run.result_bind]
    refine onlyMisuses_lift.bind fun params => ?_
    rw [Run.result_bind]
    refine onlyMisuses_lift.bind fun form => ?_
    cases form with
    | none => exact ih
    | some normal =>
      simp only [Run.result_bind]
      exact ih.bind fun _ => onlyMisuses_ok

/-- The fields of an entity have normal forms exactly if each is an object whose type is a scalar. -/
theorem normalizeAll_isOk_iff (c : Config) (entity : Key) {fields : Members Key Value} :
    (∃ normal, (normalizeAll c entity fields).result = .ok normal) ↔
      ∀ entry ∈ fields, ∃ attributes : Members Key Value, entry.2 = .object attributes ∧
        (attributes.value "type").isScalar = true := by
  constructor
  · intro hnormal entry he
    obtain ⟨normal, h⟩ := hnormal
    obtain ⟨attributes, form, hv, hform⟩ := normalize_of_mem h he
    exact ⟨attributes, hv, normalize_isOk_iff.1 ⟨form, hform⟩⟩
  · intro h
    induction fields with
    | nil => exact ⟨[], rfl⟩
    | cons entry rest ih =>
      obtain ⟨name, v⟩ := entry
      obtain ⟨attributes, rfl, htype⟩ := h _ List.mem_cons_self
      obtain ⟨form, hform⟩ := (normalize_isOk_iff (c := c)).2 htype
      obtain ⟨normal, hnormal⟩ := ih fun entry he => h entry (List.mem_cons_of_mem _ he)
      rw [normalizeAll]
      cases form with
      | none =>
        refine ⟨normal, Run.result_bind_eq_ok.2 ⟨attributes, rfl, ?_⟩⟩
        refine Run.result_bind_eq_ok.2 ⟨none, Run.lift_eq_ok.2 hform, ?_⟩
        exact Run.result_bind_eq_ok.2 ⟨(), rfl, hnormal⟩
      | some m =>
        refine ⟨(name, .object m) :: normal, Run.result_bind_eq_ok.2 ⟨attributes, rfl, ?_⟩⟩
        refine Run.result_bind_eq_ok.2 ⟨some m, Run.lift_eq_ok.2 hform, ?_⟩
        exact Run.result_bind_eq_ok.2 ⟨normal, hnormal, rfl⟩

end Field

end EntitySchema
