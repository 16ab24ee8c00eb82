import EntitySchema.Proofs.Field.Total

/-!
# What a normal form is

A field is in normal form if nothing is left to do: it has no type and is not stored, or it has a type that the storage reads
and carries the attributes that the type asks for. Taking normal forms leads there, unless fields of unknown types get a type
that asks for attributes, and from there nowhere else. Attributes laid over others are in normal form if they are so themselves.

* `Carries`: the attributes that a kind of field asks for.
* `IsNormal`: a field in normal form.

Results:
* `isNormal_of_normalize`: taking a normal form gives one.
* `normalize_of_isNormal`: a normal form is its own.
* `IsNormal.overlay`: a normal form over other attributes is one.
* `normalizeAll_of_isNormal`: fields in normal form stay as they are.
-/
namespace EntitySchema.Field

/-! ## Normal forms -/

/-- The kinds of field that ask for attributes. -/
def coercedKinds : List FieldKind := [.id, .foreignId, .foreignType, .bool]

/-- The length of a column that names the entity of a parent, if none is given. -/
def discriminatorLength (c : Config) : Int :=
  (c.defaultLength.get? FieldKind.varchar.word).getD 255

/-- The column of an identifier is of an integer type, or of the type of other identifiers with some length. -/
def IsIdentifier (c : Config) (params : Members Key Value) : Prop :=
  (∃ t ∈ c.integerDbTypes, params.value "dbType" = .str t) ∨
    params.value "dbType" = .str c.idDbType ∧ params.contains "len" = true

/-- The attributes that a kind of field asks for. -/
def Carries (c : Config) (params : Members Key Value) : FieldKind → Prop
  | .id => IsIdentifier c params
  | .foreignId => IsIdentifier c params ∧ params.value "notNull" = .bool false
  | .foreignType => params.value "dbType" = .str FieldKind.varchar.word ∧
      ((params.value "len").truthy = true ∨ params.value "len" = .int (discriminatorLength c))
  | .bool => ∃ b, params.value "default" = .bool b
  | _ => True

/-- A field in normal form. -/
inductive IsNormal (c : Config) (params : Members Key Value) : Prop where
  /-- It has no type and is not stored. -/
  | untyped (htype : params.value "type" = .null) (hmark : (params.value "notStorable").truthy = true)
  /-- Its type is a kind, and it carries what the kind asks for. -/
  | ofKind (kind : FieldKind) (htype : params.value "type" = .str kind.word) (hcarries : Carries c params kind)
  /-- Its type is no kind, but one that is passed on or the default type. -/
  | ofWord (word : String) (htype : params.value "type" = .str word) (hkind : FieldKind.ofText? word = none)
      (hword : word ∈ passedTypes ∨ word = c.defaultFieldType)

theorem word_of_ofText? {word : String} {kind : FieldKind} (h : FieldKind.ofText? word = some kind) : kind.word = word := by
  have hfound := List.find?_some h
  simpa using hfound

theorem carries_of_not_coerced {c : Config} {params : Members Key Value} {kind : FieldKind} (h : kind ∉ coercedKinds) :
    Carries c params kind := by
  cases kind with
  | id | foreignId | foreignType | bool => exact absurd (by decide) h
  | _ => trivial

variable {c : Config} {params normal : Members Key Value}

/-! ## Taking a normal form -/

theorem word?_eq_ok {v : Value} {word : Option String} (h : v.word? = .ok word) :
    (∃ s, word = some s ∧ v = .str s) ∨ word = none := by
  unfold Value.word? Value.key at h
  cases v <;> simp only [Value.scalar?, Except.map, Except.ok.injEq, Key.text?, reduceCtorEq] at h
  · exact .inr h.symm
  · exact .inr h.symm
  · exact .inr h.symm
  · exact .inr h.symm
  · exact .inl ⟨_, h.symm, rfl⟩

theorem isIdentifier_identifier (c : Config) (params : Members Key Value) : IsIdentifier c (identifier c params) := by
  unfold identifier
  split
  · rename_i hinteger
    obtain ⟨t, ht, htext⟩ := List.any_eq_true.1 hinteger
    exact .inl ⟨t, ht, Value.isText_iff.1 htext⟩
  · unfold Members.setNew
    split
    · rename_i hlen
      exact .inr ⟨by rw [Members.value_set, if_pos BEq.rfl], hlen⟩
    · refine .inr ⟨?_, ?_⟩
      · rw [Members.value_set, if_neg (by simp), Members.value_set, if_pos BEq.rfl]
      · rw [Members.contains_set, BEq.rfl, Bool.true_or]

theorem value_type_identifier (c : Config) (params : Members Key Value) :
    (identifier c params).value "type" = params.value "type" := by
  unfold identifier Members.setNew
  split
  · rfl
  · split
    · rw [Members.value_set, if_neg (by simp)]
    · rw [Members.value_set, if_neg (by simp), Members.value_set, if_neg (by simp)]

theorem carries_discriminator (c : Config) (params : Members Key Value) :
    Carries c (discriminator c params) .foreignType := by
  unfold discriminator
  simp only
  split
  · rename_i hlen
    exact ⟨by rw [Members.value_set, if_pos BEq.rfl], .inl hlen⟩
  · refine ⟨?_, .inr ?_⟩
    · rw [Members.value_set, if_neg (by simp), Members.value_set, if_pos BEq.rfl]
    · rw [Members.value_set, if_pos BEq.rfl]
      rfl

theorem value_type_discriminator (c : Config) (params : Members Key Value) :
    (discriminator c params).value "type" = params.value "type" := by
  unfold discriminator
  simp only
  split
  · rw [Members.value_set, if_neg (by simp)]
  · rw [Members.value_set, if_neg (by simp), Members.value_set, if_neg (by simp)]

/-- The type of a typed field in normal form is a text. -/
theorem type_of_normalizeTyped (h : normalizeTyped c (params.value "type") params = .ok normal) :
    ∃ word, normal.value "type" = .str word := by
  have hform := h
  obtain ⟨word, hword, rfl⟩ := map_eq_ok.1 h
  have hset : (params.set "type" (.str c.defaultFieldType)).value "type" = .str c.defaultFieldType := by
    rw [Members.value_set, if_pos BEq.rfl]
  rcases word?_eq_ok hword with ⟨s, rfl, htype⟩ | rfl
  · rcases normalizeTyped_cases hform with hform | hform | hform | hform | hform | hform
    · exact ⟨s, by rw [hform, htype]⟩
    · exact ⟨s, by rw [hform, value_type_identifier, htype]⟩
    · exact ⟨s, by rw [hform, Members.value_set, if_neg (by simp), value_type_identifier, htype]⟩
    · exact ⟨s, by rw [hform, value_type_discriminator, htype]⟩
    · exact ⟨s, by rw [hform, flag, Members.value_set, if_neg (by simp), htype]⟩
    · exact ⟨_, by rw [hform, hset]⟩
  · exact ⟨_, hset⟩

theorem carries_flag (c : Config) (params : Members Key Value) : Carries c (flag c params) .bool :=
  ⟨_, Members.value_of_get? (Members.get?_set_self _ _ _)⟩

theorem isNormal_of_default (hdefault : c.defaultFieldType ∉ coercedKinds.map FieldKind.word)
    (htype : params.value "type" = .str c.defaultFieldType) : IsNormal c params := by
  cases hkind : FieldKind.ofText? c.defaultFieldType with
  | none => exact .ofWord _ htype hkind (.inr rfl)
  | some kind =>
    have hword : kind.word = c.defaultFieldType := word_of_ofText? hkind
    refine .ofKind kind (hword ▸ htype) (carries_of_not_coerced fun hmem => hdefault ?_)
    exact hword ▸ List.mem_map_of_mem hmem

/-- A typed field takes a normal form of its type, or of the default type. -/
theorem isNormal_of_normalizeTyped (hdefault : c.defaultFieldType ∉ coercedKinds.map FieldKind.word)
    (h : normalizeTyped c (params.value "type") params = .ok normal) : IsNormal c normal := by
  obtain ⟨word, hword, rfl⟩ := map_eq_ok.1 h
  have hunknown : IsNormal c (params.set "type" (.str c.defaultFieldType)) :=
    isNormal_of_default hdefault (by rw [Members.value_set, if_pos BEq.rfl])
  rcases word?_eq_ok hword with ⟨s, rfl, htype⟩ | rfl
  · simp only [Option.bind_some, Option.any_some]
    cases hkind : FieldKind.ofText? s with
    | none =>
      simp only
      split
      · rename_i hpassed
        exact .ofWord s htype hkind (.inl (by simpa using hpassed))
      · exact hunknown
    | some kind =>
      rw [← word_of_ofText? hkind] at htype
      cases kind with
      | id => exact .ofKind .id ((value_type_identifier c params).trans htype) (isIdentifier_identifier c params)
      | foreignId =>
        refine .ofKind .foreignId ?_ ⟨?_, ?_⟩
        · rw [Members.value_set, if_neg (by simp), value_type_identifier, htype]
        · have hidentifier := isIdentifier_identifier c params
          unfold IsIdentifier at hidentifier ⊢
          rw [Members.value_set, if_neg (by simp), Members.contains_set]
          simpa using hidentifier
        · rw [Members.value_set, if_pos BEq.rfl]
      | foreignType =>
        exact .ofKind .foreignType ((value_type_discriminator c params).trans htype) (carries_discriminator c params)
      | bool =>
        refine .ofKind .bool ?_ (carries_flag c params)
        rw [flag, Members.value_set, if_neg (by simp), htype]
      | _ => exact .ofKind _ htype trivial
  · exact hunknown

/-- Taking a normal form gives one, if the default type asks for nothing. -/
theorem isNormal_of_normalize (hdefault : c.defaultFieldType ∉ coercedKinds.map FieldKind.word)
    (h : normalize c params = .ok (some normal)) : IsNormal c normal := by
  rcases normalize_eq_ok h with ⟨hnull, hform⟩ | ⟨-, p, hform, hp⟩
  · split at hform
    · rename_i hmark
      cases hform
      exact .untyped (Value.isNull_iff.1 hnull) hmark
    · cases hform
  · cases hform
    exact isNormal_of_normalizeTyped hdefault hp

/-- The type of a field in normal form is a text, if the field is not marked. -/
theorem type_of_normalize (h : normalize c params = .ok (some normal)) (hmark : Members.get? normal "notStorable" = none) :
    ∃ word, normal.value "type" = .str word := by
  rcases normalize_eq_ok h with ⟨-, hform⟩ | ⟨-, p, hform, hp⟩
  · split at hform
    · rename_i hmarked
      cases hform
      rw [Members.value, hmark] at hmarked
      cases hmarked
    · cases hform
  · cases hform
    exact type_of_normalizeTyped hp

/-! ## Normal forms of normal forms -/

theorem identifier_of_isIdentifier (h : IsIdentifier c params) : identifier c params = params := by
  unfold identifier
  split
  · rfl
  · rename_i hinteger
    rcases h with ⟨t, ht, htext⟩ | ⟨htext, hlen⟩
    · exact absurd (List.any_eq_true.2 ⟨t, ht, Value.isText_iff.2 htext⟩) hinteger
    · rw [Members.set_of_get? (Members.value_eq_str.1 htext), Members.setNew, if_pos hlen]

theorem discriminator_of_carries (h : Carries c params .foreignType) : discriminator c params = params := by
  obtain ⟨htext, hlen⟩ := h
  unfold discriminator
  simp only [Members.set_of_get? (Members.value_eq_str.1 htext)]
  split
  · rfl
  · rename_i hnot
    rcases hlen with hlen | hlen
    · exact absurd hlen hnot
    · exact Members.set_of_get? (Members.get?_of_value hlen Value.noConfusion)

theorem flag_of_carries (h : Carries c params .bool) : flag c params = params := by
  obtain ⟨b, hb⟩ := h
  have hsame : (if (params.value "default").isNull then c.boolDefault else toFlag (params.value "default")) = b := by
    rw [hb]
    rfl
  unfold flag
  simp only [hsame]
  exact Members.set_of_get? (Members.get?_of_value hb Value.noConfusion)

/-- A kind whose attributes are there leaves a field as it is. -/
theorem normalizeTyped_of_carries {kind : FieldKind} (h : Carries c params kind) :
    normalizeTyped c (.str kind.word) params = .ok params := by
  unfold normalizeTyped
  simp only [Value.word?, Value.key, Value.scalar?, Key.text?, Except.map, Option.bind_some, FieldKind.ofText?_word]
  cases kind with
  | id => rw [identifier_of_isIdentifier h]
  | foreignId =>
    rw [identifier_of_isIdentifier h.1, Members.set_of_get? (Members.get?_of_value h.2 Value.noConfusion)]
  | foreignType => rw [discriminator_of_carries h]
  | bool => rw [flag_of_carries h]
  | _ => rfl

/-- A normal form is its own normal form. -/
theorem normalize_of_isNormal (h : IsNormal c params) : normalize c params = .ok (some params) := by
  unfold normalize
  simp only
  cases h with
  | untyped htype hmark => rw [htype, hmark]; rfl
  | ofKind kind htype hcarries =>
    rw [htype, normalizeTyped_of_carries hcarries]
    rfl
  | ofWord word htype hkind hword =>
    have hsame : normalizeTyped c (.str word) params = .ok params := by
      unfold normalizeTyped
      simp only [Value.word?, Value.key, Value.scalar?, Key.text?, Except.map, Option.bind_some, hkind, Option.any_some]
      split
      · rfl
      · rename_i hnot
        rcases hword with hword | hword
        · exact absurd (by simpa using hword) hnot
        · rw [← hword, Members.set_of_get? (Members.value_eq_str.1 htype)]
    rw [htype, hsame]
    rfl

/-! ## Attributes over others -/

/-- No attribute is an object. -/
def Flat (params : Members Key Value) : Prop :=
  ∀ key v, Members.get? params key = some v → ∀ m, v ≠ .object m

theorem flat_nil : Flat [] := fun _ _ h => nomatch h

theorem Flat.set (h : Flat params) (key : Key) {v : Value} (hv : ∀ m, v ≠ .object m) : Flat (params.set key v) := by
  intro other w hw
  rw [Members.get?_set] at hw
  split at hw
  · cases hw; exact hv
  · exact h other w hw

/-- The normal form of plain attributes has no objects either. -/
theorem Flat.normalize (h : Flat params) (hnormal : Field.normalize c params = .ok (some normal)) : Flat normal :=
  normalize_invariant (fun hputs hm => hm.set _ fun m hv => by cases hputs <;> cases hv) h hnormal

section
variable {lower upper : Members Key Value}

/-- What stands under a key of plain attributes stands there after they were laid over others. -/
theorem value_overlay (hd : Members.Distinct upper) (hflat : Flat upper) {key : Key} (hkey : upper.value key ≠ .null) :
    (lower.overlay upper).value key = upper.value key := by
  have hget : Members.get? upper key = some (upper.value key) := Members.get?_of_value rfl hkey
  exact Members.value_of_get? (Members.get?_overlay_of_not_object lower hd hget (hflat _ _ hget))

theorem IsIdentifier.overlay (hd : Members.Distinct upper) (hflat : Flat upper) (h : IsIdentifier c upper) :
    IsIdentifier c (lower.overlay upper) := by
  rcases h with ⟨t, ht, htext⟩ | ⟨htext, hlen⟩
  · refine .inl ⟨t, ht, ?_⟩
    rw [value_overlay hd hflat (by simp [htext]), htext]
  · refine .inr ⟨?_, ?_⟩
    · rw [value_overlay hd hflat (by simp [htext]), htext]
    · rw [Members.contains_overlay, hlen, Bool.or_true]

theorem Carries.overlay (hd : Members.Distinct upper) (hflat : Flat upper) {kind : FieldKind} (h : Carries c upper kind) :
    Carries c (lower.overlay upper) kind := by
  cases kind with
  | id => exact IsIdentifier.overlay hd hflat h
  | foreignId =>
    obtain ⟨hidentifier, hnull⟩ := h
    exact ⟨hidentifier.overlay hd hflat, by rw [value_overlay hd hflat (by simp [hnull]), hnull]⟩
  | foreignType =>
    obtain ⟨htext, hlen⟩ := h
    have hgiven : upper.value "len" ≠ .null := by
      rcases hlen with hlen | hlen
      · intro hnull
        rw [hnull] at hlen
        cases hlen
      · simp [hlen]
    refine ⟨?_, ?_⟩
    · rw [value_overlay hd hflat (by simp [htext]), htext]
    · rw [value_overlay hd hflat hgiven]
      exact hlen
  | bool =>
    obtain ⟨b, hb⟩ := h
    exact ⟨b, by rw [value_overlay hd hflat (by simp [hb]), hb]⟩
  | _ => trivial

/-- A typed normal form of plain attributes is one wherever it is laid over, whatever lies beneath. -/
theorem IsNormal.overlay (hd : Members.Distinct upper) (hflat : Flat upper) (htyped : upper.value "type" ≠ .null)
    (h : IsNormal c upper) : IsNormal c (lower.overlay upper) := by
  have hsame : (lower.overlay upper).value "type" = upper.value "type" := value_overlay hd hflat htyped
  cases h with
  | untyped htype hmark => exact absurd htype htyped
  | ofKind kind htype hcarries => exact .ofKind kind (hsame.trans htype) (hcarries.overlay hd hflat)
  | ofWord word htype hkind hword => exact .ofWord word (hsame.trans htype) hkind hword

end

/-! ## All fields of an entity -/

/-- An object of attributes in normal form. -/
def NormalField (c : Config) (v : Value) : Prop :=
  ∃ params, v = .object params ∧ IsNormal c params

theorem normalField_of_mem (hdefault : c.defaultFieldType ∉ coercedKinds.map FieldKind.word) {entity : Key}
    {fields normal : Members Key Value} (h : (normalizeAll c entity fields).result = .ok normal) {field : Key × Value}
    (hfield : field ∈ normal) : NormalField c field.2 := by
  obtain ⟨params, p, -, hp, hform⟩ := exists_of_mem_normalizeAll h hfield
  exact ⟨p, hform, isNormal_of_normalize hdefault hp⟩

/-- Fields in normal form stay as they are, and in their order. -/
theorem normalizeAll_of_isNormal (entity : Key) {fields : Members Key Value} (h : ∀ field ∈ fields, NormalField c field.2) :
    (normalizeAll c entity fields).result = .ok fields := by
  induction fields with
  | nil => rfl
  | cons field rest ih =>
    obtain ⟨name, v⟩ := field
    obtain ⟨⟨params, hv, hnormal⟩, hrest⟩ := List.forall_mem_cons.1 h
    simp only at hv
    subst hv
    rw [normalizeAll, Run.result_bind_eq_ok]
    refine ⟨params, rfl, Run.result_bind_eq_ok.2 ⟨some params, Run.lift_eq_ok.2 (normalize_of_isNormal hnormal), ?_⟩⟩
    exact Run.result_bind_eq_ok.2 ⟨rest, ih hrest, rfl⟩

end EntitySchema.Field
