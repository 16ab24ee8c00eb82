import EntitySchema.Proofs.Link.Total

/-!
# Relations over templates

The template of a link type lies beneath the relations of its links, and beside what the kind of a link builds some parameters
are kept. Neither touches what the kind builds, as long as it is no object.

Results:
* `relation_eq_ok`: a relation is what its kind builds, with some parameters kept, over the template of its type.
* `get?_relation`: what a kind builds is found in the relation, whatever the template says.
* `get?_relation_of_none`: what a kind does not build is what the template says.
* `resolve_cases`, `resolves_of_relation`: the relation of a link is what joins the schema.
-/
namespace EntitySchema.Link

section
variable {m : Metadata} {entity link : Value} {params : Params} {kind : LinkKind} {built found : Members Key Value}

theorem hasMany_eq_ok (h : hasMany entity kind params = .ok built) :
    ∃ inverse, inverseOf entity (params.value "foreign") = .ok inverse ∧
      built = withGiven params ["foreign"]
        [("type", .str kind.word), ("entity", params.value "entity"), ("foreignKey", keyColumn inverse)] := by
  unfold hasMany at h
  obtain ⟨inverse, hinverse, h⟩ := bind_eq_ok.1 h
  cases h
  exact ⟨inverse, hinverse, rfl⟩

/-- A value that is given, or one that is made instead. -/
def givenOr (v : Value) (made : Except Misuse Value) : Except Misuse Value :=
  if v.truthy then .ok v else made

/-- The name and the keys of a junction are the given ones, or they are made. -/
theorem manyMany_eq (entity link : Value) (params : Params) : manyMany entity link params = do
    let name ← givenOr (params.value "relationName") ((junctionName entity (params.value "entity")).map .str)
    let keys ← givenOr (params.value "midKeys") ((junctionKeys entity link params).map .ofTexts)
    return withGiven params manyManyGiven
      [("type", .str LinkKind.manyMany.word), ("entity", params.value "entity"), ("relationName", name), ("key", .str "id"),
        ("foreignKey", .str "id"), ("midKeys", keys)] := by
  unfold manyMany givenOr
  simp only
  split <;> split <;> rfl

theorem manyMany_eq_ok (h : manyMany entity link params = .ok built) :
    ∃ name keys, built = withGiven params manyManyGiven
        [("type", .str LinkKind.manyMany.word), ("entity", params.value "entity"), ("relationName", name), ("key", .str "id"),
          ("foreignKey", .str "id"), ("midKeys", keys)] ∧
      givenOr (params.value "relationName") ((junctionName entity (params.value "entity")).map .str) = .ok name ∧
      givenOr (params.value "midKeys") ((junctionKeys entity link params).map .ofTexts) = .ok keys := by
  rw [manyMany_eq] at h
  obtain ⟨name, hname, h⟩ := bind_eq_ok.1 h
  obtain ⟨keys, hkeys, h⟩ := bind_eq_ok.1 h
  cases h
  exact ⟨name, keys, rfl, hname, hkeys⟩

/-- What a kind builds has no key twice. -/
theorem distinct_relationOf (h : relationOf entity link params kind = .ok built) : Members.Distinct built := by
  have hmany : ∀ {k}, hasMany entity k params = .ok built → Members.Distinct built := fun hbuilt => by
    obtain ⟨inverse, -, rfl⟩ := hasMany_eq_ok hbuilt
    exact distinct_withGiven (by simp [Members.keys]; decide)
  cases kind with
  | belongsTo => cases h; exact distinct_withGiven (by simp [Members.keys]; decide)
  | hasMany => exact hmany h
  | hasOne => exact hmany h
  | manyMany =>
    obtain ⟨name, keys, rfl, -, -⟩ := manyMany_eq_ok h
    exact distinct_withGiven (by simp [manyManyGiven, Members.keys]; decide)
  | hasChildren => cases h; simp [hasChildren, Members.Distinct, Members.keys]; decide
  | belongsToParent => cases h; exact distinct_withGiven (by simp [Members.keys]; decide)

/-- A relation is what its kind builds, with some parameters kept, over the template of its type. -/
theorem relation_eq_ok :
    Link.relation m entity link params kind = .ok found ↔ ∃ built, relationOf entity link params kind = .ok built ∧
      found = (m.linkType kind.word).relationDefs.overlay (keptParams.foldl (keep params) built) := by
  unfold Link.relation
  rw [map_eq_ok]
  refine exists_congr fun built => and_congr_right fun _ => ?_
  rw [eq_comm]
  refine Eq.congr_right (congrArg (Members.overlay _) (List.foldl_ext _ _ _ fun acc key _ => ?_))
  unfold keep
  cases params.get? key <;> rfl

/-- What a kind builds is found in the relation, whatever the template of its type says. -/
theorem get?_relation (hbuilt : relationOf entity link params kind = .ok built)
    (h : Link.relation m entity link params kind = .ok found) {key : Key} (hkey : key ∉ keptParams) {v : Value}
    (hv : Members.get? built key = some v) (hobject : ∀ below, v ≠ .object below) : Members.get? found key = some v := by
  obtain ⟨built', hbuilt', rfl⟩ := relation_eq_ok.1 h
  cases hbuilt.symm.trans hbuilt'
  obtain ⟨hd, hget⟩ := get?_foldl_keep params (distinct_relationOf hbuilt)
  exact Members.get?_overlay_of_not_object _ hd (by rw [hget key hkey, hv]) hobject

/-- What a kind does not build is what the template of its type says. -/
theorem get?_relation_of_none (hbuilt : relationOf entity link params kind = .ok built)
    (h : Link.relation m entity link params kind = .ok found) {key : Key} (hkey : key ∉ keptParams)
    (hnone : Members.get? built key = none) :
    Members.get? found key = Members.get? (m.linkType kind.word).relationDefs key := by
  obtain ⟨built', hbuilt', rfl⟩ := relation_eq_ok.1 h
  cases hbuilt.symm.trans hbuilt'
  obtain ⟨-, hget⟩ := get?_foldl_keep params (distinct_relationOf hbuilt)
  exact Members.get?_merge_of_none (by rw [hget key hkey, hnone])

/-- A template stops no relation. -/
theorem relation_isOk_iff :
    (∃ found, Link.relation m entity link params kind = .ok found) ↔
      ∃ built, relationOf entity link params kind = .ok built :=
  map_isOk_iff

end

/-! ## Resolving a link -/

section
variable {m : Metadata} {entity link : String} {params : Params} {kind : LinkKind}

/-- A link of a kind is left out, or it has that kind. -/
theorem kind?_eq_ok {entity link : Value} (htype : params.value "type" = .str kind.word) {found : Option LinkKind}
    (h : kind? m entity link params = .ok found) : found = none ∨ found = some kind := by
  have hkind : (Value.str kind.word).text?.bind LinkKind.ofText? = some kind := LinkKind.ofText?_word kind
  unfold kind? at h
  split at h
  · cases h; exact .inl rfl
  · simp only [htype, hkind] at h
    split at h
    · cases h
    · split at h
      · cases h; exact .inl rfl
      · split at h
        · cases h
        · cases h; exact .inr rfl

/-- A link adds nothing if it is left out, else the relation of its kind and fields that show columns of its junction. -/
theorem resolve_cases (entity : Key) {compiled : Value} {added : Members Key Value}
    (h : (resolve m (.ofKey entity) (.str link) params compiled).result = .ok added) :
    kind? m (.ofKey entity) (.str link) params = .ok none ∧ added = [] ∨ ∃ kind found fields shown,
      kind? m (.ofKey entity) (.str link) params = .ok (some kind) ∧
        Link.relation m (.ofKey entity) (.str link) params kind = .ok found ∧ Link.fieldsIn compiled = .ok fields ∧
          attributeFields params fields = .ok shown ∧ added = fragment entity link found shown := by
  unfold resolve at h
  obtain ⟨kind, hkind, h⟩ := Run.result_bind_eq_ok.1 h
  cases kind with
  | none =>
    obtain ⟨-, -, h⟩ := Run.result_bind_eq_ok.1 h
    cases h
    exact .inl ⟨hkind, rfl⟩
  | some kind =>
    obtain ⟨built, hbuilt, h⟩ := Run.result_bind_eq_ok.1 h
    obtain ⟨name, hname, h⟩ := Run.result_bind_eq_ok.1 h
    obtain ⟨fields, hfields, h⟩ := Run.result_bind_eq_ok.1 h
    obtain ⟨shown, hshown, h⟩ := Run.result_bind_eq_ok.1 h
    obtain ⟨owner, howner, h⟩ := Run.result_bind_eq_ok.1 h
    rw [Run.lift_eq_ok] at hbuilt hname hfields hshown howner
    rw [Value.key_ofKey] at howner
    cases hname
    cases howner
    cases h
    exact .inr ⟨kind, built, fields, shown, hkind, hbuilt, hfields, hshown, rfl⟩

/-- A link has a relation, which joins the schema unless the link is left out: only a link without a kind adds nothing. -/
structure Resolves (m : Metadata) (entity link : String) (params : Params) (kind : LinkKind) (found : Members Key Value) :
    Prop where
  relation : Link.relation m (.str entity) (.str link) params kind = .ok found
  joins : ∀ compiled added, (resolve m (.str entity) (.str link) params compiled).result = .ok added →
    kind? m (.str entity) (.str link) params = .ok none ∧ added = [] ∨
      kind? m (.str entity) (.str link) params = .ok (some kind) ∧ ∃ shown, added = fragment (.text entity) link found shown

theorem resolves_of_relation {found : Members Key Value} (htype : params.value "type" = .str kind.word)
    (h : Link.relation m (.str entity) (.str link) params kind = .ok found) : Resolves m entity link params kind found := by
  refine ⟨h, fun compiled added hadded => ?_⟩
  rcases resolve_cases (.text entity) hadded with hleft | ⟨found, relation, fields, shown, hkind, hrelation, -, -, hfragment⟩
  · exact .inl hleft
  · rcases kind?_eq_ok htype hkind with hleft | hsame
    · cases hleft
    · cases hsame
      cases h.symm.trans hrelation
      exact .inr ⟨hkind, shown, hfragment⟩

end

end EntitySchema.Link
