import EntitySchema.Proofs.Field.Total
import EntitySchema.Proofs.Link.Junction
import EntitySchema.Proofs.Record.Fits

/-!
# Links that give a result

The parameters of a link are of the kinds that declarations have, so that a link that keeps its contract has a relation. What
its additional columns declare is open: a field or a junction may get any value for a type from them.

* `IsRelation`, `IsManyMany`: what is known of the relation of a link.

Results:
* `relation_yields`: a link that keeps its contract has a relation.
* `attributeFields_yields`: it shows columns of its junction, whatever their types are.
* `ofRelation_isOk_iff`: when a many-to-many relation has a junction.
-/
namespace EntitySchema

namespace Members

/-- The last value of each of the entries, mapped, over what was there. -/
theorem get?_foldl_set {α β : Type} (f : α → β) (entries : Members Key α) (start : Members Key β) (key : Key) :
    get? (entries.foldl (fun acc entry => set acc entry.1 (f entry.2)) start) key =
      ((get? (ofEntries entries) key).map f).or (get? start key) := by
  suffices h : ∀ (acc : Members Key α) (base : Members Key β),
      (∀ k, get? base k = ((get? acc k).map f).or (get? start k)) →
        get? (entries.foldl (fun acc entry => set acc entry.1 (f entry.2)) base) key =
          ((get? (update acc entries) key).map f).or (get? start key) from h [] start fun _ => rfl
  induction entries with
  | nil => exact fun acc base h => h key
  | cons entry rest ih =>
    intro acc base h
    refine ih (set acc entry.1 entry.2) (set base entry.1 (f entry.2)) fun k => ?_
    rw [get?_set, get?_set, h k]
    split <;> rfl

end Members

namespace Link

/-! ## Members that are given -/

theorem get?_given (params : Params) (keys : List Key) (key : Key) :
    Members.get? (keys.filterMap fun key => let v := params.value key; if v.truthy then some (key, v) else none) key =
      if (keys.any fun k => k == key) && (params.value key).truthy then some (params.value key) else none := by
  induction keys with
  | nil => rfl
  | cons k rest ih =>
    have hvalue : (k == key) = true → params.value k = params.value key := fun h => by
      unfold Members.value; rw [Members.get?_congr h]
    rw [List.filterMap_cons, List.any_cons]
    by_cases hk : (k == key) = true
    · cases htruthy : (params.value key).truthy with
      | true => simp [hvalue hk, htruthy, hk, Members.get?_cons]
      | false => simp [hvalue hk, htruthy, ih]
    · cases htruthy : (params.value k).truthy with
      | true => simp [htruthy, hk, Members.get?_cons, ih]
      | false => simp [htruthy, hk, ih]

theorem get?_withGiven (params : Params) (keys : List Key) (built : Members Key Value) (key : Key) :
    Members.get? (withGiven params keys built) key = (Members.get? built key).or
      (if (keys.any fun k => k == key) && (params.value key).truthy then some (params.value key) else none) := by
  rw [withGiven, Members.get?_append, get?_given]

theorem distinct_withGiven {params : Params} {keys : List Key} {built : Members Key Value}
    (h : (Members.keys built ++ keys).Pairwise fun a b => (a == b) = false) :
    Members.Distinct (withGiven params keys built) := by
  have hkeys : Members.keys (keys.filterMap fun key => let v := params.value key; if v.truthy then some (key, v) else none) =
      keys.filter fun key => (params.value key).truthy := by
    induction keys with
    | nil => rfl
    | cons k rest ih =>
      have hrest := ih (h.sublist ((List.Sublist.refl _).append (List.sublist_cons_self k rest)))
      rw [List.filterMap_cons, List.filter_cons]
      cases htruthy : (params.value k).truthy with
      | true => simpa [htruthy, Members.keys] using hrest
      | false => simpa [htruthy] using hrest
  refine List.Pairwise.sublist ?_ h
  have happend : Members.keys (withGiven params keys built) =
      Members.keys built ++ keys.filter fun key => (params.value key).truthy := by
    rw [← hkeys]
    simp [withGiven, Members.keys]
  rw [happend]
  exact (List.Sublist.refl _).append List.filter_sublist

/-! ## Relations -/

/-- What the relation of a link says of its kind and of its indexes. -/
structure IsRelation (kind : LinkKind) (params relation : Members Key Value) : Prop where
  type : Members.get? relation "type" = some (.str kind.word)
  fits : (Record.Shape.nullable Record.objects).Fits (relation.value "indexes")
  indexes : (relation.value "indexes").members = if kind = .manyMany then (params.value "indexes").members else []

/-- What the junction of a many-to-many relation is made from. -/
structure HasJunction (relation : Members Key Value) : Prop where
  name : ∃ name, Members.get? relation "relationName" = some (.str name)
  keys : (Record.Shape.nullable Record.texts).Fits (relation.value "midKeys")
  columns : (Record.Shape.nullable Record.objects).Fits (relation.value "additionalColumns")

section
variable {entity link : String} {params : Params} {kind : LinkKind}

theorem fits_entity (h : Record.linkDeclaration.Fits (.object params)) :
    (Record.Shape.nullable .text).Fits (params.value "entity") :=
  Record.fits_value (a := ⟨"entity", "entity", false⟩) h (by simp [Record.maybe])

theorem fits_foreign (h : Record.linkDeclaration.Fits (.object params)) :
    (Record.Shape.nullable .text).Fits (params.value "foreign") :=
  Record.fits_value (a := ⟨"foreign", "foreign", false⟩) h (by simp [Record.maybe])

theorem fits_relationName (h : Record.linkDeclaration.Fits (.object params)) :
    (Record.Shape.nullable .text).Fits (params.value "relationName") :=
  Record.fits_value (a := ⟨"relation_name", "relationName", false⟩) h (by simp [Record.maybe])

theorem fits_midKeys (h : Record.linkDeclaration.Fits (.object params)) :
    (Record.Shape.nullable Record.texts).Fits (params.value "midKeys") :=
  Record.fits_value (a := ⟨"mid_keys", "midKeys", false⟩) h (by simp [Record.maybe])

theorem fits_additionalColumns (h : Record.linkDeclaration.Fits (.object params)) :
    (Record.Shape.nullable Record.objects).Fits (params.value "additionalColumns") :=
  Record.fits_value (a := ⟨"additional_columns", "additionalColumns", false⟩) h (by simp [Record.maybe])

theorem fits_columnAttributeMap (h : Record.linkDeclaration.Fits (.object params)) :
    (Record.Shape.nullable (.mapOf .text)).Fits (params.value "columnAttributeMap") :=
  Record.fits_value (a := ⟨"column_attribute_map", "columnAttributeMap", false⟩) h (by simp [Record.maybe])

theorem fits_indexes (h : Record.linkDeclaration.Fits (.object params)) :
    (Record.Shape.nullable Record.objects).Fits (params.value "indexes") :=
  Record.fits_value (a := ⟨"indexes", "indexes", false⟩) h (by simp [Record.maybe])

/-- A link of a kind that has a target declares one. -/
theorem entity_of_kind? (hfits : Record.linkDeclaration.Fits (.object params))
    (h : kind? {} (.str entity) (.str link) params = .ok (some kind)) (hkind : kind ≠ .belongsToParent) :
    ∃ target, params.value "entity" = .str target := by
  refine Record.text_of_truthy (fits_entity hfits) ?_
  unfold kind? at h
  split at h
  · cases h
  · simp only at h
    split at h
    · cases h
    · split at h
      · cases h
      · rename_i k _
        split at h
        · cases h
        · split at h
          · cases h
          · rename_i hnot
            cases h
            simpa [hkind] using hnot

theorem fits_ofTexts (xs : List String) : (Record.Shape.nullable Record.texts).Fits (.ofTexts xs) := by
  rw [Record.Shape.Fits, Record.texts, Record.Shape.Fits]
  refine .inr ⟨xs.map .str, rfl, fun x hx => ?_⟩
  obtain ⟨s, -, rfl⟩ := List.mem_map.1 hx
  rw [Record.Shape.Fits]
  exact ⟨s, rfl⟩

/-- The key columns of the junction of a link. -/
theorem junctionKeys_isOk (entity link : String) (hfits : Record.linkDeclaration.Fits (.object params)) {target : String}
    (htarget : params.value "entity" = .str target) :
    ∃ keys, junctionKeys (.str entity) (.str link) params = .ok keys := by
  have hitem : (Value.object params).item "entity" = .ok (.str target) :=
    Value.item_object (Members.value_eq_str.1 htarget)
  unfold junctionKeys
  rw [hitem, ok_bind]
  split
  · exact ⟨_, rfl⟩
  · obtain ⟨other, hother⟩ : ∃ other, orElse (params.value "foreign") (.str link) = .str other := by
      unfold orElse
      split
      · rename_i hforeign
        exact Record.text_of_truthy (fits_foreign hfits) hforeign
      · exact ⟨link, rfl⟩
    rw [hother, Value.atMost?_text]
    exact ⟨_, rfl⟩

/-- Keeps a parameter of a link, if it is given. -/
def keep (params : Params) (acc : Members Key Value) (key : Key) : Members Key Value :=
  (params.get? key).elim acc (Members.set acc key)

/-- The parameters that are kept leave all other members as they are. -/
theorem get?_foldl_keep (params : Params) {built : Members Key Value} (hd : Members.Distinct built) :
    Members.Distinct (keptParams.foldl (keep params) built) ∧
      ∀ key ∉ keptParams, Members.get? (keptParams.foldl (keep params) built) key = Members.get? built key := by
  refine List.foldlRecOn keptParams (keep params)
    (motive := fun m => Members.Distinct m ∧ ∀ key ∉ keptParams, Members.get? m key = Members.get? built key)
    ⟨hd, fun _ _ => rfl⟩ fun acc hacc name hname => ?_
  unfold keep
  cases params.get? name with
  | none => exact hacc
  | some v =>
    refine ⟨Members.distinct_set _ _ hacc.1, fun key hkey => ?_⟩
    have hne : ¬(name == key) = true := by
      intro hsame
      simp only [keptParams, List.mem_cons, List.not_mem_nil, or_false] at hname
      rcases hname with rfl | rfl | rfl <;> rw [Key.text_beq] at hsame <;> subst hsame <;> exact hkey (by simp [keptParams])
    rw [Option.elim_some, Members.get?_set, if_neg hne]
    exact hacc.2 key hkey

/-- A relation is what its kind builds, and besides some parameters are kept. -/
theorem relation_of_built {built : Members Key Value} (h : relationOf (.str entity) (.str link) params kind = .ok built)
    (hd : Members.Distinct built) :
    ∃ relation, Link.relation {} (.str entity) (.str link) params kind = .ok relation ∧
      ∀ key ∉ keptParams, Members.get? relation key = Members.get? built key := by
  obtain ⟨hkept, hget⟩ := get?_foldl_keep params hd
  refine ⟨keptParams.foldl (keep params) built, ?_, hget⟩
  rw [← Members.overlay_nil_left hkept]
  unfold Link.relation
  rw [h]
  refine congrArg (fun kept => Except.ok (Members.overlay [] kept)) ?_
  refine List.foldl_ext _ _ _ fun acc key _ => ?_
  unfold keep
  cases params.get? key <;> rfl

/-- The relation of a link of a kind without a junction. -/
theorem isRelation_of_plain {built relation : Members Key Value} (hkind : kind ≠ .manyMany)
    (htype : Members.get? built "type" = some (.str kind.word)) (hindexes : Members.get? built "indexes" = none)
    (h : ∀ key ∉ keptParams, Members.get? relation key = Members.get? built key) : IsRelation kind params relation where
  type := by rw [h _ (by simp [keptParams]), htype]
  fits := by
    rw [Members.value_congr (h _ (by simp [keptParams])), Members.value, hindexes, Record.Shape.Fits]
    exact .inl rfl
  indexes := by
    rw [Members.value_congr (h _ (by simp [keptParams])), Members.value, hindexes, if_neg hkind]
    rfl

/-! ## Many-to-many relations -/

/-- What a many-to-many relation has of its own. -/
def manyManyOwn (target name : String) (keys : Value) : Members Key Value :=
  [("type", .str LinkKind.manyMany.word), ("entity", .str target), ("relationName", .str name), ("key", .str "id"),
    ("foreignKey", .str "id"), ("midKeys", keys)]

/-- What a many-to-many relation takes from its link. -/
def manyManyGiven : List Key := ["foreign", "conditions", "additionalColumns", "indexes"]

theorem manyMany_yields (entity link : String) (hfits : Record.linkDeclaration.Fits (.object params)) {target : String}
    (htarget : params.value "entity" = .str target) :
    ∃ name keys, (Record.Shape.nullable Record.texts).Fits keys ∧
      manyMany (.str entity) (.str link) params = .ok (withGiven params manyManyGiven (manyManyOwn target name keys)) := by
  have hname : ∃ name : String, (params.value "relationName" = .str name ∧ (Value.str name).truthy = true) ∨
      ((params.value "relationName").truthy = false ∧ junctionName (.str entity) (.str target) = .ok name) := by
    cases hgiven : (params.value "relationName").truthy with
    | true =>
      obtain ⟨name, hname⟩ := Record.text_of_truthy (fits_relationName hfits) hgiven
      exact ⟨name, .inl ⟨hname, hname ▸ hgiven⟩⟩
    | false =>
      unfold junctionName
      rw [Value.atMost?_text]
      exact ⟨_, .inr ⟨rfl, rfl⟩⟩
  have hkeys : ∃ keys, (Record.Shape.nullable Record.texts).Fits keys ∧
      ((params.value "midKeys" = keys ∧ keys.truthy = true) ∨
        ((params.value "midKeys").truthy = false ∧
          (junctionKeys (.str entity) (.str link) params).map .ofTexts = .ok keys)) := by
    cases hgiven : (params.value "midKeys").truthy with
    | true => exact ⟨_, fits_midKeys hfits, .inl ⟨rfl, hgiven⟩⟩
    | false =>
      obtain ⟨keys, hkeys⟩ := junctionKeys_isOk entity link hfits htarget
      exact ⟨_, fits_ofTexts keys, .inr ⟨rfl, by rw [hkeys]; rfl⟩⟩
  obtain ⟨name, hname⟩ := hname
  obtain ⟨keys, hkeysFit, hkeys⟩ := hkeys
  refine ⟨name, keys, hkeysFit, ?_⟩
  unfold manyMany
  rcases hname with ⟨hgiven, hname⟩ | ⟨hgiven, hname⟩ <;> rcases hkeys with ⟨hkeysGiven, hkeys⟩ | ⟨hkeysGiven, hkeys⟩ <;>
    simp only [htarget, hgiven, hname, hkeysGiven, hkeys] <;> rfl

/-- An object of objects that is given as a member has the members that were declared. -/
theorem value_withGiven {key : Key} (keys : List Key) (built : Members Key Value) (hkey : (keys.any fun k => k == key) = true)
    (hnone : Members.get? built key = none) (h : (Record.Shape.nullable Record.objects).Fits (params.value key)) :
    (Record.Shape.nullable Record.objects).Fits ((withGiven params keys built).value key) ∧
      ((withGiven params keys built).value key).members = (params.value key).members := by
  have hgiven := (Record.objects_of_fits h).1
  have hvalue : (withGiven params keys built).value key =
      if (params.value key).truthy then params.value key else .null := by
    rw [Members.value, get?_withGiven, hnone, hkey]
    cases (params.value key).truthy <;> rfl
  rw [hvalue]
  cases htruthy : (params.value key).truthy with
  | true => exact ⟨h, rfl⟩
  | false =>
    rw [Value.givenMembers, htruthy] at hgiven
    refine ⟨?_, Except.ok.inj hgiven⟩
    rw [Record.Shape.Fits]
    exact .inl rfl

/-- The relation of a many-to-many link. -/
theorem isRelation_of_manyMany (hfits : Record.linkDeclaration.Fits (.object params)) {target name : String} {keys : Value}
    (hkeys : (Record.Shape.nullable Record.texts).Fits keys) {relation : Members Key Value}
    (h : ∀ key ∉ keptParams,
      Members.get? relation key = Members.get? (withGiven params manyManyGiven (manyManyOwn target name keys)) key) :
    IsRelation .manyMany params relation ∧ HasJunction relation ∧
      (relation.value "additionalColumns").members = (params.value "additionalColumns").members := by
  have hown : ∀ key ∉ keptParams, ∀ v, Members.get? (manyManyOwn target name keys) key = some v →
      Members.get? relation key = some v := by
    intro key hkey v hv
    rw [h key hkey, get?_withGiven, hv]
    rfl
  have hindexes := value_withGiven manyManyGiven (manyManyOwn target name keys) (by decide) (by rfl) (fits_indexes hfits)
  have hcolumns := value_withGiven manyManyGiven (manyManyOwn target name keys) (by decide) (by rfl)
    (fits_additionalColumns hfits)
  rw [← Members.value_congr (h _ (by simp [keptParams]))] at hindexes hcolumns
  refine ⟨⟨?_, hindexes.1, hindexes.2⟩, ⟨⟨name, ?_⟩, ?_, hcolumns.1⟩, hcolumns.2⟩
  · exact hown _ (by simp [keptParams]) _ (by simp [manyManyOwn, Members.get?_cons])
  · exact hown _ (by simp [keptParams]) _ (by simp [manyManyOwn, Members.get?_cons])
  · rw [Members.value_of_get? (hown _ (by simp [keptParams]) keys (by simp [manyManyOwn, Members.get?_cons]))]
    exact hkeys

/-! ## Relations of all kinds -/

/-- A link that keeps its contract has a relation. -/
theorem relation_yields (hfits : Record.linkDeclaration.Fits (.object params))
    (h : kind? {} (.str entity) (.str link) params = .ok (some kind)) :
    Yields (Link.relation {} (.str entity) (.str link) params kind) fun relation =>
      IsRelation kind params relation ∧ (kind = .manyMany → HasJunction relation ∧
        (relation.value "additionalColumns").members = (params.value "additionalColumns").members) := by
  have hplain : ∀ built, kind ≠ .manyMany → relationOf (.str entity) (.str link) params kind = .ok built →
      Members.Distinct built → Members.get? built "type" = some (.str kind.word) → Members.get? built "indexes" = none →
      Yields (Link.relation {} (.str entity) (.str link) params kind) fun relation =>
        IsRelation kind params relation ∧ (kind = .manyMany → HasJunction relation ∧
          (relation.value "additionalColumns").members = (params.value "additionalColumns").members) := by
    intro built hkind hbuilt hd htype hindexes
    obtain ⟨relation, hrelation, hsame⟩ := relation_of_built hbuilt hd
    exact ⟨relation, hrelation, isRelation_of_plain hkind htype hindexes hsame, fun hmany => absurd hmany hkind⟩
  have hinverse : ∃ inverse, inverseOf (.str entity) (params.value "foreign") = .ok inverse := by
    unfold inverseOf
    split
    · exact ⟨_, rfl⟩
    · exact ⟨_, rfl⟩
  obtain ⟨inverse, hinverse⟩ := hinverse
  have hmany : ∀ k, Link.hasMany (.str entity) k params = .ok (withGiven params ["foreign"]
      [("type", .str k.word), ("entity", params.value "entity"), ("foreignKey", keyColumn inverse)]) := by
    intro k
    unfold Link.hasMany
    rw [hinverse]
    rfl
  cases kind with
  | belongsTo =>
    exact hplain _ (by decide) rfl (distinct_withGiven (by simp [Members.keys]; decide)) rfl
      (by rw [get?_withGiven]; simp [Members.get?_cons])
  | hasMany =>
    exact hplain _ (by decide) (hmany .hasMany) (distinct_withGiven (by simp [Members.keys]; decide)) rfl
      (by rw [get?_withGiven]; simp [Members.get?_cons])
  | hasOne =>
    exact hplain _ (by decide) (hmany .hasOne) (distinct_withGiven (by simp [Members.keys]; decide)) rfl
      (by rw [get?_withGiven]; simp [Members.get?_cons])
  | hasChildren =>
    exact hplain _ (by decide) rfl (by simp [hasChildren, Members.Distinct, Members.keys]; decide) rfl
      (by simp [hasChildren, Members.get?_cons])
  | belongsToParent =>
    exact hplain _ (by decide) rfl (distinct_withGiven (by simp [Members.keys]; decide)) rfl
      (by rw [get?_withGiven]; simp [Members.get?_cons])
  | manyMany =>
    obtain ⟨target, htarget⟩ := entity_of_kind? hfits h (by decide)
    obtain ⟨name, keys, hkeys, hbuilt⟩ := manyMany_yields entity link hfits htarget
    have hbuilt : relationOf (.str entity) (.str link) params .manyMany = _ := hbuilt
    obtain ⟨relation, hrelation, hsame⟩ := relation_of_built hbuilt
      (distinct_withGiven (by simp [manyManyOwn, manyManyGiven, Members.keys]; decide))
    obtain ⟨hknown, hjunction⟩ := isRelation_of_manyMany hfits hkeys hsame
    exact ⟨relation, hrelation, hknown, fun _ => hjunction⟩

/-! ## Fields that show columns -/

theorem columnType_isOk {columns : Value} (h : Record.objects.Fits columns) (column : Key) :
    ∃ type, columnType columns column = .ok type := by
  have hnullable : (Record.Shape.nullable Record.objects).Fits columns := by rw [Record.Shape.Fits]; exact .inr h
  obtain ⟨-, hobjects⟩ := Record.objects_of_fits hnullable
  rw [Record.objects, Record.Shape.Fits] at h
  obtain ⟨m, rfl, -⟩ := h
  have hopen : (Value.object m).openMembers = .ok m := rfl
  unfold columnType
  rw [hopen, ok_bind]
  cases hdefs : Members.get? m column with
  | none => exact ⟨_, rfl⟩
  | some defs =>
    obtain ⟨k, -, hm⟩ := Members.exists_of_get? hdefs
    obtain ⟨-, below, rfl⟩ := hobjects _ hm
    exact ⟨_, rfl⟩

/-- The fields that show columns of a junction can be declared, whatever the types of the columns are. -/
theorem attributeFields_yields (hfits : Record.linkDeclaration.Fits (.object params)) (fields : Members Key Value) :
    Yields (attributeFields params (.object fields)) Members.Objects := by
  have hcolumns : Record.objects.Fits (orElse (params.value "additionalColumns") (.object [])) := by
    unfold orElse
    split
    · rename_i hgiven
      have hnullable := fits_additionalColumns hfits
      rw [Record.Shape.Fits] at hnullable
      rcases hnullable with hnull | h
      · rw [hnull] at hgiven; cases hgiven
      · exact h
    · rw [Record.objects, Record.Shape.Fits]
      exact ⟨[], rfl, fun _ he => absurd he List.not_mem_nil⟩
  obtain ⟨hmap, htexts⟩ := Record.givenMembers_of_fits (fits_columnAttributeMap hfits)
  unfold attributeFields
  simp only
  rw [hmap, ok_bind]
  refine yields_foldlM (fun acc entry hentry hacc => ?_) fun _ he => absurd he List.not_mem_nil
  obtain ⟨-, htext⟩ := htexts entry hentry
  rw [Record.Shape.Fits] at htext
  obtain ⟨field, hfield⟩ := htext
  obtain ⟨type, htype⟩ := columnType_isOk hcolumns entry.1
  have hholds : (Value.object fields).holds (.str field) = .ok (Members.contains fields field) := rfl
  have hkey : (Value.str field).key = .ok (.text field) := rfl
  rw [hfield, hholds, ok_bind]
  split
  · exact yields_ok hacc
  · rw [htype, ok_bind, hkey, ok_bind]
    refine yields_ok fun shown hshown => ?_
    rcases Members.mem_set hshown with hshown | ⟨hname, hshown⟩
    · exact hacc shown hshown
    · exact ⟨⟨field, Key.beq_text.1 hname⟩, _, hshown⟩

/-! ## Resolving a link -/

/-- What a link adds to its entity. -/
def fragment (entity : Key) (link : String) (relation shown : Members Key Value) : Members Key Value :=
  [(entity, .object (("relations", .object [(.text link, .object relation)]) ::
    if shown.isEmpty then [] else [("fields", .object shown)]))]

/-- What a link adds to its entity has no key twice. -/
theorem distinct_fragment (link : String) (relation shown : Members Key Value) :
    Members.Distinct ((("relations" : Key), Value.object [(.text link, .object relation)]) ::
      if shown.isEmpty then [] else [("fields", .object shown)]) := by
  split
  · exact Members.distinct_singleton _ _
  · exact Members.distinct_pair (by decide) _ _

/-- A link that keeps its contract adds nothing, or its relation and fields that show columns. -/
theorem resolve_yields (entity : String) (hfits : Record.linkDeclaration.Fits (.object params)) {own fields : Members Key Value}
    (hfields : Members.get? own "fields" = some (.object fields)) {found : Option LinkKind}
    (h : kind? {} (.str entity) (.str link) params = .ok found) :
    Yields (resolve {} (.ofKey (.text entity)) (.str link) params (.object own)).result fun added =>
      match found with
      | none => added = []
      | some kind => ∃ relation shown, Link.relation {} (.str entity) (.str link) params kind = .ok relation ∧
          shown.Objects ∧ added = fragment (.text entity) link relation shown := by
  have hkind : kind? {} (.ofKey (.text entity)) (.str link) params = .ok found := h
  unfold resolve
  rw [hkind]
  cases found with
  | none => exact ⟨[], rfl, rfl⟩
  | some kind =>
    obtain ⟨relation, hrelation, -⟩ := relation_yields hfits h
    obtain ⟨shown, hshown, hobjects⟩ := attributeFields_yields hfits fields
    have hin : fieldsIn (.object own) = .ok (.object fields) := by
      show Except.ok ((Members.get? own "fields").getD (.object [])) = _
      rw [hfields]
      rfl
    refine ⟨fragment (.text entity) link relation shown, ?_, relation, shown, hrelation, hobjects, rfl⟩
    refine Run.result_bind_eq_ok.2 ⟨some kind, rfl, ?_⟩
    refine Run.result_bind_eq_ok.2 ⟨relation, Run.lift_eq_ok.2 hrelation, ?_⟩
    refine Run.result_bind_eq_ok.2 ⟨.text link, rfl, ?_⟩
    refine Run.result_bind_eq_ok.2 ⟨.object fields, Run.lift_eq_ok.2 hin, ?_⟩
    refine Run.result_bind_eq_ok.2 ⟨shown, Run.lift_eq_ok.2 hshown, ?_⟩
    exact Run.result_bind_eq_ok.2 ⟨.text entity, rfl, rfl⟩

end

end Link

end EntitySchema
