import EntitySchema.Proofs.Entity.Settled

/-!
# Mandatory fields of an entity

An identifier, a name and a mark for deleted rows are fields of an entity from the start, and each has a type. A declaration that
is resolved has a type as well, and one that is left out leaves the field that was there. After that only the processor for many
links takes a field away, the one that it is for; everything else is laid over fields, and nothing that is laid over has a type
that is null. So a mandatory field is there in the end unless its own declaration makes it one for many links.

* `mandatory`: the names of these fields.
* `LinksMany`: a field whose own declaration makes it one for many links.
* `Single`: parameters of a field that has a type, which is not that of many links.
* `HasTyped`: an entity with a field that has a type.

Results:
* `single_of_resolveAll`: resolved fields.
* `HasTyped.correct`, `HasTyped.relate`, `HasTyped.search`: the stages after the fields.
* `hasTyped_of_compile`: the mandatory fields of a compiled entity.
-/
namespace EntitySchema

/-- No kind of the storage is that of many links. -/
theorem FieldKind.str_word_ne_many (kind : FieldKind) : Value.str kind.word ≠ .str "linkMultiple" := by
  intro h
  have hword := Value.str.inj h
  cases kind <;> exact absurd hword (by decide)

namespace Entity

/-- The names of the fields that every entity has. -/
def mandatory : List String := ["id", "name", "deleted"]

/-- A field whose own declaration makes it one for many links: what is declared of it, over the part of a composite field of its
name, over what a link implies. -/
def LinksMany (c : Config) (m : Metadata) (entity : Key) (d : Definition) (name : String) : Prop :=
  ∃ links declared params, Entity.links m d = .ok links ∧ fields c m entity d links = .ok declared ∧
    (name, params) ∈ declared ∧ params.value "type" = .str "linkMultiple"

/-- Parameters of a field that has a type, which is not that of many links. -/
structure Single (params : Params) : Prop where
  typed : (params.value "type").truthy = true
  other : params.value "type" ≠ .str "linkMultiple"

/-! ## Declarations -/

/-- A type that the upper layer gives is the type. -/
theorem type_of_layered (lower : Members String Params) {upper : Members String Params} (hd : Members.Distinct upper)
    {name : String} {params : Params} (hparams : Members.get? upper name = some params) (hdistinct : Members.Distinct params) {word : String}
    (hword : params.value "type" = .str word) :
    ∃ found, Members.get? (layered lower upper) name = some found ∧ found.value "type" = .str word := by
  rw [layered, Params.get?_ofObjects, Members.get?_overlay _ (Params.distinct_toObjects hd), Params.get?_toObjects, hparams]
  refine ⟨_, rfl, ?_⟩
  have hlower := Params.get?_toObjects lower name
  cases hbelow : Members.get? lower name with
  | none =>
    rw [hbelow] at hlower
    rw [Members.mergedAt_of_get?_none hlower, Value.members_object, hword]
  | some below =>
    rw [hbelow] at hlower
    rw [Members.mergedAt_of_get? hlower, Value.overlay_object, Value.members_object]
    exact Members.value_eq_str.2 (Members.get?_overlay_of_not_object below hdistinct (Members.value_eq_str.1 hword)
      fun _ => Value.noConfusion)

/-- A field that is declared as one for many links is one. -/
theorem linksMany_of_field {c : Config} {m : Metadata} {entity : Key} {d : Definition} {links declared : Members String Params}
    {name : String} (hnames : Members.Distinct d.fields) (hdistinct : DistinctParams m d) (hlinks : Entity.links m d = .ok links)
    (h : fields c m entity d links = .ok declared) (htype : (d.field name).value "type" = .str "linkMultiple") :
    LinksMany c m entity d name := by
  have hfields := h
  unfold Entity.fields at h
  obtain ⟨implied, -, h⟩ := bind_eq_ok.1 h
  obtain ⟨withParts, -, h⟩ := bind_eq_ok.1 h
  cases h
  unfold Definition.field at htype
  cases hget : Members.get? d.fields name with
  | none =>
    rw [hget] at htype
    cases htype
  | some params =>
    rw [hget] at htype
    obtain ⟨found, hfound, hword⟩ :=
      type_of_layered withParts hnames hget (hdistinct.fields _ (Members.mem_of_get? hget)) htype
    exact ⟨links, _, found, hlinks, hfields, Members.mem_of_get? hfound, hword⟩

/-! ## Resolved fields -/

section
variable {c : Config} {m : Metadata} {name : String} {params found : Params}

/-- Such parameters stay so wherever they are laid over. -/
theorem Single.overlay (h : Single params) (hd : Members.Distinct params) (lower : Params) : Single (lower.overlay params) where
  typed := Members.truthy_overlay _ hd h.typed
  other hmany := by
    have hgiven : Members.get? params "type" = some (params.value "type") := Members.get?_of_value rfl fun hnull => by
      have htyped := h.typed
      rw [hnull] at htyped
      cases htyped
    rw [Members.value_overlay lower hd hgiven] at hmany
    exact h.other (Value.overlay_eq_str hmany)

theorem Single.resolve (h : Single params) (hd : Members.Distinct params) {t : FieldType}
    (hfound : (Field.resolve c name params t).result = .ok (some found)) : Single found := by
  have hsame : found.value "type" = (t.fieldDefs.overlay params).value "type" :=
    Members.value_congr (Field.get?_type_of_resolve hfound)
  have hover := h.overlay hd t.fieldDefs
  exact ⟨hsame ▸ hover.typed, hsame ▸ hover.other⟩

theorem get?_addField_of_ne {fields : Members String Params} {other : String} (hne : other ≠ name) :
    Members.get? (addField fields other found) name = Members.get? fields name := by
  have hset : ∀ params : Params, Members.get? (Members.set fields other params) name = Members.get? fields name := by
    intro params
    rw [Members.get?_set, if_neg (by simpa using hne)]
  unfold addField
  split
  · split <;> exact hset _
  · exact hset _

/-- A resolved field is as its declaration says, or it lies over the one that was there. -/
theorem single_addField {fields : Members String Params} (h : Single found) (hd : Members.Distinct found) :
    ∃ params, Members.get? (addField fields name found) name = some params ∧ Single params := by
  unfold addField
  split
  · rename_i old hold
    split
    · exact ⟨found, Members.get?_set_self _ _ _, h⟩
    · exact ⟨old.overlay found, Members.get?_set_self _ _ _, h.overlay hd old⟩
  · exact ⟨found, Members.get?_set_self _ _ _, h⟩

/-- Mandatory fields have a type from the start, and a name that is declared for many links is the only one of these. -/
theorem single_seeds {d : Definition} (hname : name ∈ mandatory) (hother : (d.field name).value "type" ≠ .str "linkMultiple") :
    ∃ params, Members.get? (seeds d) name = some params ∧ Single params := by
  simp only [mandatory, List.mem_cons, List.not_mem_nil, or_false] at hname
  rcases hname with rfl | rfl | rfl
  · exact ⟨_, rfl, rfl, FieldKind.str_word_ne_many .id⟩
  · refine ⟨_, rfl, ?_⟩
    have htype : ∀ type : Value, Members.value [(("type" : Key), type), ("notStorable", .bool true)] "type" = type :=
      fun _ => rfl
    constructor <;> rw [htype] <;> split
    · assumption
    · rfl
    · exact hother
    · exact FieldKind.str_word_ne_many .varchar
  · exact ⟨_, rfl, rfl, FieldKind.str_word_ne_many .bool⟩

/-- A mandatory field has a type after all declarations are resolved, if no declaration makes it one for many links. -/
theorem single_of_resolveAll {d : Definition} {declared : List (String × Params)} {resolved : Members String Params}
    (hdistinct : ∀ one ∈ declared, Members.Distinct one.2)
    (hother : ∀ params, (name, params) ∈ declared → params.value "type" ≠ .str "linkMultiple")
    (hseeds : ∃ params, Members.get? (seeds d) name = some params ∧ Single params)
    (h : (resolveAll c m (seeds d) declared).result = .ok resolved) :
    ∃ params, Members.get? resolved name = some params ∧ Single params := by
  refine resolveAll_invariant (fun fields => ∃ params, Members.get? fields name = some params ∧ Single params) h
    (fun one hone htype t found hfound fields hfields => ?_) hseeds
  by_cases hname : one.1 = name
  · obtain ⟨other, params⟩ := one
    simp only at hname hfound htype
    subst hname
    have hsingle : Single params := ⟨htype, hother params hone⟩
    exact single_addField (hsingle.resolve (hdistinct _ hone) hfound) (Field.distinct_compiled (Field.compiled_of_resolve hfound))
  · rw [get?_addField_of_ne hname]
    exact hfields

end

/-! ## Stages -/

/-- An entity with a field that has a type. -/
def HasTyped (entity : Key) (name : String) (schema : Members Key Value) : Prop :=
  ∃ own fields params : Members Key Value, schema = [(entity, .object own)] ∧ Members.get? own "fields" = some (.object fields) ∧
    Members.get? fields name = some (.object params) ∧ params.value "type" ≠ .null

/-- Fields that do not take the type of a field away that they are laid over. -/
structure KeepsType (name : String) (added : Members Key Value) : Prop where
  distinct : Members.Distinct added
  kept : ∀ v, Members.get? added name = some v →
    ∃ params, v = .object params ∧ Members.Distinct params ∧ Members.get? params "type" ≠ some .null

variable {c : Compiler} {m : Metadata} {entity : Key} {name : String} {d : Definition} {schema schema' : Members Key Value}

/-- Attributes without a type, or with one that is not null, over attributes with a type. -/
theorem type_overlay_ne_null {lower upper : Members Key Value} (hlower : lower.value "type" ≠ .null)
    (hd : Members.Distinct upper) (hupper : Members.get? upper "type" ≠ some .null) :
    (lower.overlay upper).value "type" ≠ .null := by
  cases htype : Members.get? upper "type" with
  | none => rwa [Members.overlay, Members.value_congr (Members.get?_merge_of_none htype)]
  | some type =>
    rw [Members.value_overlay lower hd htype]
    exact fun hnull => hupper (by rw [htype, Value.overlay_eq_null hnull])

/-- A fragment over the entity, with fields that keep the type if it has any. -/
theorem HasTyped.overlay (h : HasTyped entity name schema) {more : Members Key Value} (hd : Members.Distinct more)
    (hmore : ∀ v, Members.get? more "fields" = some v → ∃ added, v = .object added ∧ KeepsType name added) :
    HasTyped entity name (schema.overlay [(entity, .object more)]) := by
  obtain ⟨own, fields, params, rfl, hfields, hparams, htype⟩ := h
  have hget := Members.get?_overlay own hd "fields"
  rw [overlay_own]
  cases hupper : Members.get? more "fields" with
  | none =>
    rw [hupper, hfields] at hget
    exact ⟨_, fields, params, rfl, hget, hparams, htype⟩
  | some v =>
    obtain ⟨added, rfl, hadded⟩ := hmore v hupper
    simp only [hupper, Members.mergedAt_of_get? hfields, Value.overlay_object] at hget
    have hfield := Members.get?_overlay fields hadded.distinct (.text name)
    cases hlaid : Members.get? added (.text name) with
    | none =>
      rw [hlaid, hparams] at hfield
      exact ⟨_, _, params, rfl, hget, hfield, htype⟩
    | some w =>
      obtain ⟨upper, rfl, hdistinct, hgiven⟩ := hadded.kept w hlaid
      simp only [hlaid, Members.mergedAt_of_get? hparams, Value.overlay_object] at hfield
      exact ⟨_, _, _, rfl, hget, hfield, type_overlay_ne_null htype hdistinct hgiven⟩

theorem HasTyped.overlay_fields (h : HasTyped entity name schema) {added : Members Key Value} (hadded : KeepsType name added) :
    HasTyped entity name (schema.overlay (fieldsFragment entity added)) := by
  refine h.overlay (Members.distinct_singleton _ _) fun v hv => ?_
  rw [Members.get?_cons, if_pos (by simp)] at hv
  cases hv
  exact ⟨added, rfl, hadded⟩

/-- A field of another name that is taken away leaves a field alone, if that name has no dot. -/
theorem HasTyped.unset_field (h : HasTyped entity name schema) {field : String} (hplain : '.' ∉ field.toList)
    (hne : field ≠ name) :
    HasTyped entity name (schema.unset (Path.ofDotted (entity.display ++ ".fields." ++ field))) := by
  obtain ⟨own, fields, params, rfl, hfields, hparams, htype⟩ := h
  rcases unset_field_own entity own field with hsame | hless
  · rw [hsame]
    exact ⟨own, fields, params, rfl, hfields, hparams, htype⟩
  · rw [hless, unset_fields hfields, Path.ofDotted_of_plain hplain]
    refine ⟨_, Members.erase fields (.text field), params, rfl, Members.get?_set_self _ _ _, ?_, htype⟩
    rw [Members.get?_erase, if_neg (by simpa using hne), hparams]

/-! ### Corrections -/

theorem keepsType_singleton {key : Key} {params : Members Key Value} (hd : Members.Distinct params)
    (htype : Members.get? params "type" ≠ some .null) : KeepsType name [(key, .object params)] := by
  refine ⟨Members.distinct_singleton _ _, fun v hv => ?_⟩
  obtain ⟨_, -, hmem⟩ := Members.exists_of_get? hv
  cases List.mem_singleton.1 hmem
  exact ⟨params, rfl, hd, htype⟩

/-- The fields that processors add have a type. -/
theorem keepsType_of_makes {field : String} {p : Processor} {type : Key} {paths : List String} {added : Members Key Value}
    (hadded : Additions p field entity paths added) (hmakes : Processor.Makes type field paths added) :
    KeepsType name added := by
  refine ⟨hadded.plain.distinct, fun v hv => ?_⟩
  obtain ⟨key, -, hmem⟩ := Members.exists_of_get? hv
  obtain ⟨params, hparams, hd, -⟩ := hadded.plain.mem hmem
  obtain ⟨_, -, kind, more, hentry⟩ := hmakes.fields _ hmem
  refine ⟨params, hparams, hd, ?_⟩
  cases hentry
  cases hparams
  simp [Members.get?_cons]

theorem keepsType_streamFields : KeepsType name streamFields := by
  refine ⟨plain_streamFields.distinct, fun v hv => ?_⟩
  obtain ⟨key, -, hmem⟩ := Members.exists_of_get? hv
  obtain ⟨params, hparams, hd, -⟩ := plain_streamFields.mem hmem
  refine ⟨params, hparams, hd, ?_⟩
  simp only [streamFields, List.mem_cons, List.not_mem_nil, or_false] at hmem
  rcases hmem with hmem | hmem | hmem <;> cases hmem <;> cases hparams <;> simp [Members.get?_cons]

/-- The processor of another field leaves a field its type. -/
theorem HasTyped.process (h : HasTyped entity name schema) {field : String} {type : Value}
    (hmany : type = .str "linkMultiple" → '.' ∉ field.toList ∧ field ≠ name)
    (hprocess : process {} entity field type schema = .ok schema') : HasTyped entity name schema' := by
  obtain rfl | ⟨key, p, paths, added, hkey, -, hadded, hmakes, rfl⟩ := process_cases hprocess
  · exact h
  · refine HasTyped.overlay_fields ?_ (keepsType_of_makes hadded hmakes)
    refine List.foldlRecOn (motive := HasTyped entity name) paths _ h fun acc hacc text htext => ?_
    obtain ⟨hplain, hne⟩ := hmany (Value.key_eq_text (hmakes.many text htext ▸ hkey))
    rw [hadded.place text htext]
    exact hacc.unset_field hplain hne

theorem HasTyped.withDefaultAttribute (h : HasTyped entity name schema) (field : String) :
    HasTyped entity name (withDefaultAttribute d entity field schema) := by
  unfold Entity.withDefaultAttribute
  split
  · exact h.overlay_fields (keepsType_singleton (Members.distinct_singleton _ _) (by simp [Members.get?_cons]))
  · exact h

/-- The corrections leave a field its type, if the fields of many links are others without a dot in their names. -/
theorem HasTyped.correct (h : HasTyped entity name schema) {fields : Members String Params}
    (hmany : ∀ field ∈ fields, field.2.value "type" = .str "linkMultiple" → '.' ∉ field.1.toList ∧ field.1 ≠ name)
    (hcorrect : correct {} d entity fields schema = .ok schema') : HasTyped entity name schema' :=
  correct_invariant (HasTyped entity name) (fun field hfield _ _ hprocess hs => hs.process (hmany field hfield) hprocess)
    (fun field _ hs => hs.withDefaultAttribute field) (fun _ hs => hs.overlay_fields keepsType_streamFields) h hcorrect

/-! ### Relations, search and indexes -/

/-- Links leave fields that are there alone. -/
theorem HasTyped.relate (h : HasTyped entity name schema) {links : Members String Params}
    (hrelate : (relate m entity links schema).result = .ok schema') : HasTyped entity name schema' := by
  refine relate_invariant (HasTyped entity name) (fun _ _ _ _ shown _ hs hitem hshownOf hshown hmore => ?_) h hrelate
  have hkeeps : KeepsType name shown := by
    obtain ⟨own, fields, params, rfl, hfields, hparams, -⟩ := hs
    rw [Value.item_object (Members.get?_singleton _ _)] at hitem
    cases hitem
    obtain ⟨_, hopened, rfl⟩ := map_eq_ok.1 hshownOf
    cases hopened
    rw [hfields] at hshown
    have hnone : Members.get? shown (.text name) = none :=
      Link.get?_attributeFields_none hshown (by rw [Members.contains, hparams]; rfl)
    exact ⟨(Link.attributeFields_eq_ok hshown).1, fun v hv => by rw [hnone] at hv; cases hv⟩
  exact hs.overlay hmore.distinct fun v hv => ⟨shown, hmore.fields v hv, hkeeps⟩

theorem HasTyped.search (h : HasTyped entity name schema) (hsearch : (search c m entity d schema).result = .ok schema') :
    HasTyped entity name schema' := by
  rcases search_eq_ok hsearch with rfl | ⟨-, rfl⟩
  · exact h
  · exact h.overlay (Members.distinct_pair (by decide) _ _) (by simp [FullText.found, Members.get?_cons])

theorem HasTyped.indexed {config : Config} (h : HasTyped entity name schema)
    (hindexed : indexed config entity schema = .ok schema') : HasTyped entity name schema' := by
  obtain ⟨compiled, found, -, hfound, rfl⟩ := indexed_eq_ok hindexed
  obtain ⟨hd, hnone⟩ := Index.apart_of_synthesize hfound
  exact h.overlay hd fun v hv => by rw [hnone] at hv; cases hv

theorem HasTyped.ordered (h : HasTyped entity name schema) (hordered : ordered entity d schema = .ok schema') :
    HasTyped entity name schema' := by
  obtain ⟨own, fields, params, rfl, hfields, hparams, htype⟩ := h
  obtain ⟨own', rfl, hsame⟩ := ordered_own hordered
  exact ⟨own', fields, params, rfl, by rw [hsame _ (by simp), hfields], hparams, htype⟩

/-! ## The whole -/

/-- A resolved field of many links has no dot in its name: what has one is of a kind of the storage. -/
theorem Resolved.plain_of_many {field : String} {params : Params} (h : Resolved field params)
    (htype : params.value "type" = .str "linkMultiple") : '.' ∉ field.toList := by
  intro hdot
  obtain ⟨kind, hkind⟩ := h.dotted hdot
  rw [Members.value_of_get? hkind.type] at htype
  exact kind.str_word_ne_many htype

/-- If names of fields and parts have no dots, a compiled entity has its mandatory fields, each with a type, save one whose own
declaration makes it one for many links. -/
theorem hasTyped_of_compile (hc : c.registry = {}) (hplain : PlainFields m d) (hdistinct : DistinctParams m d)
    (hnames : Members.Distinct d.fields) (hname : name ∈ mandatory) (hother : ¬LinksMany c.config m entity d name)
    (h : (compile c m entity d).result = .ok schema) : HasTyped entity name schema := by
  obtain ⟨links, declared, resolved, corrected, related, searched, withIndexes, hlinks, hdeclared, hresolved, hcorrected, hrelated,
    hsearched, hindexed, hordered⟩ := compile_eq_ok h
  rw [hc] at hcorrected
  have hall := declared_of_fields hplain hdistinct hdeclared
  have hresolvedAll := resolved_of_resolveAll hall hresolved
  obtain ⟨params, hparams, hsingle⟩ : ∃ params, Members.get? resolved name = some params ∧ Single params := by
    refine single_of_resolveAll (fun one hone => (hall one hone).distinct) (fun params hmem htype => ?_) ?_ hresolved
    · exact hother ⟨links, declared, params, hlinks, hdeclared, hmem, htype⟩
    · exact single_seeds hname fun htype => hother (linksMany_of_field hnames hdistinct hlinks hdeclared htype)
  have hd := distinct_resolveAll hresolved
  have hbase : HasTyped entity name
      [(entity, .object ((base c.config d).set "fields" (.object (Params.toObjects resolved))))] := by
    refine ⟨_, _, params, rfl, Members.get?_set_self _ _ _, by rw [Params.get?_toObjects, hparams]; rfl, fun hnull => ?_⟩
    have htyped := hsingle.typed
    rw [hnull] at htyped
    cases htyped
  have hmany : ∀ field ∈ resolved, field.2.value "type" = .str "linkMultiple" → '.' ∉ field.1.toList ∧ field.1 ≠ name := by
    intro field hfield htype
    refine ⟨(hresolvedAll field hfield).plain_of_many htype, ?_⟩
    rintro rfl
    cases (Members.get?_of_mem hd hfield).symm.trans hparams
    exact hsingle.other htype
  exact ((((hbase.correct hmany hcorrected).relate hrelated).search hsearched).indexed hindexed).ordered hordered

end Entity

end EntitySchema
