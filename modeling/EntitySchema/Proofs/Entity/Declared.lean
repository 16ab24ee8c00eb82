import EntitySchema.Entity.Declared
import EntitySchema.Proofs.Params
import EntitySchema.Proofs.Record.Fits
import EntitySchema.Schema.Compile

/-!
# Declarations of an entity whose types add nothing

Without metadata of types an entity has the links that it declares, and its fields are the declared ones over those that its
links imply. All of them are of the kinds that declarations have, so that the only thing that can go wrong is a link that
breaks its contract.

* `declaredLinks`: the links of such an entity.
* `KeepsContract`: none of them breaks its contract.

Results:
* `entityDefinition_fits`: a definition that was read is of the kinds that its shape says.
* `fields_yields`: the declarations of fields, if the links keep their contract.
* `fields_of_broken`: else the definitions break a contract.
-/
namespace EntitySchema

/-! ## Parameters of a shape -/

/-- Named parameters that fit a shape. -/
def ParamsFit (s : Record.Shape) (ps : Members String Params) : Prop :=
  ∀ p ∈ ps, s.Fits (.object p.2)

section
variable {s : Record.Shape} {ps qs : Members String Params}

theorem fits_toObjects (h : ParamsFit s ps) : (Record.Shape.mapOf s).Fits (.object (Params.toObjects ps)) := by
  rw [Record.Shape.Fits]
  refine ⟨_, rfl, fun entry he => ?_⟩
  obtain ⟨p, hp, rfl⟩ := Params.mem_toObjects.1 he
  exact ⟨⟨p.1, rfl⟩, h p hp⟩

theorem paramsFit_ofObjects (hs : ∀ {v}, s.Fits v → ∃ m, v = .object m) {m : Members Key Value}
    (h : (Record.Shape.mapOf s).Fits (.object m)) : ParamsFit s (Params.ofObjects m) := by
  simp only [Record.Shape.Fits, Value.object.injEq, exists_eq_left'] at h
  intro p hp
  obtain ⟨v, hv, hp⟩ := Params.mem_ofObjects.1 hp
  have hfits := (h _ hv).2
  obtain ⟨a, rfl⟩ := hs hfits
  rw [← hp]
  exact hfits

/-- Fitting parameters over fitting ones fit. -/
theorem ParamsFit.layered (hs : ∀ {v}, s.Fits v → ∃ m, v = .object m) (hps : ParamsFit s ps) (hqs : ParamsFit s qs) :
    ParamsFit s (Entity.layered ps qs) :=
  paramsFit_ofObjects hs (Record.fits_merge (fits_toObjects hps) (fits_toObjects hqs))

end

namespace Record

theorem object_of_fits_field {v : Value} (h : fieldDeclaration.Fits v) : ∃ m, v = .object m :=
  object_of_fits_record h

theorem object_of_fits_link {v : Value} (h : linkDeclaration.Fits v) : ∃ m, v = .object m :=
  object_of_fits_record h

theorem typedRecord_of_field {params : Params} (h : fieldDeclaration.Fits (.object params)) :
    typedRecord.Fits (.object params) := by
  refine fits_typedRecord.2 fun entry he => ?_
  obtain ⟨name, hname⟩ := named_of_fits h entry he
  refine ⟨name, hname, fun htype => ?_⟩
  exact fits_of_mem (a := ⟨"type", "type", false⟩) h (by simp [maybe]) he (by rw [hname, htype])

end Record

/-! ## Definitions -/

namespace Definition

variable {d : Definition}

/-- A definition that was read is of the kinds that its shape says. -/
theorem fits_of_ofValue {v : Value} (h : ofValue v = .ok d) : Record.entityDefinition.Fits (.object d.body) := by
  obtain ⟨w, hw, rfl⟩ := map_eq_ok.1 h
  unfold Record.Shape.accept at hw
  split at hw
  · rename_i w' hcheck
    cases hw
    have hfits := Record.fits_of_check (by decide) hcheck
    obtain ⟨m, rfl⟩ := Record.object_of_fits_record hfits
    exact hfits
  · cases hw

theorem fits_of_load {entity : Key} {v : Value} (h : Schema.load entity (.written v) = .ok d) :
    Record.entityDefinition.Fits (.object d.body) := by
  unfold Schema.load at h
  simp only at h
  split at h
  · split at h
    · rename_i d' hd
      cases h
      exact fits_of_ofValue hd
    · cases h
  · cases h

/-- The parameters under an attribute of a definition, if each of them is a record. -/
theorem paramsFit_value (h : Record.entityDefinition.Fits (.object d.body)) {a : Record.Attribute} {s : Record.Shape}
    (ha : (a, .mapOf s) ∈ Record.entityDefinition.attributes) (hs : ∀ {v}, s.Fits v → ∃ m, v = .object m) :
    ParamsFit s (Params.ofObjects (d.body.value (.text a.key)).members) := by
  cases hv : Members.get? d.body (.text a.key) with
  | none => rw [Members.value, hv]; exact fun _ hp => absurd hp List.not_mem_nil
  | some v =>
    have hfits := Record.fits_of_get? h ha hv
    rw [Members.value_of_get? hv]
    obtain ⟨m, rfl⟩ : ∃ m, v = .object m := by
      rw [Record.Shape.Fits] at hfits
      obtain ⟨m, hm, -⟩ := hfits
      exact ⟨m, hm⟩
    exact paramsFit_ofObjects hs hfits

theorem paramsFit_fields (h : Record.entityDefinition.Fits (.object d.body)) : ParamsFit Record.typedRecord d.fields := by
  have hfields : ParamsFit Record.fieldDeclaration d.fields :=
    paramsFit_value (a := ⟨"fields", "fields", false⟩) h
      (by simp [Record.entityDefinition, Record.Shape.attributes, Record.plain]) Record.object_of_fits_field
  exact fun p hp => Record.typedRecord_of_field (hfields p hp)

theorem paramsFit_links (h : Record.entityDefinition.Fits (.object d.body)) : ParamsFit Record.linkDeclaration d.links :=
  paramsFit_value (a := ⟨"links", "links", false⟩) h (by simp [Record.entityDefinition, Record.Shape.attributes, Record.plain])
    Record.object_of_fits_link

end Definition

/-! ## Types without metadata -/

/-- A type without metadata adds nothing. -/
theorem Metadata.typeOf_empty {params : Params} (h : (Record.Shape.nullable .text).Fits (params.value "type")) :
    ({} : Metadata).typeOf params = .ok {} := by
  unfold Metadata.typeOf
  simp only
  split
  · rename_i htype
    obtain ⟨s, hs⟩ := Record.text_of_truthy h htype
    rw [hs]
    rfl
  · rfl

/-- A link without a kind lacks a parameter or declares a kind that does not exist; the error names it and its entity. -/
theorem Link.error_of_kind? {m : Metadata} {entity link : Value} {params : Params} {e : Error}
    (h : kind? m entity link params = .error e) :
    (∃ missing, e = .invalidLink entity link missing) ∨ ∃ declared valid, e = .unknownLinkType entity link declared valid := by
  unfold kind? at h
  split at h
  · cases h
  · simp only at h
    split at h
    · cases h; exact .inl ⟨_, rfl⟩
    · split at h
      · cases h; exact .inr ⟨_, _, rfl⟩
      · split at h
        · cases h
        · split at h
          · cases h; exact .inl ⟨_, rfl⟩
          · cases h

theorem Link.isConfiguration_of_kind? {m : Metadata} {entity link : Value} {params : Params} {e : Error}
    (h : kind? m entity link params = .error e) : e.isConfiguration = true := by
  rcases error_of_kind? h with ⟨missing, rfl⟩ | ⟨declared, valid, rfl⟩ <;> rfl

namespace Entity

variable {c : Config} {entity : Key} {d : Definition}

theorem linkOf_empty {params : Params} (h : Record.typedRecord.Fits (.object params)) : linkOf {} params = .ok none := by
  unfold linkOf
  split
  · rfl
  · rw [Metadata.typeOf_empty (Record.fits_type h)]
    rfl

theorem partsOf_empty {field : String} {params : Params} (h : Record.typedRecord.Fits (.object params)) :
    partsOf c {} field params = .ok [] := by
  unfold partsOf
  split
  · rfl
  · rw [Metadata.typeOf_empty (Record.fits_type h)]
    rfl

/-- The links of an entity whose field types add none. -/
def declaredLinks (d : Definition) : Members String Params :=
  layered [] d.links

theorem links_empty (h : Record.entityDefinition.Fits (.object d.body)) : links {} d = .ok (declaredLinks d) := by
  have hnone : contributedLinks {} d = .ok [] := by
    unfold contributedLinks
    rw [foldlM_eq_foldl (g := fun acc _ => acc) fun acc field hfield => by
      rw [linkOf_empty (Definition.paramsFit_fields h field hfield)]; rfl]
    exact congrArg Except.ok (List.foldl_fixed d.fields)
  unfold links
  rw [hnone]
  rfl

theorem paramsFit_declaredLinks (h : Record.entityDefinition.Fits (.object d.body)) :
    ParamsFit Record.linkDeclaration (declaredLinks d) :=
  ParamsFit.layered Record.object_of_fits_link (fun _ hp => absurd hp List.not_mem_nil) (Definition.paramsFit_links h)

/-- None of the links of an entity breaks its contract. -/
def KeepsContract (entity : Key) (d : Definition) : Prop :=
  ∀ link ∈ declaredLinks d, ∃ kind, Link.kind? {} (.ofKey entity) (.str link.1) link.2 = .ok kind

/-! ## Declarations of fields -/

theorem fits_fieldsOf (link : String) (kind : LinkKind) :
    (Record.Shape.mapOf Record.typedRecord).Fits (.object (Link.fieldsOf c (.str link) kind)) := by
  have hnil : Record.typedRecord.Fits (.object []) := Record.fits_record_nil
  rw [Record.Shape.Fits]
  refine ⟨_, rfl, ?_⟩
  cases kind <;>
    simp [Link.fieldsOf, Link.collectionFields, Link.unstored, Link.shown, Link.ofKind, Record.fits_typedRecord_cons, hnil,
      Record.Shape.Fits]

theorem fits_impliedFields {link : String} {params : Params} {implied : Members Key Value}
    (h : Link.impliedFields c {} (.ofKey entity) (.str link) params = .ok implied) :
    (Record.Shape.mapOf Record.typedRecord).Fits (.object implied) := by
  obtain ⟨kind, -, rfl⟩ := map_eq_ok.1 h
  cases kind with
  | none => rw [Record.Shape.Fits]; exact ⟨[], rfl, fun _ he => absurd he List.not_mem_nil⟩
  | some kind => exact fits_fieldsOf link kind

/-- The fields that links imply, if none breaks its contract. -/
theorem impliedFields_yields (h : KeepsContract entity d) :
    Yields (impliedFields c {} entity (declaredLinks d)) (ParamsFit Record.typedRecord) := by
  unfold impliedFields
  refine yields_foldlM (fun acc link hlink hacc => ?_) fun _ hp => absurd hp List.not_mem_nil
  obtain ⟨kind, hkind⟩ := h link hlink
  have himplied : Yields (Link.impliedFields c {} (.ofKey entity) (.str link.1) link.2)
      fun implied => (Record.Shape.mapOf Record.typedRecord).Fits (.object implied) := by
    cases hresult : Link.impliedFields c {} (.ofKey entity) (.str link.1) link.2 with
    | ok implied => exact yields_ok (fits_impliedFields hresult)
    | error e => simp [Link.impliedFields, hkind, Except.map] at hresult
  refine himplied.bind fun implied hfits => yields_ok ?_
  exact hacc.layered Record.object_of_fits_typedRecord (paramsFit_ofObjects Record.object_of_fits_typedRecord hfits)

/-- A link that breaks its contract stops the fields from being implied. -/
theorem impliedFields_of_broken (h : ¬KeepsContract entity d) :
    ∃ e, impliedFields c {} entity (declaredLinks d) = .error e ∧ e.isConfiguration = true := by
  cases hresult : impliedFields c {} entity (declaredLinks d) with
  | ok implied =>
    refine absurd (fun link hlink => ?_) h
    obtain ⟨acc, acc', hstep⟩ := exists_of_foldlM_eq_ok hresult link hlink
    obtain ⟨implied, himplied, -⟩ := bind_eq_ok.1 hstep
    obtain ⟨kind, hkind, -⟩ := map_eq_ok.1 himplied
    exact ⟨kind, hkind⟩
  | error e =>
    refine ⟨e, rfl, ?_⟩
    obtain ⟨acc, link, hlink, hstep⟩ := exists_of_foldlM_eq_error hresult
    cases hkind : Link.kind? {} (.ofKey entity) (.str link.1) link.2 with
    | ok kind => simp only [Link.impliedFields, hkind] at hstep; cases hstep
    | error e' =>
      simp only [Link.impliedFields, hkind] at hstep
      cases hstep
      exact Link.isConfiguration_of_kind? hkind

theorem withParts_yields {implied : Members String Params} (hd : Record.entityDefinition.Fits (.object d.body))
    (himplied : ParamsFit Record.typedRecord implied) :
    Yields (d.fields.foldlM (fun acc field => do return layered acc (← partsOf c {} field.1 field.2)) implied : Except Error _)
      (ParamsFit Record.typedRecord) := by
  refine yields_foldlM (fun acc field hfield hacc => ?_) himplied
  rw [partsOf_empty (Definition.paramsFit_fields hd field hfield)]
  exact yields_ok (hacc.layered Record.object_of_fits_typedRecord fun _ hp => absurd hp List.not_mem_nil)

/-- The declarations of fields, if the links keep their contract. -/
theorem fields_yields (hd : Record.entityDefinition.Fits (.object d.body)) (h : KeepsContract entity d) :
    Yields (fields c {} entity d (declaredLinks d)) (ParamsFit Record.typedRecord) := by
  unfold fields
  refine (impliedFields_yields h).bind fun implied himplied => ?_
  refine (withParts_yields hd himplied).bind fun withParts hparts => yields_ok ?_
  exact hparts.layered Record.object_of_fits_typedRecord (Definition.paramsFit_fields hd)

/-- Links that break their contract stop the fields from being declared. -/
theorem fields_of_broken (h : ¬KeepsContract entity d) :
    ∃ e, fields c {} entity d (declaredLinks d) = .error e ∧ e.isConfiguration = true := by
  obtain ⟨e, he, hconfiguration⟩ := impliedFields_of_broken (c := c) h
  refine ⟨e, ?_, hconfiguration⟩
  unfold fields
  rw [he]
  rfl

end Entity

end EntitySchema
