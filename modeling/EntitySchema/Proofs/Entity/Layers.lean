import EntitySchema.Proofs.Entity.Fields
import EntitySchema.Proofs.Tree.Overlay
import EntitySchema.Proofs.Value.Access

/-!
# Declarations in layers

The declarations of an entity lie in layers: those that links imply, the parts of composite fields over them and the declared
fields on top. A name that one layer has is there in the end, and what all layers say of a name still holds of what it is
resolved to.

* `Field.OfKind`: parameters of a kind that do not ask for their field to be left out.

Results:
* `contains_layered`, `forall_layered`: the names of two layers, and what the parameters of both have in common.
* `forall_fields`: what all declarations have in common.
* `distinct_links`: no link is there twice.
* `get?_type_of_resolve`: the type of a resolved field.
* `OfKind.of_resolve`, `resolve_ne_none_of_ofKind`: a declaration of a kind is resolved to a field of that kind.
* `contains_resolveAll`, `forall_resolveAll`: the names of the resolved fields, and what they have in common.
-/
namespace EntitySchema

/-! ## Layers -/

namespace Entity

section
variable {lower upper : Members String Params}

/-- Merged layers have the names of both. -/
theorem contains_layered (lower upper : Members String Params) (name : String) :
    Members.contains (layered lower upper) name = (Members.contains lower name || Members.contains upper name) := by
  rw [layered, Params.contains_ofObjects, Members.contains_overlay, Params.contains_toObjects, Params.contains_toObjects]

/-- What the parameters of both layers have in common, those of the merged layers have. -/
theorem forall_layered {P : String → Params → Prop} (hoverlay : ∀ {name a b}, P name a → P name b → P name (Members.overlay a b))
    (hlower : ∀ one ∈ lower, P one.1 one.2) (hupper : ∀ one ∈ upper, P one.1 one.2) :
    ∀ one ∈ layered lower upper, P one.1 one.2 := by
  let Q (key : Key) (v : Value) : Prop := ∃ name params, key = .text name ∧ v = .object params ∧ P name params
  have hobjects : ∀ {ps : Members String Params}, (∀ one ∈ ps, P one.1 one.2) →
      ∀ entry ∈ Params.toObjects ps, Q entry.1 entry.2 := by
    intro ps hps entry he
    obtain ⟨one, hone, rfl⟩ := Params.mem_toObjects.1 he
    exact ⟨one.1, one.2, rfl, rfl, hps one hone⟩
  have hmerged : ∀ entry ∈ Members.merge .override (Params.toObjects lower) (Params.toObjects upper), Q entry.1 entry.2 := by
    refine Members.forall_merge_of (P := Q) (Q := Q) ?_ id ?_ (hobjects hlower) (hobjects hupper)
    · rintro k k' v hk ⟨name, params, rfl, hv, hP⟩
      exact ⟨name, params, Key.text_beq.1 hk, hv, hP⟩
    · rintro k v w ⟨name, a, rfl, rfl, ha⟩ ⟨name', b, hname, rfl, hb⟩
      cases hname
      exact ⟨name, _, rfl, Value.overlay_object _ _ _, hoverlay ha hb⟩
  intro one hone
  obtain ⟨v, he, hv⟩ := Params.mem_ofObjects.1 hone
  obtain ⟨name, params, hname, hparams, hP⟩ := hmerged _ he
  cases hname
  simp only at hparams
  rw [hparams, Value.members_object] at hv
  exact hv ▸ hP

theorem distinct_layered (hd : Members.Distinct lower) : Members.Distinct (layered lower upper) :=
  Params.distinct_ofObjects (Members.distinct_merge _ (Params.distinct_toObjects hd))

end

/-- What the fields that links imply, the parts of composite fields and the declared fields have in common, all declarations
have. -/
theorem forall_fields {c : Config} {m : Metadata} {entity : Key} {d : Definition} {links declared : Members String Params}
    {P : String → Params → Prop} (hoverlay : ∀ {name a b}, P name a → P name b → P name (Members.overlay a b))
    (himplied : ∀ link ∈ links, ∀ implied, Link.impliedFields c m (.ofKey entity) (.str link.1) link.2 = .ok implied →
      ∀ one ∈ Params.ofObjects implied, P one.1 one.2)
    (hparts : ∀ field ∈ d.fields, ∀ parts, partsOf c m field.1 field.2 = .ok parts → ∀ part ∈ parts, P part.1 part.2)
    (hfields : ∀ field ∈ d.fields, P field.1 field.2) (h : fields c m entity d links = .ok declared) :
    ∀ one ∈ declared, P one.1 one.2 := by
  unfold Entity.fields at h
  obtain ⟨implied, hlinks, h⟩ := bind_eq_ok.1 h
  obtain ⟨withParts, hfolded, h⟩ := bind_eq_ok.1 h
  cases h
  have hall : ∀ one ∈ implied, P one.1 one.2 := by
    refine foldlM_invariant (fun acc => ∀ one ∈ acc, P one.1 one.2) (fun acc link acc' hlink hacc hstep => ?_) (by simp) hlinks
    obtain ⟨found, hfound, hstep⟩ := bind_eq_ok.1 hstep
    cases hstep
    exact forall_layered hoverlay hacc (himplied link hlink found hfound)
  have hwithParts : ∀ one ∈ withParts, P one.1 one.2 := by
    refine foldlM_invariant (fun acc => ∀ one ∈ acc, P one.1 one.2) (fun acc field acc' hfield hacc hstep => ?_) hall hfolded
    obtain ⟨parts, hfound, hstep⟩ := bind_eq_ok.1 hstep
    cases hstep
    exact forall_layered hoverlay hacc (hparts field hfield parts (lift_eq_ok.1 hfound))
  exact forall_layered hoverlay hwithParts hfields

/-- No link of an entity is there twice. -/
theorem distinct_links {m : Metadata} {d : Definition} {found : Members String Params} (h : links m d = .ok found) :
    Members.Distinct found := by
  obtain ⟨added, hadded, rfl⟩ := map_eq_ok.1 h
  refine distinct_layered (foldlM_invariant Members.Distinct (fun acc field acc' _ hacc hstep => ?_) Members.distinct_nil hadded)
  obtain ⟨link, -, hstep⟩ := bind_eq_ok.1 hstep
  cases link with
  | none => cases hstep; exact hacc
  | some link => cases hstep; exact Members.distinct_set _ _ hacc

end Entity

/-! ## Declarations of a kind -/

namespace Field

/-- Parameters of a kind that do not ask for their field to be left out. -/
structure OfKind (kind : FieldKind) (params : Params) : Prop where
  distinct : Members.Distinct params
  type : Members.get? params "type" = some (.str kind.word)
  kept : Members.get? params "skipOrmDefs" = none

/-- The metadata of a type leaves no field of it out. -/
structure KeepsFields (t : FieldType) : Prop where
  itself : t.isSkipped = false
  fields : (t.fieldDefs.value "skipOrmDefs").truthy = false

section
variable {c : Config} {kind kind' : FieldKind} {name : String} {params params' : Params} {t : FieldType}

theorem OfKind.overlay (h : OfKind kind params) (h' : OfKind kind' params') : OfKind kind' (Members.overlay params params') where
  distinct := Members.distinct_merge _ h.distinct
  type := Members.get?_overlay_of_not_object _ h'.distinct h'.type fun _ => Value.noConfusion
  kept := by rw [Members.overlay, Members.get?_merge_of_none h'.kept, h.kept]

theorem OfKind.typeOf {m : Metadata} (h : OfKind kind params) : m.typeOf params = .ok (m.fieldType kind.word) := by
  unfold Metadata.typeOf
  rw [Members.value_of_get? h.type]
  cases kind <;> rfl

theorem OfKind.truthy (h : OfKind kind params) : (params.value "type").truthy = true := by
  rw [Members.value_of_get? h.type]
  cases kind <;> rfl

/-- The members that the type lays beneath leave a declared kind as it is. -/
theorem OfKind.withTypeDefs (h : OfKind kind params) (t : FieldType) :
    withTypeDefs t params = t.fieldDefs.overlay params ∧
      Members.get? (Field.withTypeDefs t params) "type" = some (.str kind.word) := by
  have htype : Members.get? (t.fieldDefs.overlay params) "type" = some (.str kind.word) :=
    Members.get?_overlay_of_not_object _ h.distinct h.type fun _ => Value.noConfusion
  have hbase : ((t.fieldDefs.overlay params).value "type").isText "base" = false := by
    rw [Members.value_of_get? htype]
    cases kind <;> rfl
  have hsame : Field.withTypeDefs t params = t.fieldDefs.overlay params := by
    unfold Field.withTypeDefs
    simp [hbase]
  exact ⟨hsame, hsame ▸ htype⟩

/-- A declaration of a kind is not left out, unless the metadata of its type asks for it. -/
theorem resolve_ne_none_of_ofKind (h : OfKind kind params) (hkeeps : KeepsFields t) :
    (resolve c name params t).result ≠ .ok none := by
  have hkept : ((Field.withTypeDefs t params).value "skipOrmDefs").truthy = false := by
    rw [(h.withTypeDefs t).1, Members.overlay, Members.value_congr (Members.get?_merge_of_none h.kept)]
    exact hkeeps.fields
  rw [ne_eq, resolve_eq_none_iff, hkeeps.itself, hkept]
  simp

/-- The type of a resolved field is the declared one over that of the metadata of the type. -/
theorem get?_type_of_resolve {found : Params} (h : (resolve c name params t).result = .ok (some found)) :
    Members.get? found "type" = Members.get? (t.fieldDefs.overlay params) "type" := by
  rw [get?_compiled (compiled_of_resolve h) (by simp) (by simp), get?_attributes (by decide), said_type,
    get?_withoutIdleNotNull (by simp), get?_withTypeDefs (by simp)]

/-- A declared type is given in the resolved field. -/
theorem truthy_type_of_resolve (hd : Members.Distinct params) (htype : (params.value "type").truthy = true) {found : Params}
    (h : (resolve c name params t).result = .ok (some found)) : (found.value "type").truthy = true := by
  rw [Members.value_congr (get?_type_of_resolve h)]
  exact Members.truthy_overlay _ hd htype

/-- A declaration of a kind is resolved to a field of that kind. -/
theorem OfKind.of_resolve (h : OfKind kind params) {found : Params} (hresolve : (resolve c name params t).result = .ok (some found)) :
    OfKind kind found := by
  have hcompiled := compiled_of_resolve hresolve
  refine ⟨distinct_compiled hcompiled, ?_, ?_⟩
  · rw [get?_type_of_resolve hresolve]
    exact Members.get?_overlay_of_not_object _ h.distinct h.type fun _ => Value.noConfusion
  · rw [get?_compiled hcompiled (by simp) (by simp), get?_attributes (by decide), said_eq_none (by decide)]

end

end Field

/-! ## Resolved fields -/

namespace Entity

variable {c : Config} {m : Metadata} {fields resolved : Members String Params} {declared : List (String × Params)}

/-- The resolved fields are those that they are added to and those that are declared with a type and not left out. -/
theorem contains_resolveAll (h : (resolveAll c m fields declared).result = .ok resolved) {name : String}
    (hname : Members.contains fields name = true ∨ ∃ params, (name, params) ∈ declared ∧ (params.value "type").truthy = true ∧
      ∀ t, m.typeOf params = .ok t → (Field.resolve c name params t).result ≠ .ok none) :
    Members.contains resolved name = true := by
  induction declared generalizing fields with
  | nil =>
    cases h
    exact hname.resolve_right fun hdeclared => List.not_mem_nil hdeclared.choose_spec.1
  | cons head rest ih =>
    obtain ⟨other, params⟩ := head
    rw [resolveAll] at h
    split at h
    · obtain ⟨t, ht, h⟩ := Run.result_bind_eq_ok.1 h
      obtain ⟨found, hfound, h⟩ := Run.result_bind_eq_ok.1 h
      rw [Run.lift_eq_ok] at ht
      cases found with
      | some found =>
        refine ih h ?_
        rcases hname with hname | ⟨given, hmem, hgiven⟩
        · exact .inl (contains_addField (.inl hname))
        · rcases List.mem_cons.1 hmem with hhead | hrest
          · cases hhead
            exact .inl (contains_addField (.inr rfl))
          · exact .inr ⟨given, hrest, hgiven⟩
      | none =>
        refine ih h (hname.imp_right ?_)
        rintro ⟨given, hmem, htype, hkept⟩
        rcases List.mem_cons.1 hmem with hhead | hrest
        · cases hhead
          exact absurd hfound (hkept t ht)
        · exact ⟨given, hrest, htype, hkept⟩
    · rename_i huntyped
      refine ih h (hname.imp_right ?_)
      rintro ⟨given, hmem, htype, hkept⟩
      rcases List.mem_cons.1 hmem with hhead | hrest
      · cases hhead
        exact absurd htype huntyped
      · exact ⟨given, hrest, htype, hkept⟩

/-- What the fields that are there and those that are resolved have in common, all of them have in the end. -/
theorem forall_resolveAll {P : String → Params → Prop} (hoverlay : ∀ {name a b}, P name a → P name b → P name (Members.overlay a b))
    (h : (resolveAll c m fields declared).result = .ok resolved) (hfields : ∀ one ∈ fields, P one.1 one.2)
    (hdeclared : ∀ one ∈ declared, (one.2.value "type").truthy = true → ∀ t found,
      (Field.resolve c one.1 one.2 t).result = .ok (some found) → P one.1 found) : ∀ one ∈ resolved, P one.1 one.2 := by
  refine resolveAll_invariant (fun fields => ∀ one ∈ fields, P one.1 one.2) h
    (fun one hone htype t found hfound fields hfields => ?_) hfields
  have hP := hdeclared one hone htype t found hfound
  exact forall_addField hfields hP fun old hold => hoverlay hold hP

end Entity

end EntitySchema
