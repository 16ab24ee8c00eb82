import EntitySchema.Proofs.Field.NormalForm
import EntitySchema.Proofs.Link.Columns
import EntitySchema.Proofs.Record.Accepted

/-!
# Columns that are accepted

The types of a junction's columns are what a link declares, and nothing has checked them when the junction is made. Still every
column is a field that a schema accepts, by itself and over any field that is accepted: in normal form its type is a text, and
the few attributes that it has besides are the compiler's own.

* `Field.IsAttribute`: what a field takes under the key of an attribute.
* `AcceptedColumn`: a column that consists of nothing else.

Results:
* `acceptedColumn_of_declaration`: the columns of junctions are such.
* `named_of_fields`: their names are texts.
* `AcceptedColumn.accepts_overlay`: a column over an accepted field gives an accepted one.
-/
namespace EntitySchema

/-! ## Attributes of a field -/

namespace Field

/-- A value that a field takes under the key of an attribute, and that is no object. -/
def IsAttribute (key : Key) (v : Value) : Prop :=
  (∀ m, v ≠ .object m) ∧ ∃ a ∈ Record.compiledField.attributes, key = .text a.1.key ∧ a.2.Accepts v

section
open Record

theorem isAttribute_of_accepts (name : String) {key : String} {s : Shape} {v : Value}
    (hmem : maybe name key s ∈ compiledField.attributes) (hv : s.Accepts v) (hobject : ∀ m, v ≠ .object m) :
    IsAttribute (.text key) v :=
  ⟨hobject, _, hmem, rfl, accepts_nullable_iff.2 (.inr hv)⟩

theorem isAttribute_default (b : Bool) : IsAttribute "default" (.bool b) :=
  ⟨fun _ => Value.noConfusion, plain "default" "default" .anything, by simp [compiledField, Shape.attributes], rfl,
    accepts_anything _⟩

/-- Everything that a normal form may put is an attribute. -/
theorem Puts.isAttribute {key : Key} {v : Value} (h : Puts key v) : IsAttribute key v := by
  have hobject : ∀ m, v ≠ .object m := by
    intro m hv
    subst hv
    cases h
  cases h with
  | type word => exact isAttribute_of_accepts "type" (by simp [compiledField, Shape.attributes]) (accepts_text word) hobject
  | dbType word => exact isAttribute_of_accepts "db_type" (by simp [compiledField, Shape.attributes]) (accepts_text word) hobject
  | len n => exact isAttribute_of_accepts "len" (by simp [compiledField, Shape.attributes]) (accepts_whole n) hobject
  | notNull => exact isAttribute_of_accepts "not_null" (by simp [compiledField, Shape.attributes]) (accepts_flag false) hobject
  | default b => exact isAttribute_default b

end

/-- Nothing but attributes stands under other keys than that of the type. -/
def WithAttributes (params : Members Key Value) : Prop :=
  ∀ key v, Members.get? params key = some v → key ≠ .text "type" → IsAttribute key v

section
variable {c : Config} {params normal : Members Key Value} {key : Key} {v : Value}

theorem WithAttributes.set (h : WithAttributes params) (hv : IsAttribute key v) : WithAttributes (params.set key v) := by
  intro other w hw hother
  rw [Members.get?_set] at hw
  split at hw
  · rename_i hsame
    cases hw
    have hattribute := hv
    obtain ⟨-, a, -, rfl, -⟩ := hattribute
    rw [Key.text_beq.1 hsame]
    exact hv
  · exact h other w hw hother

theorem withAttributes_singleton (type : Value) : WithAttributes [("type", type)] := by
  intro key w hw hkey
  rw [Members.get?_cons] at hw
  split at hw
  · rename_i hsame
    exact absurd (Key.text_beq.1 hsame) hkey
  · cases hw

theorem WithAttributes.normalize (h : WithAttributes params) (hnormal : Field.normalize c params = .ok (some normal)) :
    WithAttributes normal :=
  normalize_invariant (fun hputs hm => hm.set hputs.isAttribute) h hnormal

end

end Field

/-! ## Columns of a junction -/

namespace Junction

variable {c : Config}

/-- A column: different attributes of a field. -/
structure AcceptedColumn (params : Members Key Value) : Prop where
  distinct : Members.Distinct params
  each : ∀ key v, Members.get? params key = some v → Field.IsAttribute key v

theorem withAttributes_of_declaration {v : Value} (h : declaration c v) : Field.WithAttributes v.members := by
  rcases h with rfl | rfl | ⟨type, rfl⟩
  · have hmem : Record.maybe "autoincrement" "autoincrement" .flag ∈ Record.compiledField.attributes := by
      simp [Record.compiledField, Record.Shape.attributes]
    have hnumbered : Field.IsAttribute "autoincrement" (.bool true) :=
      Field.isAttribute_of_accepts "autoincrement" hmem (Record.accepts_flag true) fun _ => Value.noConfusion
    exact ((Field.withAttributes_singleton _).set hnumbered).set (Field.Puts.dbType _).isAttribute
  · exact (Field.withAttributes_singleton _).set (Field.Puts.default false).isAttribute
  · exact Field.withAttributes_singleton type

/-- Whatever types the columns of a junction are declared with, in normal form they are accepted. -/
theorem acceptedColumn_of_declaration {v w : Value} (h : declaration c v) (hw : Field.normalForm? c v = some w) :
    ∃ params, w = .object params ∧ AcceptedColumn params := by
  obtain ⟨params, rfl, hplain, hmark⟩ := isColumn_of_declaration h hw
  obtain ⟨_, hp, hsame⟩ := Field.normalForm?_eq_some.1 hw
  cases hsame
  refine ⟨params, rfl, hplain.distinct, fun key v hv => ?_⟩
  by_cases hkey : key = .text "type"
  · obtain ⟨word, hword⟩ := Field.type_of_normalize hp hmark
    rw [hkey, Members.value_eq_str.1 hword] at hv
    cases hv
    rw [hkey]
    exact (Field.Puts.type word).isAttribute
  · exact (withAttributes_of_declaration h).normalize hp key v hv hkey

/-- A column over an accepted field gives an accepted one. -/
theorem AcceptedColumn.accepts_overlay {field params : Members Key Value} (h : AcceptedColumn params)
    (hfield : Record.compiledField.Accepts (.object field)) :
    Record.compiledField.Accepts (.object (field.overlay params)) := by
  refine Record.accepts_overlay Record.isRecord_compiledField Record.namesApart_compiledField h.distinct hfield ?_
  intro key v hv
  obtain ⟨hobject, a, ha, hkey, haccepts⟩ := h.each key v hv
  exact ⟨a, ha, hkey, by rwa [Members.mergedAt_of_not_object field key hobject]⟩

/-- A column by itself is an accepted field. -/
theorem AcceptedColumn.accepts {params : Members Key Value} (h : AcceptedColumn params) :
    Record.compiledField.Accepts (.object params) := by
  have hempty : Record.compiledField.Accepts (.object []) := ⟨.object [], rfl⟩
  have haccepts := h.accepts_overlay hempty
  rwa [Members.overlay_nil_left h.distinct] at haccepts

/-! ## Names of columns -/

/-- The columns of a relation that is accepted have texts for names. -/
theorem named_of_fields {relation declared : Members Key Value} (haccepts : Record.compiledRelation.Accepts (.object relation))
    (h : fields c relation = .ok declared) : Members.Named declared := by
  have hkeys : (Record.Shape.nullable Record.texts).Accepts (relation.value "midKeys") :=
    Record.accepts_value Record.isRecord_compiledRelation haccepts (a := ⟨"mid_keys", "midKeys", false⟩)
      (by simp [Record.compiledRelation, Record.Shape.attributes, Record.maybe])
  have hcolumns : (Record.Shape.nullable Record.objects).Accepts (relation.value "additionalColumns") :=
    Record.accepts_value Record.isRecord_compiledRelation haccepts (a := ⟨"additional_columns", "additionalColumns", false⟩)
      (by simp [Record.compiledRelation, Record.Shape.attributes, Record.maybe])
  obtain ⟨names, hnames⟩ := givenParts_of_fits (Record.fits_texts hkeys)
  unfold fields at h
  obtain ⟨keys, hgiven, h⟩ := bind_eq_ok.1 h
  obtain ⟨keyed, hkeyed, h⟩ := bind_eq_ok.1 h
  obtain ⟨columns, hmembers, h⟩ := bind_eq_ok.1 h
  cases hnames.symm.trans hgiven
  obtain rfl := Value.givenMembers_eq_ok hmembers
  refine foldlM_invariant Members.Named ?_ ?_ h
  · intro m column m' hcolumn hm hstep
    obtain ⟨defs, -, hstep⟩ := bind_eq_ok.1 hstep
    cases hstep
    obtain ⟨⟨name, hname⟩, -⟩ := Record.accepts_members hcolumns hcolumn
    rw [hname]
    exact hm.set name _
  · refine foldlM_invariant Members.Named ?_ ?_ hkeyed
    · intro m key m' hkey hm hstep
      obtain ⟨name, -, rfl⟩ := List.mem_map.1 hkey
      cases hstep
      exact hm.set name _
    · intro entry hentry
      rcases List.mem_cons.1 hentry with rfl | hentry
      · exact ⟨"id", rfl⟩
      · rw [List.mem_singleton] at hentry
        exact ⟨"deleted", by rw [hentry]⟩

end Junction

end EntitySchema
