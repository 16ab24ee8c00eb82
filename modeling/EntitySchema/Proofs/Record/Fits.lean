import EntitySchema.Proofs.Record.Canonical
import EntitySchema.Proofs.Run
import EntitySchema.Proofs.Tree.Overlay
import EntitySchema.Proofs.Value.Access

/-!
# Values that fit a shape

A canonical value is of the kinds that its shape says, at every depth and under whatever keys stand twice. Such values stay so
when one is laid over another: that is why a stage may use declarations after they were merged as if they had just been read.

* `Shape.Fits`: a value of the kinds that a shape says.
* `Shape.proper`: the attributes of a shape have different keys, at every depth.

Results:
* `fits_of_check`: canonical values fit.
* `fits_overlay`: a fitting value over a fitting one fits.
-/
namespace EntitySchema

/-- Every member of merged members has a property that the members of both have and that merging keeps. -/
theorem Members.forall_merge {mode : MergeMode} {P : Key → Value → Prop}
    (hcongr : ∀ {k k' v}, (k == k') = true → P k v → P k' v)
    (hoverlay : ∀ {k v w}, P k v → P k w → P k (Value.overlay mode v w)) {lower upper : Members Key Value}
    (hlower : ∀ entry ∈ lower, P entry.1 entry.2) (hupper : ∀ entry ∈ upper, P entry.1 entry.2) :
    ∀ entry ∈ Members.merge mode lower upper, P entry.1 entry.2 :=
  forall_merge_of (P := P) (Q := P) hcongr id hoverlay hlower hupper

/-- Every key is a text. -/
def Members.Named {α : Type} (m : Members Key α) : Prop :=
  ∀ entry ∈ m, ∃ name, entry.1 = .text name

/-- Texts with an object under each. -/
def Members.Objects (m : Members Key Value) : Prop :=
  ∀ entry ∈ m, (∃ name, entry.1 = .text name) ∧ ∃ below, entry.2 = .object below

namespace Record

mutual

/-- A value of the kinds that a shape says. Keys are texts, and what stands under the key of an attribute fits the attribute. -/
def Shape.Fits : Shape → Value → Prop
  | .anything, _ => True
  | .text, v => ∃ s, v = .str s
  | .flag, v => ∃ b, v = .bool b
  | .whole, v => ∃ n, v = .int n
  | .oneOf words, v => ∃ s ∈ words, v = .str s
  | .flagOrText, v => (∃ s, v = .str s) ∨ ∃ b, v = .bool b
  | .textOrTexts, v => (∃ s, v = .str s) ∨ ∃ xs, v = .list xs ∧ ∀ x ∈ xs, ∃ s, x = .str s
  | .nullable s, v => v = .null ∨ s.Fits v
  | .listOf s, v => ∃ xs, v = .list xs ∧ ∀ x ∈ xs, s.Fits x
  | .tupleOf s, v => ∃ xs, v = .list xs ∧ ∀ x ∈ xs, s.Fits x
  | .mapOf s, v => ∃ m, v = .object m ∧ ∀ entry ∈ m, (∃ name, entry.1 = .text name) ∧ s.Fits entry.2
  | .record _ _ attributes, v => ∃ m, v = .object m ∧ Members.Named m ∧ Shape.FitsAttributes attributes m

def Shape.FitsAttributes : List (Attribute × Shape) → Members Key Value → Prop
  | [], _ => True
  | (a, s) :: rest, m => (∀ entry ∈ m, entry.1 = .text a.key → s.Fits entry.2) ∧ Shape.FitsAttributes rest m

end

mutual

/-- The attributes of a shape have different keys, at every depth. -/
def Shape.proper : Shape → Bool
  | .nullable s => s.proper
  | .listOf s => s.proper
  | .tupleOf s => s.proper
  | .mapOf s => s.proper
  | .record _ _ attributes => decide (DistinctKeys attributes) && Shape.properAll attributes
  | _ => true

def Shape.properAll : List (Attribute × Shape) → Bool
  | [] => true
  | (_, s) :: rest => s.proper && Shape.properAll rest

end

theorem fitsAttributes_iff {attributes : List (Attribute × Shape)} {m : Members Key Value} :
    Shape.FitsAttributes attributes m ↔ ∀ a ∈ attributes, ∀ entry ∈ m, entry.1 = .text a.1.key → a.2.Fits entry.2 := by
  induction attributes with
  | nil => simp [Shape.FitsAttributes]
  | cons a rest ih => simp only [Shape.FitsAttributes, ih, List.forall_mem_cons]

/-! ## Canonical values -/

theorem mem_checkElements {check : Value → Except (List Fault) Value} {n : Nat} {xs ys : List Value}
    (h : checkElements check n xs = .ok ys) {y : Value} (hy : y ∈ ys) : ∃ x ∈ xs, check x = .ok y := by
  induction xs generalizing n ys with
  | nil => cases h; cases hy
  | cons x rest ih =>
    simp only [checkElements, both_eq_ok, under_eq_ok] at h
    obtain ⟨w, rest', hw, hrest, rfl⟩ := h
    rcases List.mem_cons.1 hy with rfl | hy
    · exact ⟨x, List.mem_cons_self, hw⟩
    · obtain ⟨x', hx', hcheck⟩ := ih hrest hy
      exact ⟨x', List.mem_cons_of_mem _ hx', hcheck⟩

theorem named_checkUnknown {m m' : Members Key Value} (h : checkUnknown m = .ok m') : Members.Named m' := by
  induction m generalizing m' with
  | nil => cases h; exact fun _ he => absurd he List.not_mem_nil
  | cons entry rest ih =>
    obtain ⟨k, v⟩ := entry
    simp only [checkUnknown, both_eq_ok] at h
    obtain ⟨entry, rest', he, hrest, rfl⟩ := h
    cases k with
    | text s =>
      cases he
      intro entry hentry
      rcases List.mem_cons.1 hentry with rfl | hentry
      · exact ⟨s, rfl⟩
      · exact ih hrest entry hentry
    | _ => simp at he

/-- A known member is the canonical form of a value, by one of the attributes. -/
theorem mem_checkAttributes {attributes : List (Attribute × Shape)} {m known : Members Key Value}
    (h : Shape.checkAttributes attributes m = .ok known) {entry : Key × Value} (he : entry ∈ known) :
    ∃ a ∈ attributes, entry.1 = .text a.1.key ∧ ∃ v, a.2.check v = .ok entry.2 := by
  induction attributes generalizing known with
  | nil => rw [Shape.checkAttributes] at h; cases h; cases he
  | cons head rest ih =>
    obtain ⟨a, s⟩ := head
    obtain ⟨known', hrest, ⟨-, rfl⟩ | ⟨v, w, -, hw, rfl⟩⟩ := checkAttributes_cons_eq_ok h
    · obtain ⟨b, hb, hentry⟩ := ih hrest he
      exact ⟨b, List.mem_cons_of_mem _ hb, hentry⟩
    · rcases List.mem_cons.1 he with rfl | he
      · exact ⟨(a, s), List.mem_cons_self, rfl, v, hw⟩
      · obtain ⟨b, hb, hentry⟩ := ih hrest he
        exact ⟨b, List.mem_cons_of_mem _ hb, hentry⟩

/-- The other members of a record do not stand under the key of an attribute. -/
theorem ne_key_of_mem_unknownMembers {attributes : List (Attribute × Shape)} {m : Members Key Value} {entry : Key × Value}
    (he : entry ∈ unknownMembers attributes m) {a : Attribute × Shape} (ha : a ∈ attributes) : entry.1 ≠ .text a.1.key := by
  intro hkey
  obtain ⟨hm, hunused⟩ := List.mem_filter.1 he
  cases hget : Members.get? m (.text a.1.key) with
  | none =>
    have := Members.get?_eq_none_iff.1 hget entry hm
    rw [hkey, BEq.rfl] at this
    cases this
  | some v =>
    have hfind : a.1.find? m = some (a.1.key, v) := by rw [Attribute.find?, hget]
    rw [hkey] at hunused
    simp only [Key.text?, Option.any_some, Bool.not_eq_true', List.contains_eq_mem, decide_eq_false_iff_not] at hunused
    exact hunused (List.mem_filterMap.2 ⟨a, ha, by rw [hfind]; rfl⟩)

theorem eq_of_key_eq {attributes : List (Attribute × Shape)} (hd : DistinctKeys attributes) {a b : Attribute × Shape}
    (ha : a ∈ attributes) (hb : b ∈ attributes) (hkey : a.1.key = b.1.key) : a = b := by
  induction attributes with
  | nil => cases ha
  | cons head rest ih =>
    obtain ⟨hne, hd⟩ := List.pairwise_cons.1 hd
    rcases List.mem_cons.1 ha with ha | ha <;> rcases List.mem_cons.1 hb with hb | hb
    · rw [ha, hb]
    · exact absurd (ha ▸ hkey) (hne b hb)
    · exact absurd (hb ▸ hkey.symm) (hne a ha)
    · exact ih hd ha hb

theorem scalar_eq_ok {α : Type} {wrap : α → Value} {x : Except Flaw α} {w : Value} :
    scalar wrap x = .ok w ↔ ∃ a, x = .ok a ∧ wrap a = w := by
  cases x <;> simp [scalar]

section
variable {s : Shape} {v w : Value}

theorem fits_oneOf_of_check {words : List String} (h : (Shape.oneOf words).check v = .ok w) : (Shape.oneOf words).Fits w := by
  cases v with
  | str s =>
    simp only [Shape.check] at h
    split at h
    · rename_i hs
      cases h
      rw [Shape.Fits]
      exact ⟨s, by simpa using hs, rfl⟩
    · simp at h
  | _ => simp [Shape.check] at h

theorem fits_flagOrText_of_check (h : Shape.flagOrText.check v = .ok w) : Shape.flagOrText.Fits w := by
  rw [Shape.Fits]
  cases v with
  | str s =>
    simp only [Shape.check] at h
    cases h
    exact .inl ⟨s, rfl⟩
  | _ =>
    simp only [Shape.check] at h
    split at h
    · cases h
      exact .inr ⟨_, rfl⟩
    · cases h

theorem fits_textOrTexts_of_check (h : Shape.textOrTexts.check v = .ok w) : Shape.textOrTexts.Fits w := by
  rw [Shape.Fits]
  cases v with
  | str s =>
    simp only [Shape.check] at h
    cases h
    exact .inl ⟨s, rfl⟩
  | list xs =>
    simp only [Shape.check] at h
    split at h
    · rename_i ys hys
      cases h
      refine .inr ⟨ys, rfl, fun y hy => ?_⟩
      obtain ⟨x, -, hx⟩ := mem_checkElements hys hy
      obtain ⟨s, -, rfl⟩ := checkText_eq_ok.1 hx
      exact ⟨s, rfl⟩
    · cases h
  | _ => simp [Shape.check] at h

/-- The elements of a canonical list fit, if canonical values of their shape do. -/
theorem fits_elements (hs : ∀ {v w : Value}, s.check v = .ok w → s.Fits w) {xs : List Value}
    (h : (checkElements s.check 0 xs).map Value.list = .ok w) : ∃ ys, w = .list ys ∧ ∀ y ∈ ys, s.Fits y := by
  obtain ⟨ys, hys, rfl⟩ := map_eq_ok.1 h
  refine ⟨ys, rfl, fun y hy => ?_⟩
  obtain ⟨x, -, hx⟩ := mem_checkElements hys hy
  exact hs hx

/-- A canonical record fits, if canonical values of its attributes do. -/
theorem fits_record_of_check {title : String} {isOpen : Bool} {attributes : List (Attribute × Shape)}
    (hd : DistinctKeys attributes) (hs : ∀ a ∈ attributes, ∀ {v w : Value}, a.2.check v = .ok w → a.2.Fits w)
    (h : (Shape.record title isOpen attributes).check v = .ok w) : (Shape.record title isOpen attributes).Fits w := by
  cases v with
  | object m =>
    simp only [Shape.check, both_eq_ok] at h
    obtain ⟨known, more, hknown, hmore, rfl⟩ := h
    have hunknown : Members.Named more ∧ ∀ entry ∈ more, entry ∈ unknownMembers attributes m := by
      split at hmore
      · exact ⟨named_checkUnknown hmore, fun entry he => by rwa [checkUnknown_eq_ok hmore] at he⟩
      · cases hmore
        exact ⟨fun _ he => absurd he List.not_mem_nil, fun _ he => absurd he List.not_mem_nil⟩
    rw [Shape.Fits]
    refine ⟨_, rfl, fun entry he => ?_, fitsAttributes_iff.2 fun a ha entry he hkey => ?_⟩
    · rcases List.mem_append.1 he with he | he
      · obtain ⟨a, -, hkey, -⟩ := mem_checkAttributes hknown he
        exact ⟨a.1.key, hkey⟩
      · exact hunknown.1 entry he
    · rcases List.mem_append.1 he with he | he
      · obtain ⟨b, hb, hkey', v, hv⟩ := mem_checkAttributes hknown he
        have hab : a = b := eq_of_key_eq hd ha hb (Key.text.inj (hkey.symm.trans hkey'))
        exact hs a ha (hab ▸ hv)
      · exact absurd hkey (ne_key_of_mem_unknownMembers (hunknown.2 entry he) ha)
  | _ => simp [Shape.check] at h

end

mutual

/-- Canonical values fit. -/
theorem fits_of_check : ∀ {s : Shape}, s.proper = true → ∀ {v w : Value}, s.check v = .ok w → s.Fits w
  | .anything, _, v, w, _ => by rw [Shape.Fits]; trivial
  | .text, _, v, w, h => by
    rw [Shape.check] at h
    obtain ⟨s, -, rfl⟩ := checkText_eq_ok.1 h
    rw [Shape.Fits]
    exact ⟨s, rfl⟩
  | .flag, _, v, w, h => by
    rw [Shape.check] at h
    obtain ⟨b, -, rfl⟩ := scalar_eq_ok.1 h
    rw [Shape.Fits]
    exact ⟨b, rfl⟩
  | .whole, _, v, w, h => by
    rw [Shape.check] at h
    obtain ⟨n, -, rfl⟩ := scalar_eq_ok.1 h
    rw [Shape.Fits]
    exact ⟨n, rfl⟩
  | .oneOf _, _, _, _, h => fits_oneOf_of_check h
  | .flagOrText, _, _, _, h => fits_flagOrText_of_check h
  | .textOrTexts, _, _, _, h => fits_textOrTexts_of_check h
  | .nullable s, hs, v, w, h => by
    rw [Shape.proper] at hs
    rw [Shape.Fits]
    rcases nullable_eq_ok.1 h with ⟨-, hw⟩ | ⟨-, hw⟩
    · exact .inl hw
    · exact .inr (fits_of_check hs hw)
  | .listOf s, hs, v, w, h => by
    rw [Shape.proper] at hs
    rw [Shape.Fits]
    cases v with
    | list xs =>
      simp only [Shape.check] at h
      exact fits_elements (fits_of_check hs) h
    | _ => simp [Shape.check] at h
  | .tupleOf s, hs, v, w, h => by
    rw [Shape.proper] at hs
    rw [Shape.Fits]
    cases v with
    | list xs =>
      simp only [Shape.check] at h
      exact fits_elements (fits_of_check hs) h
    | _ => simp [Shape.check] at h
  | .mapOf s, hs, v, w, h => by
    rw [Shape.proper] at hs
    obtain ⟨m, m', rfl, hm, rfl⟩ := mapOf_eq_ok.1 h
    rw [Shape.Fits]
    refine ⟨m', rfl, fun entry he => ?_⟩
    obtain ⟨name, v, hname, -, hv⟩ := mem_checkMembers hm he
    exact ⟨⟨name, hname⟩, fits_of_check hs hv⟩
  | .record title isOpen attributes, hs, v, w, h => by
    rw [Shape.proper, Bool.and_eq_true, decide_eq_true_iff] at hs
    exact fits_record_of_check hs.1 (fun a ha => fits_of_check_of_mem hs.2 ha) h

theorem fits_of_check_of_mem : ∀ {attributes : List (Attribute × Shape)}, Shape.properAll attributes = true →
    ∀ {a : Attribute × Shape}, a ∈ attributes → ∀ {v w : Value}, a.2.check v = .ok w → a.2.Fits w
  | (b, s) :: rest, hs, a, ha, v, w, h => by
    rw [Shape.properAll, Bool.and_eq_true] at hs
    rcases List.mem_cons.1 ha with rfl | ha
    · exact fits_of_check hs.1 h
    · exact fits_of_check_of_mem hs.2 ha h

end

/-! ## Merging -/

/-- Only objects are merged: of anything else the upper value is left. -/
theorem fits_overlay_of_merge {s : Shape}
    (h : ∀ {m m' : Members Key Value}, s.Fits (.object m) → s.Fits (.object m') → s.Fits (.object (m.overlay m')))
    {v w : Value} (hv : s.Fits v) (hw : s.Fits w) : s.Fits (Value.overlay .override v w) := by
  by_cases hobjects : ∃ m m', v = .object m ∧ w = .object m'
  · obtain ⟨m, m', rfl, rfl⟩ := hobjects
    rw [Value.overlay_object]
    exact h hv hw
  · rw [Value.overlay_override_of_not_object fun m m' hmm => hobjects ⟨m, m', hmm⟩]
    exact hw

mutual

/-- The members of a fitting object over those of a fitting one fit. -/
theorem fits_merge : ∀ {s : Shape} {m m' : Members Key Value}, s.Fits (.object m) → s.Fits (.object m') →
    s.Fits (.object (m.overlay m'))
  | .anything, m, m', _, _ => by rw [Shape.Fits]; trivial
  | .nullable s, m, m', hm, hm' => by
    simp only [Shape.Fits, reduceCtorEq, false_or] at hm hm' ⊢
    exact fits_merge hm hm'
  | .mapOf s, m, m', hm, hm' => by
    simp only [Shape.Fits, Value.object.injEq, exists_eq_left'] at hm hm' ⊢
    exact Members.forall_merge_named (fun hv => hv) (fun hv hw => fits_overlay_of_merge fits_merge hv hw) hm hm'
  | .record title isOpen attributes, m, m', hm, hm' => by
    simp only [Shape.Fits, Value.object.injEq, exists_eq_left', fitsAttributes_iff] at hm hm' ⊢
    have hall : ∀ entry ∈ m.overlay m', (∃ name, entry.1 = .text name) ∧
        ∀ a ∈ attributes, entry.1 = .text a.1.key → a.2.Fits entry.2 := by
      refine Members.forall_merge
        (P := fun key v => (∃ name, key = .text name) ∧ ∀ a ∈ attributes, key = .text a.1.key → a.2.Fits v) ?_ ?_
        (fun entry he => ⟨hm.1 entry he, fun a ha => hm.2 a ha entry he⟩)
        (fun entry he => ⟨hm'.1 entry he, fun a ha => hm'.2 a ha entry he⟩)
      · intro k k' v hk hfits
        obtain ⟨⟨name, rfl⟩, hv⟩ := hfits
        rw [Key.text_beq.1 hk]
        exact ⟨⟨name, rfl⟩, hv⟩
      · intro k v w hv hw
        exact ⟨hv.1, fun a ha hkey => fits_overlay_of_merge (fits_merge_of_mem ha) (hv.2 a ha hkey) (hw.2 a ha hkey)⟩
    exact ⟨fun entry he => (hall entry he).1, fun a ha entry he => (hall entry he).2 a ha⟩
  | .text, _, _, h, _ => by simp [Shape.Fits] at h
  | .flag, _, _, h, _ => by simp [Shape.Fits] at h
  | .whole, _, _, h, _ => by simp [Shape.Fits] at h
  | .oneOf _, _, _, h, _ => by simp [Shape.Fits] at h
  | .flagOrText, _, _, h, _ => by simp [Shape.Fits] at h
  | .textOrTexts, _, _, h, _ => by simp [Shape.Fits] at h
  | .listOf _, _, _, h, _ => by simp [Shape.Fits] at h
  | .tupleOf _, _, _, h, _ => by simp [Shape.Fits] at h

theorem fits_merge_of_mem : ∀ {attributes : List (Attribute × Shape)} {a : Attribute × Shape}, a ∈ attributes →
    ∀ {m m' : Members Key Value}, a.2.Fits (.object m) → a.2.Fits (.object m') → a.2.Fits (.object (m.overlay m'))
  | (b, s) :: rest, a, ha, m, m', hm, hm' => by
    rcases List.mem_cons.1 ha with rfl | ha
    · exact fits_merge hm hm'
    · exact fits_merge_of_mem ha hm hm'

end

/-- A fitting value over a fitting one fits. -/
theorem fits_overlay {s : Shape} {v w : Value} (hv : s.Fits v) (hw : s.Fits w) : s.Fits (Value.overlay .override v w) :=
  fits_overlay_of_merge fits_merge hv hw

/-! ## Parts of fitting values -/

section
variable {title : String} {isOpen : Bool} {attributes : List (Attribute × Shape)} {m : Members Key Value}
  {a : Attribute} {s : Shape}

theorem fits_record_nil : (Shape.record title isOpen attributes).Fits (.object []) := by
  rw [Shape.Fits]
  exact ⟨[], rfl, fun _ he => absurd he List.not_mem_nil, fitsAttributes_iff.2 fun _ _ _ he => absurd he List.not_mem_nil⟩

theorem object_of_fits_record {v : Value} (h : (Shape.record title isOpen attributes).Fits v) : ∃ m, v = .object m := by
  rw [Shape.Fits] at h
  obtain ⟨m, rfl, -⟩ := h
  exact ⟨m, rfl⟩

theorem named_of_fits (h : (Shape.record title isOpen attributes).Fits (.object m)) : Members.Named m := by
  simp only [Shape.Fits, Value.object.injEq, exists_eq_left'] at h
  exact h.1

/-- What stands under the key of an attribute of a fitting record fits the attribute. -/
theorem fits_of_mem (h : (Shape.record title isOpen attributes).Fits (.object m)) (ha : (a, s) ∈ attributes)
    {entry : Key × Value} (he : entry ∈ m) (hkey : entry.1 = .text a.key) : s.Fits entry.2 := by
  simp only [Shape.Fits, Value.object.injEq, exists_eq_left', fitsAttributes_iff] at h
  exact h.2 (a, s) ha entry he hkey

theorem fits_of_get? (h : (Shape.record title isOpen attributes).Fits (.object m)) (ha : (a, s) ∈ attributes) {v : Value}
    (hv : Members.get? m (.text a.key) = some v) : s.Fits v := by
  obtain ⟨k, hk, hm⟩ := Members.exists_of_get? hv
  exact fits_of_mem h ha hm (Key.beq_text.1 hk)

/-- An attribute that may be null is null or fits, also if it is not given. -/
theorem fits_value (h : (Shape.record title isOpen attributes).Fits (.object m)) (ha : (a, .nullable s) ∈ attributes) :
    (Shape.nullable s).Fits (m.value (.text a.key)) := by
  cases hv : Members.get? m (.text a.key) with
  | none => rw [Members.value, hv, Shape.Fits]; exact .inl rfl
  | some v => rw [Members.value_of_get? hv]; exact fits_of_get? h ha hv

end

/-! ## Types -/

/-- A record of which only the type matters. -/
def typedRecord : Shape := .record "TypedRecord" true [maybe "type" "type" .text]

theorem fits_typedRecord {m : Members Key Value} : typedRecord.Fits (.object m) ↔
    ∀ entry ∈ m, ∃ name, entry.1 = .text name ∧ (name = "type" → (Shape.nullable .text).Fits entry.2) := by
  simp only [typedRecord, maybe, Shape.Fits, Value.object.injEq, exists_eq_left', Shape.FitsAttributes, and_true]
  constructor
  · intro h entry he
    obtain ⟨hnamed, htype⟩ := h
    obtain ⟨name, hname⟩ := hnamed entry he
    exact ⟨name, hname, fun h => htype entry he (by rw [hname, h])⟩
  · intro h
    refine ⟨fun entry he => ?_, fun entry he hkey => ?_⟩
    · obtain ⟨name, hname, -⟩ := h entry he
      exact ⟨name, hname⟩
    · obtain ⟨name, hname, htype⟩ := h entry he
      exact htype (Key.text.inj (hname.symm.trans hkey))

theorem fits_typedRecord_cons {name : String} {v : Value} {m : Members Key Value} :
    typedRecord.Fits (.object ((.text name, v) :: m)) ↔
      (name = "type" → (Shape.nullable .text).Fits v) ∧ typedRecord.Fits (.object m) := by
  rw [fits_typedRecord, fits_typedRecord, List.forall_mem_cons]
  simp

theorem object_of_fits_typedRecord {v : Value} (h : typedRecord.Fits v) : ∃ m, v = .object m :=
  object_of_fits_record h

theorem fits_type {params : Members Key Value} (h : typedRecord.Fits (.object params)) :
    (Shape.nullable .text).Fits (params.value "type") :=
  fits_value (a := ⟨"type", "type", false⟩) h (by simp [maybe])

/-- A text that may be null is one if it is given. -/
theorem text_of_truthy {v : Value} (h : (Shape.nullable .text).Fits v) (hv : v.truthy = true) : ∃ s, v = .str s := by
  simp only [Shape.Fits] at h
  rcases h with rfl | h
  · cases hv
  · exact h

/-- The members of a map that may be null are given, and fit one by one. -/
theorem givenMembers_of_fits {s : Shape} {v : Value} (h : (Shape.nullable (.mapOf s)).Fits v) :
    v.givenMembers = .ok v.members ∧ ∀ entry ∈ v.members, (∃ name, entry.1 = .text name) ∧ s.Fits entry.2 := by
  simp only [Shape.Fits] at h
  rcases h with rfl | ⟨m, rfl, hm⟩
  · exact ⟨rfl, fun _ he => absurd he List.not_mem_nil⟩
  · refine ⟨?_, hm⟩
    cases m <;> rfl

theorem objects_of_fits {v : Value} (h : (Shape.nullable objects).Fits v) :
    v.givenMembers = .ok v.members ∧ v.members.Objects := by
  obtain ⟨hgiven, hm⟩ := givenMembers_of_fits h
  refine ⟨hgiven, fun entry he => ?_⟩
  obtain ⟨hname, hobject⟩ := hm entry he
  rw [anyObject, Shape.Fits] at hobject
  obtain ⟨below, hbelow, -⟩ := hobject
  exact ⟨hname, below, hbelow⟩

end Record

end EntitySchema
