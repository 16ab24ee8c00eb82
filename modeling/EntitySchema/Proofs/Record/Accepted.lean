import EntitySchema.Proofs.Record.Fits

/-!
# Values that are accepted

A shape accepts a value that has a canonical form. Of a record it matters only that its keys are texts and what each attribute
is given as, so an accepted record stays accepted when attributes are laid over it under their keys, if what becomes of each of
them is accepted.

* `Shape.Accepts`: a value that has a canonical form.
* `Shape.NamesApart`: no attribute has the key of another one for its name.

Results:
* `accepts_nullable_iff`, `accepts_listOf_iff`, `accepts_mapOf_iff`, `accepts_record_iff`: what is accepted, part by part.
* `accepts_of_given`: a record that gives its attributes as an accepted one does.
* `accepts_overlay`: attributes laid over an accepted record.
-/
namespace EntitySchema

/-- Keys are texts if everything that is found stands under a text. -/
theorem Members.named_iff {α : Type} {m : Members Key α} :
    Members.Named m ↔ ∀ key v, Members.get? m key = some v → ∃ name, key = .text name := by
  constructor
  · intro h key v hv
    obtain ⟨k, hk, hmem⟩ := Members.exists_of_get? hv
    obtain ⟨name, rfl⟩ := h _ hmem
    exact ⟨name, Key.text_beq.1 hk⟩
  · intro h entry hentry
    cases hget : Members.get? m entry.1 with
    | some v => exact h entry.1 v hget
    | none =>
      have hne := Members.get?_eq_none_iff.1 hget entry hentry
      rw [BEq.rfl] at hne
      cases hne

theorem Members.Named.set {α : Type} {m : Members Key α} (h : Members.Named m) (name : String) (v : α) :
    Members.Named (m.set (.text name) v) := by
  intro entry hentry
  rcases Members.mem_set hentry with hentry | ⟨hkey, -⟩
  · exact h entry hentry
  · exact ⟨name, Key.beq_text.1 hkey⟩

namespace Record

/-- A value that has a canonical form. -/
def Shape.Accepts (s : Shape) (v : Value) : Prop :=
  ∃ w, s.check v = .ok w

theorem accept_isOk_iff {s : Shape} {title : String} {v : Value} : (∃ w, s.accept title v = .ok w) ↔ s.Accepts v := by
  unfold Shape.accept Shape.Accepts
  cases s.check v <;> simp

/-! ## Scalars -/

theorem accepts_anything (v : Value) : Shape.anything.Accepts v :=
  ⟨v, by rw [Shape.check]⟩

theorem accepts_text_iff {v : Value} : Shape.text.Accepts v ↔ ∃ s, v = .str s := by
  unfold Shape.Accepts
  simp only [Shape.check, checkText_eq_ok]
  constructor
  · intro h
    obtain ⟨-, s, hv, -⟩ := h
    exact ⟨s, hv⟩
  · intro h
    obtain ⟨s, hv⟩ := h
    exact ⟨.str s, s, hv, rfl⟩

theorem accepts_text (s : String) : Shape.text.Accepts (.str s) :=
  accepts_text_iff.2 ⟨s, rfl⟩

theorem accepts_flag (b : Bool) : Shape.flag.Accepts (.bool b) :=
  ⟨.bool b, by rw [Shape.check, readFlag_bool, scalar]⟩

theorem accepts_whole (n : Int) : Shape.whole.Accepts (.int n) :=
  ⟨.int n, by rw [Shape.check, readWhole_int, scalar]⟩

/-! ## Parts -/

section
variable {s : Shape} {v : Value}

theorem accepts_nullable_iff : (Shape.nullable s).Accepts v ↔ v = .null ∨ s.Accepts v := by
  constructor
  · intro h
    obtain ⟨w, hw⟩ := h
    rcases nullable_eq_ok.1 hw with ⟨hv, -⟩ | ⟨-, hw⟩
    · exact .inl hv
    · exact .inr ⟨w, hw⟩
  · intro h
    by_cases hv : v = .null
    · exact ⟨.null, nullable_eq_ok.2 (.inl ⟨hv, rfl⟩)⟩
    · obtain ⟨w, hw⟩ := h.resolve_left hv
      exact ⟨w, nullable_eq_ok.2 (.inr ⟨hv, hw⟩)⟩

theorem both_isOk_iff {α β γ : Type} {f : α → β → γ} {x : Except (List Fault) α} {y : Except (List Fault) β} :
    (∃ c, both f x y = .ok c) ↔ (∃ a, x = .ok a) ∧ ∃ b, y = .ok b := by
  simp only [both_eq_ok]
  constructor
  · intro h
    obtain ⟨-, a, b, ha, hb, -⟩ := h
    exact ⟨⟨a, ha⟩, b, hb⟩
  · intro h
    obtain ⟨⟨a, ha⟩, b, hb⟩ := h
    exact ⟨f a b, a, b, ha, hb, rfl⟩

theorem checkElements_isOk_iff {n : Nat} {xs : List Value} :
    (∃ ys, checkElements s.check n xs = .ok ys) ↔ ∀ x ∈ xs, s.Accepts x := by
  induction xs generalizing n with
  | nil => exact ⟨fun _ _ hx => absurd hx List.not_mem_nil, fun _ => ⟨[], rfl⟩⟩
  | cons x rest ih =>
    simp only [checkElements, both_isOk_iff, under_eq_ok, ih, List.forall_mem_cons]
    rfl

theorem accepts_listOf_iff : (Shape.listOf s).Accepts v ↔ ∃ xs, v = .list xs ∧ ∀ x ∈ xs, s.Accepts x := by
  constructor
  · intro h
    obtain ⟨w, hw⟩ := h
    cases v with
    | list xs =>
      rw [Shape.check] at hw
      obtain ⟨ys, hys, -⟩ := map_eq_ok.1 hw
      exact ⟨xs, rfl, checkElements_isOk_iff.1 ⟨ys, hys⟩⟩
    | _ => simp [Shape.check] at hw
  · intro h
    obtain ⟨xs, rfl, hxs⟩ := h
    obtain ⟨ys, hys⟩ := checkElements_isOk_iff.2 hxs
    exact ⟨.list ys, by rw [Shape.check, hys]; rfl⟩

theorem checkMembers_isOk_iff {m : Members Key Value} :
    (∃ m', checkMembers s.check m = .ok m') ↔ ∀ entry ∈ m, (∃ name, entry.1 = .text name) ∧ s.Accepts entry.2 := by
  induction m with
  | nil => exact ⟨fun _ _ he => absurd he List.not_mem_nil, fun _ => ⟨[], rfl⟩⟩
  | cons entry rest ih =>
    obtain ⟨key, v⟩ := entry
    rw [List.forall_mem_cons, ← ih]
    simp only [checkMembers_cons_eq_ok]
    constructor
    · intro h
      obtain ⟨-, name, w, rest', hkey, hw, hrest, -⟩ := h
      exact ⟨⟨⟨name, hkey⟩, w, hw⟩, rest', hrest⟩
    · intro h
      obtain ⟨⟨⟨name, hkey⟩, w, hw⟩, rest', hrest⟩ := h
      exact ⟨_, name, w, rest', hkey, hw, hrest, rfl⟩

theorem accepts_mapOf_iff : (Shape.mapOf s).Accepts v ↔
    ∃ m, v = .object m ∧ ∀ entry ∈ m, (∃ name, entry.1 = .text name) ∧ s.Accepts entry.2 := by
  constructor
  · intro h
    obtain ⟨w, hw⟩ := h
    obtain ⟨m, m', rfl, hm, -⟩ := mapOf_eq_ok.1 hw
    exact ⟨m, rfl, checkMembers_isOk_iff.1 ⟨m', hm⟩⟩
  · intro h
    obtain ⟨m, rfl, hm⟩ := h
    obtain ⟨m', hm'⟩ := checkMembers_isOk_iff.2 hm
    exact ⟨.object m', mapOf_eq_ok.2 ⟨m, m', rfl, hm', rfl⟩⟩

/-- The members of an accepted map that may be null are accepted one by one, under names. -/
theorem accepts_members (h : (Shape.nullable (.mapOf s)).Accepts v) {entry : Key × Value} (hentry : entry ∈ v.members) :
    (∃ name, entry.1 = .text name) ∧ s.Accepts entry.2 := by
  rcases accepts_nullable_iff.1 h with rfl | h
  · cases hentry
  · obtain ⟨m, rfl, hm⟩ := accepts_mapOf_iff.1 h
    exact hm entry hentry

/-- An accepted list of texts is one already. -/
theorem fits_texts (h : (Shape.nullable texts).Accepts v) : (Shape.nullable texts).Fits v := by
  rw [texts, accepts_nullable_iff, accepts_listOf_iff] at h
  simp only [accepts_text_iff] at h
  simpa only [texts, Shape.Fits] using h

end

/-! ## Records -/

/-- An attribute is given as a value that its shape accepts, or may be left out. -/
def AcceptedIn (m : Members Key Value) (a : Attribute × Shape) : Prop :=
  match a.1.given? m with
  | some v => a.2.Accepts v
  | none => a.1.required = false

theorem checkAttributes_isOk_iff {attributes : List (Attribute × Shape)} {m : Members Key Value} :
    (∃ known, Shape.checkAttributes attributes m = .ok known) ↔ ∀ a ∈ attributes, AcceptedIn m a := by
  induction attributes with
  | nil => exact ⟨fun _ _ ha => absurd ha List.not_mem_nil, fun _ => ⟨[], by rw [Shape.checkAttributes]⟩⟩
  | cons head rest ih =>
    obtain ⟨a, s⟩ := head
    rw [List.forall_mem_cons, ← ih, Shape.checkAttributes, AcceptedIn, Attribute.given?]
    cases a.find? m with
    | some found => simp only [Option.map_some, both_isOk_iff, under_eq_ok]; rfl
    | none => cases hrequired : a.required <;> simp [both_isOk_iff]

theorem checkUnknown_isOk_iff {m : Members Key Value} : (∃ m', checkUnknown m = .ok m') ↔ Members.Named m := by
  induction m with
  | nil => exact ⟨fun _ _ he => absurd he List.not_mem_nil, fun _ => ⟨[], rfl⟩⟩
  | cons entry rest ih =>
    obtain ⟨key, v⟩ := entry
    unfold Members.Named at ih ⊢
    rw [List.forall_mem_cons, ← ih]
    cases key with
    | text name => simp only [checkUnknown, both_isOk_iff, Except.ok.injEq, exists_eq', Key.text.injEq]
    | _ => simp [checkUnknown, both_isOk_iff]

/-- Only texts are the key or the name of an attribute. -/
theorem named_unknownMembers_iff {attributes : List (Attribute × Shape)} {m : Members Key Value} :
    Members.Named (unknownMembers attributes m) ↔ Members.Named m := by
  constructor
  · intro h entry hentry
    by_cases hname : ∃ name, entry.1 = .text name
    · exact hname
    · refine h entry (List.mem_filter.2 ⟨hentry, ?_⟩)
      obtain ⟨key, v⟩ := entry
      cases key with
      | text name => exact absurd ⟨name, rfl⟩ hname
      | _ => rfl
  · exact fun h entry hentry => h entry (List.mem_of_mem_filter hentry)

section
variable {s : Shape} {m m' upper : Members Key Value}

theorem accepts_record_iff (hs : s.IsRecord) :
    s.Accepts (.object m) ↔ Members.Named m ∧ ∀ a ∈ s.attributes, AcceptedIn m a := by
  obtain ⟨title, hrecord, -⟩ := hs
  unfold Shape.Accepts
  rw [hrecord, Shape.check, if_pos rfl, both_isOk_iff, checkAttributes_isOk_iff, checkUnknown_isOk_iff,
    named_unknownMembers_iff, and_comm]
  rfl

/-- An accepted record is an object. -/
theorem object_of_accepts (hs : s.IsRecord) {v : Value} (h : s.Accepts v) : ∃ m, v = .object m := by
  obtain ⟨w, hw⟩ := h
  obtain ⟨m, -, hv, -⟩ := record_eq_ok hs hw
  exact ⟨m, hv⟩

/-- What stands under the key of an attribute of an accepted record is accepted. -/
theorem accepts_of_get? (hs : s.IsRecord) (h : s.Accepts (.object m)) {a : Attribute} {t : Shape} (ha : (a, t) ∈ s.attributes)
    {v : Value} (hv : Members.get? m (.text a.key) = some v) : t.Accepts v := by
  have hgiven := ((accepts_record_iff hs).1 h).2 _ ha
  rw [AcceptedIn, Attribute.given?_of_get? hv] at hgiven
  exact hgiven

/-- An attribute that may be null is null or accepted, also if it is not given. -/
theorem accepts_value (hs : s.IsRecord) (h : s.Accepts (.object m)) {a : Attribute} {t : Shape}
    (ha : (a, .nullable t) ∈ s.attributes) : (Shape.nullable t).Accepts (m.value (.text a.key)) := by
  cases hv : Members.get? m (.text a.key) with
  | none => rw [Members.value, hv]; exact accepts_nullable_iff.2 (.inl rfl)
  | some v => rw [Members.value_of_get? hv]; exact accepts_of_get? hs h ha hv

/-- A record that gives its attributes as an accepted one does is accepted, and so is one that gives some of them otherwise. -/
theorem accepts_of_given (hs : s.IsRecord) (h : s.Accepts (.object m)) (hnamed : Members.Named m')
    (hgiven : ∀ a ∈ s.attributes, a.1.given? m' = a.1.given? m ∨
      ∃ v, Members.get? m' (.text a.1.key) = some v ∧ a.2.Accepts v) : s.Accepts (.object m') := by
  obtain ⟨-, haccepted⟩ := (accepts_record_iff hs).1 h
  refine (accepts_record_iff hs).2 ⟨hnamed, fun a ha => ?_⟩
  rcases hgiven a ha with hsame | ⟨v, hv, haccepts⟩
  · rw [AcceptedIn, hsame]
    exact haccepted a ha
  · rw [AcceptedIn, Attribute.given?_of_get? hv]
    exact haccepts

/-- Of a record it does not matter in which order its members stand. -/
theorem accepts_congr (hs : s.IsRecord) (hget : ∀ key, Members.get? m' key = Members.get? m key)
    (h : s.Accepts (.object m)) : s.Accepts (.object m') := by
  refine accepts_of_given hs h (Members.named_iff.2 fun key v hv => ?_) fun a _ => ?_
  · exact Members.named_iff.1 ((accepts_record_iff hs).1 h).1 key v ((hget key).symm.trans hv)
  · exact .inl (Attribute.given?_congr (hget _) (hget _))

/-- No attribute has the key of another one for its name. -/
def Shape.NamesApart (s : Shape) : Prop :=
  ∀ a ∈ s.attributes, ∀ b ∈ s.attributes, a.1.name = b.1.key → a.1.key = b.1.key

instance (s : Shape) : Decidable s.NamesApart :=
  inferInstanceAs (Decidable (∀ a ∈ s.attributes, ∀ b ∈ s.attributes, a.1.name = b.1.key → a.1.key = b.1.key))

theorem namesApart_compiledField : compiledField.NamesApart := by decide

theorem namesApart_compiledEntity : compiledEntity.NamesApart := by decide

/-- Attributes under their keys over an accepted record give an accepted one, if what becomes of each of them is accepted. -/
theorem accepts_overlay (hs : s.IsRecord) (hnames : s.NamesApart) (hd : Members.Distinct upper) (h : s.Accepts (.object m))
    (hupper : ∀ key v, Members.get? upper key = some v → ∃ a ∈ s.attributes, key = .text a.1.key ∧
      a.2.Accepts (Members.mergedAt .override m key v)) : s.Accepts (.object (m.overlay upper)) := by
  have hnamed : Members.Named (m.overlay upper) := by
    refine Members.named_iff.2 fun key w hw => ?_
    cases hkey : Members.get? upper key with
    | some v =>
      obtain ⟨a, -, rfl, -⟩ := hupper key v hkey
      exact ⟨a.1.key, rfl⟩
    | none =>
      rw [Members.get?_overlay _ hd, hkey] at hw
      exact Members.named_iff.1 ((accepts_record_iff hs).1 h).1 key w hw
  refine accepts_of_given hs h hnamed fun a ha => ?_
  cases hkey : Members.get? upper (.text a.1.key) with
  | some v =>
    obtain ⟨b, hb, hsame, haccepts⟩ := hupper _ v hkey
    obtain ⟨-, -, hdistinct⟩ := hs
    obtain rfl : a = b := eq_of_key_eq hdistinct ha hb (Key.text.inj hsame)
    exact .inr ⟨_, Members.get?_merge_of_some hd hkey, haccepts⟩
  | none =>
    refine .inl (Attribute.given?_congr (Members.get?_merge_of_none hkey) (Members.get?_merge_of_none ?_))
    -- under its name nothing is laid over either: that would be an attribute of the same key
    cases hname : Members.get? upper (.text a.1.name) with
    | none => rfl
    | some v =>
      obtain ⟨b, hb, hsame, -⟩ := hupper _ v hname
      rw [hnames a ha b hb (Key.text.inj hsame), ← hsame, hname] at hkey
      cases hkey

end

end Record

end EntitySchema
