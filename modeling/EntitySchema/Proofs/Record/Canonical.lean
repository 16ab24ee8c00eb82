import EntitySchema.Proofs.Members
import EntitySchema.Proofs.Value.Access
import EntitySchema.Record.Catalog

/-!
# Canonical values

What an accepted value and its canonical form have in common, place by place. A canonical map has the keys of the map that
was read, and under each of them the canonical form of what stood there. A canonical record has under the key of an attribute
the canonical form of what the attribute was given as.

Results:
* `get?_checkMembers`, `mapOf_eq_ok`: the members of a canonical map.
* `get?_record`: the attributes of a canonical record.
-/
namespace EntitySchema.Record

/-! ## Parts of a check -/

theorem both_eq_ok {α β γ : Type} {f : α → β → γ} {x : Except (List Fault) α} {y : Except (List Fault) β} {c : γ} :
    both f x y = .ok c ↔ ∃ a b, x = .ok a ∧ y = .ok b ∧ f a b = c := by
  cases x <;> cases y <;> simp [both]

@[simp] theorem under_eq_ok {α : Type} {step : Segment} {x : Except (List Fault) α} {a : α} :
    under step x = .ok a ↔ x = .ok a := by
  cases x <;> simp [under]

@[simp] theorem flawed_ne_ok {α : Type} {flaw : Flaw} {a : α} : flawed flaw ≠ .ok a := by
  simp [flawed]

theorem checkText_eq_ok {v w : Value} : checkText v = .ok w ↔ ∃ s, v = .str s ∧ w = .str s := by
  cases v <;> simp [checkText, flawed, eq_comm]

theorem ofKey_eq_str {key : Key} {s : String} : Value.ofKey key = .str s ↔ key = .text s := by
  cases key <;> simp [Value.ofKey]

theorem checkMembers_cons_eq_ok {check : Value → Except (List Fault) Value} {key : Key} {v : Value}
    {rest m' : Members Key Value} :
    checkMembers check ((key, v) :: rest) = .ok m' ↔
      ∃ name w rest', key = .text name ∧ check v = .ok w ∧ checkMembers check rest = .ok rest' ∧
        m' = (.text name, w) :: rest' := by
  simp only [checkMembers, both_eq_ok, under_eq_ok, checkText_eq_ok, ofKey_eq_str]
  constructor
  · intro h
    obtain ⟨entry, rest', ⟨-, w, ⟨name, rfl, -⟩, hw, rfl⟩, hrest, rfl⟩ := h
    exact ⟨name, w, rest', rfl, hw, hrest, rfl⟩
  · intro h
    obtain ⟨name, w, rest', rfl, hw, hrest, rfl⟩ := h
    exact ⟨(.text name, w), rest', ⟨.str name, w, ⟨name, rfl, rfl⟩, hw, rfl⟩, hrest, rfl⟩

/-- A canonical map has the members that were read, each in canonical form. -/
theorem get?_checkMembers {check : Value → Except (List Fault) Value} {m m' : Members Key Value}
    (h : checkMembers check m = .ok m') (key : Key) :
    Option.Rel (fun v w => check v = .ok w) (Members.get? m key) (Members.get? m' key) := by
  induction m generalizing m' with
  | nil => cases h; exact .none
  | cons entry rest ih =>
    obtain ⟨k, v⟩ := entry
    obtain ⟨name, w, rest', rfl, hw, hrest, rfl⟩ := checkMembers_cons_eq_ok.1 h
    rw [Members.get?_cons, Members.get?_cons]
    split
    · exact .some hw
    · exact ih hrest

/-- Every member of a canonical map is the canonical form of one under the same name. -/
theorem mem_checkMembers {check : Value → Except (List Fault) Value} {m m' : Members Key Value}
    (h : checkMembers check m = .ok m') {entry : Key × Value} (hm : entry ∈ m') :
    ∃ name v, entry.1 = .text name ∧ (.text name, v) ∈ m ∧ check v = .ok entry.2 := by
  induction m generalizing m' with
  | nil => cases h; cases hm
  | cons head rest ih =>
    obtain ⟨k, v⟩ := head
    obtain ⟨name, w, rest', rfl, hw, hrest, rfl⟩ := checkMembers_cons_eq_ok.1 h
    rcases List.mem_cons.1 hm with rfl | hm
    · exact ⟨name, v, rfl, List.mem_cons_self, hw⟩
    · obtain ⟨name', v', h1, h2, h3⟩ := ih hrest hm
      exact ⟨name', v', h1, List.mem_cons_of_mem _ h2, h3⟩

theorem mapOf_eq_ok {s : Shape} {v w : Value} :
    (Shape.mapOf s).check v = .ok w ↔ ∃ m m', v = .object m ∧ checkMembers s.check m = .ok m' ∧ w = .object m' := by
  cases v <;> simp [Shape.check, Except.map]
  rename_i m
  cases checkMembers s.check m <;> simp [eq_comm]

theorem nullable_eq_ok {s : Shape} {v w : Value} :
    (Shape.nullable s).check v = .ok w ↔ v = .null ∧ w = .null ∨ v ≠ .null ∧ s.check v = .ok w := by
  cases v <;> simp [Shape.check, Value.isNull, eq_comm]

/-- A flag that may be a text is that text, or the truth value that is read. -/
theorem flagOrText_eq_ok {v w : Value} : Shape.flagOrText.check v = .ok w ↔
    (∃ s, v = .str s ∧ w = .str s) ∨ (∀ s, v ≠ .str s) ∧ ∃ b, readFlag v = .ok b ∧ w = .bool b := by
  cases v with
  | str s => simp [Shape.check, eq_comm]
  | _ =>
    rw [Shape.check]
    · split
      · rename_i b hb
        simp [hb, eq_comm]
      · rename_i flaw hflaw
        simp [hflaw]
    · exact fun s => Value.noConfusion

/-! ## Records -/

theorem checkUnknown_eq_ok {m m' : Members Key Value} (h : checkUnknown m = .ok m') : m' = m := by
  induction m generalizing m' with
  | nil => cases h; rfl
  | cons entry rest ih =>
    obtain ⟨k, v⟩ := entry
    simp only [checkUnknown, both_eq_ok] at h
    obtain ⟨entry, rest', he, hrest, rfl⟩ := h
    cases k with
    | text s => cases he; rw [ih hrest]
    | _ => simp at he

/-- What an attribute is given as. -/
def Attribute.given? (a : Attribute) (m : Members Key Value) : Option Value :=
  (a.find? m).map Prod.snd

theorem Attribute.given?_congr {a : Attribute} {m m' : Members Key Value}
    (hkey : Members.get? m (.text a.key) = Members.get? m' (.text a.key))
    (hname : Members.get? m (.text a.name) = Members.get? m' (.text a.name)) : a.given? m = a.given? m' := by
  unfold given? find?
  rw [hkey, hname]

/-- An attribute whose name is its key is given under that key only. -/
theorem Attribute.given?_of_name_eq_key {a : Attribute} (h : a.name = a.key) (m : Members Key Value) :
    a.given? m = Members.get? m a.key := by
  unfold given? find?
  rw [h]
  cases hm : Members.get? m a.key <;> simp

theorem Attribute.given?_of_get? {a : Attribute} {m : Members Key Value} {v : Value} (h : Members.get? m a.key = some v) :
    a.given? m = some v := by
  unfold given? find?
  rw [h]; rfl

theorem Attribute.get?_of_given?_none {a : Attribute} {m : Members Key Value} (h : a.given? m = none) :
    Members.get? m a.key = none := by
  cases hm : Members.get? m a.key with
  | none => rfl
  | some v => rw [given?_of_get? hm] at h; cases h

/-- The attributes of a record have different keys. -/
def DistinctKeys (attributes : List (Attribute × Shape)) : Prop :=
  attributes.Pairwise fun a b => a.1.key ≠ b.1.key

instance (attributes : List (Attribute × Shape)) : Decidable (DistinctKeys attributes) :=
  inferInstanceAs (Decidable (List.Pairwise _ _))

theorem checkAttributes_cons_eq_ok {a : Attribute} {s : Shape} {rest : List (Attribute × Shape)} {m known : Members Key Value}
    (h : Shape.checkAttributes ((a, s) :: rest) m = .ok known) :
    ∃ known', Shape.checkAttributes rest m = .ok known' ∧
      ((a.given? m = none ∧ known = known') ∨
        ∃ v w, a.given? m = some v ∧ s.check v = .ok w ∧ known = (.text a.key, w) :: known') := by
  rw [Shape.checkAttributes] at h
  unfold Attribute.given?
  cases hf : a.find? m with
  | none =>
    rw [hf] at h
    simp only at h
    split at h
    · simp [both_eq_ok] at h
    · exact ⟨known, h, .inl ⟨rfl, rfl⟩⟩
  | some found =>
    obtain ⟨key, v⟩ := found
    rw [hf] at h
    simp only [both_eq_ok, under_eq_ok] at h
    obtain ⟨w, known', hw, hrest, rfl⟩ := h
    exact ⟨known', hrest, .inr ⟨v, w, rfl, hw, rfl⟩⟩

theorem get?_checkAttributes_none {attributes : List (Attribute × Shape)} {m known : Members Key Value}
    (h : Shape.checkAttributes attributes m = .ok known) {key : String} (hk : ∀ a ∈ attributes, a.1.key ≠ key) :
    Members.get? known (.text key) = none := by
  induction attributes generalizing known with
  | nil => rw [Shape.checkAttributes] at h; cases h; rfl
  | cons entry rest ih =>
    obtain ⟨a, s⟩ := entry
    obtain ⟨known', hrest, ⟨-, rfl⟩ | ⟨v, w, -, -, rfl⟩⟩ := checkAttributes_cons_eq_ok h
    · exact ih hrest fun b hb => hk b (List.mem_cons_of_mem _ hb)
    · rw [Members.get?_cons, if_neg]
      · exact ih hrest fun b hb => hk b (List.mem_cons_of_mem _ hb)
      · simpa using hk (a, s) List.mem_cons_self

theorem get?_checkAttributes {attributes : List (Attribute × Shape)} {m known : Members Key Value}
    (h : Shape.checkAttributes attributes m = .ok known) (hd : DistinctKeys attributes) {a : Attribute} {s : Shape}
    (ha : (a, s) ∈ attributes) :
    Option.Rel (fun v w => s.check v = .ok w) (a.given? m) (Members.get? known (.text a.key)) := by
  induction attributes generalizing known with
  | nil => cases ha
  | cons entry rest ih =>
    obtain ⟨b, t⟩ := entry
    obtain ⟨hne, hd⟩ := List.pairwise_cons.1 hd
    obtain ⟨known', hrest, hb⟩ := checkAttributes_cons_eq_ok h
    rcases List.mem_cons.1 ha with ha | ha
    · cases ha
      have hnone : Members.get? known' (.text a.key) = none :=
        get?_checkAttributes_none hrest fun c hc => (hne c hc).symm
      rcases hb with ⟨hg, rfl⟩ | ⟨v, w, hg, hw, rfl⟩
      · rw [hg, hnone]; exact .none
      · rw [hg, Members.get?_cons, if_pos (by simp)]; exact .some hw
    · rcases hb with ⟨-, rfl⟩ | ⟨v, w, -, -, rfl⟩
      · exact ih hrest hd ha
      · rw [Members.get?_cons, if_neg]
        · exact ih hrest hd ha
        · simpa using hne (a, s) ha

/-- The attributes of a record. -/
def Shape.attributes : Shape → List (Attribute × Shape)
  | .record _ _ attributes => attributes
  | _ => []

/-- An open record whose attributes have different keys. -/
def Shape.IsRecord (s : Shape) : Prop :=
  ∃ title, s = .record title true s.attributes ∧ DistinctKeys s.attributes

theorem isRecord_compiledEntity : compiledEntity.IsRecord := ⟨_, rfl, by decide⟩

theorem isRecord_compiledRelation : compiledRelation.IsRecord := ⟨_, rfl, by decide⟩

theorem isRecord_compiledField : compiledField.IsRecord := ⟨_, rfl, by decide⟩

section
variable {s : Shape}

theorem record_eq_ok (hs : s.IsRecord) {v w : Value} (h : s.check v = .ok w) :
    ∃ m known, v = .object m ∧ Shape.checkAttributes s.attributes m = .ok known ∧
      w = .object (known ++ unknownMembers s.attributes m) := by
  obtain ⟨title, hs, -⟩ := hs
  rw [hs] at h
  cases v with
  | object m =>
    simp only [Shape.check, if_true, both_eq_ok] at h
    obtain ⟨known, more, hk, hm, rfl⟩ := h
    exact ⟨m, known, rfl, hk, by rw [checkUnknown_eq_ok hm]⟩
  | _ => simp [Shape.check] at h

/-- A canonical record has under the key of an attribute the canonical form of what the attribute is given as. -/
theorem get?_record (hs : s.IsRecord) {m : Members Key Value} {w : Value} (h : s.check (.object m) = .ok w) {a : Attribute}
    {t : Shape} (ha : (a, t) ∈ s.attributes) :
    Option.Rel (fun v w => t.check v = .ok w) (a.given? m) (Members.get? w.members (.text a.key)) := by
  obtain ⟨_, known, hm, hk, rfl⟩ := record_eq_ok hs h
  cases hm
  obtain ⟨-, -, hd⟩ := hs
  have hrel := get?_checkAttributes hk hd ha
  show Option.Rel _ _ (Members.get? (known ++ unknownMembers s.attributes m) _)
  rw [Members.get?_append]
  cases hg : a.given? m with
  | some v =>
    rw [hg] at hrel
    obtain ⟨_, hfound, hw⟩ := Members.rel_some_left.1 hrel
    rw [hfound, Option.some_or]
    exact .some hw
  | none =>
    rw [hg] at hrel
    -- the key of an attribute that is not given stands among the other members neither
    have : Members.get? (unknownMembers s.attributes m) (.text a.key) = none := by
      refine Members.get?_eq_none_iff.2 fun entry he => ?_
      exact Members.get?_eq_none_iff.1 (Attribute.get?_of_given?_none hg) entry (List.mem_filter.1 he).1
    rw [Members.rel_none_left.1 hrel, Option.none_or, this]
    exact .none

/-- A shape of which a text is the canonical form of itself only. -/
def Shape.TakesText (t : Shape) : Prop :=
  ∀ v text, t.check v = .ok (.str text) ↔ v = .str text

theorem takesText_text : Shape.text.TakesText := by
  intro v text
  rw [Shape.check, checkText_eq_ok]
  exact ⟨fun ⟨t, hv, ht⟩ => by cases ht; exact hv, fun hv => ⟨text, hv, rfl⟩⟩

theorem takesText_anything : Shape.anything.TakesText := by
  intro v text
  rw [Shape.check, Except.ok.injEq]

theorem takesText_flagOrText : Shape.flagOrText.TakesText := by
  intro v text
  rw [flagOrText_eq_ok]
  constructor
  · intro h
    rcases h with ⟨s, rfl, hs⟩ | ⟨-, b, -, hb⟩
    · exact hs.symm
    · cases hb
  · intro h
    exact .inl ⟨text, h, rfl⟩

theorem takesText_nullable {t : Shape} (ht : t.TakesText) : (Shape.nullable t).TakesText := by
  intro v text
  rw [nullable_eq_ok, ht v text]
  constructor
  · intro h
    rcases h with ⟨-, h⟩ | ⟨-, h⟩
    · cases h
    · exact h
  · intro h
    subst h
    exact .inr ⟨Value.noConfusion, rfl⟩

/-- An attribute that takes texts is a text in a canonical record exactly if it is given as that text. -/
theorem get?_record_eq_str (hs : s.IsRecord) {m : Members Key Value} {w : Value} (h : s.check (.object m) = .ok w)
    {a : Attribute} {t : Shape} (ha : (a, t) ∈ s.attributes) (ht : t.TakesText) (text : String) :
    Members.get? w.members (.text a.key) = some (.str text) ↔ a.given? m = some (.str text) := by
  have hrel := get?_record hs h ha
  generalize a.given? m = given at hrel ⊢
  generalize Members.get? w.members (.text a.key) = found at hrel ⊢
  cases hrel with
  | none => simp
  | some hv =>
    rw [Option.some.injEq, Option.some.injEq]
    constructor
    · intro h
      subst h
      exact (ht _ _).1 hv
    · intro h
      subst h
      rw [(ht _ text).2 rfl] at hv
      cases hv
      rfl

end

/-! ## Relations -/

section
variable {m : Members Key Value} {w : Value}

theorem type_of_relation (h : compiledRelation.check (.object m) = .ok w) {kind : String} :
    w.members.value "type" = .str kind ↔ m.value "type" = .str kind := by
  have hmem : (⟨"type", "type", true⟩, Shape.text) ∈ compiledRelation.attributes := by
    simp [compiledRelation, Shape.attributes, required]
  have hget := get?_record_eq_str isRecord_compiledRelation h hmem takesText_text kind
  rwa [Attribute.given?_of_name_eq_key rfl, ← Members.value_eq_str, ← Members.value_eq_str] at hget

/-- A relation that is written with a name under the key keeps that name. -/
theorem relationName_of_relation (h : compiledRelation.check (.object m) = .ok w) {name : String}
    (hname : m.value "relationName" = .str name) : w.members.value "relationName" = .str name := by
  have hmem : (⟨"relation_name", "relationName", false⟩, Shape.nullable .text) ∈ compiledRelation.attributes := by
    simp [compiledRelation, Shape.attributes, required, maybe]
  have hget := get?_record_eq_str isRecord_compiledRelation h hmem (takesText_nullable takesText_text) name
  exact Members.value_eq_str.2 (hget.2 (Attribute.given?_of_get? (Members.value_eq_str.1 hname)))

end

end EntitySchema.Record
