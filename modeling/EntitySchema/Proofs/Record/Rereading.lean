import EntitySchema.Proofs.Record.Accepted

/-!
# Canonical values read again

A canonical value has lost nothing of the value that was read, and it is its own canonical form. In a record every attribute
that was given, under its key or under its name, stands under its key, and every other member stands as it was. Read again, the
keys are found first, so nothing that stood beside them is taken for an attribute now.

* `Unknown`: a key that gives none of the attributes of a record.
* `Shape.Keeps`: all that was read is there in a canonical value, at every depth.
* `Shape.clear`: no two attributes of a shape may be taken for one another, at every depth.

Results:
* `keeps_of_check`: a canonical value keeps all that was read.
* `check_self_of_check`: a canonical value is its own canonical form.
* `keeps_and_accepts_of_accept`: both, for every record of the catalogue.
-/
namespace EntitySchema

/-- A look-up finds the same among the members that are picked, if all members under its key are. -/
theorem Members.get?_filter_of_picked {κ α : Type} [BEq κ] {m : Members κ α} {p : κ × α → Bool} {key : κ}
    (h : ∀ entry ∈ m, (entry.1 == key) = true → p entry = true) : get? (m.filter p) key = get? m key := by
  induction m with
  | nil => rfl
  | cons entry rest ih =>
    obtain ⟨hentry, hrest⟩ := List.forall_mem_cons.1 h
    by_cases hkey : (entry.1 == key) = true
    · rw [List.filter_cons_of_pos (hentry hkey), get?_cons, get?_cons, if_pos hkey, if_pos hkey]
    · rw [List.filter_cons, get?_cons, if_neg hkey, ← ih hrest]
      split
      · rw [get?_cons, if_neg hkey]
      · rfl

namespace Record

/-! ## Keys that give no attribute -/

/-- A key that gives no attribute: it is the key of none, and the name only of attributes that stand under their keys as well. -/
def Unknown (attributes : List (Attribute × Shape)) (m : Members Key Value) (key : Key) : Prop :=
  ∀ a ∈ attributes, key ≠ .text a.1.key ∧ (key = .text a.1.name → m.contains (.text a.1.key) = true)

theorem Attribute.find?_of_contains {a : Attribute} {m : Members Key Value} (h : m.contains (.text a.key) = true) :
    ∃ v, a.find? m = some (a.key, v) := by
  obtain ⟨v, hv⟩ := Option.isSome_iff_exists.1 h
  exact ⟨v, by rw [find?, hv]⟩

theorem Attribute.find?_of_not_contains {a : Attribute} {m : Members Key Value} (h : m.contains (.text a.key) = false) :
    a.find? m = (Members.get? m (.text a.name)).map fun v => (a.name, v) := by
  rw [find?, Option.isSome_eq_false_iff.1 h |> Option.isNone_iff_eq_none.1]

section
variable {attributes : List (Attribute × Shape)} {m : Members Key Value}

/-- A text that stands among the members gives an attribute exactly if it is not unknown. -/
theorem mem_used_iff {name : String} (hname : m.contains (.text name) = true) :
    name ∈ attributes.filterMap (fun a => (a.1.find? m).map Prod.fst) ↔ ¬ Unknown attributes m (.text name) := by
  simp only [Unknown, List.mem_filterMap, not_forall, not_and_or, not_not]
  refine exists_congr fun a => ?_
  rw [exists_prop]
  refine and_congr_right fun _ => ?_
  cases hkey : m.contains (.text a.1.key) with
  | true =>
    obtain ⟨v, hv⟩ := Attribute.find?_of_contains hkey
    simp [hv, eq_comm]
  | false =>
    rw [Attribute.find?_of_not_contains hkey]
    constructor
    · intro h
      simp only [Option.map_map, Option.map_eq_some_iff, Function.comp] at h
      obtain ⟨v, -, rfl⟩ := h
      exact .inr (by simp)
    · intro h
      rcases h with h | h
      · rw [← h, hname] at hkey
        cases hkey
      · simp only [Key.text.injEq, Bool.false_eq_true, exists_prop, not_false_eq_true, and_true] at h
        obtain ⟨v, hv⟩ := Option.isSome_iff_exists.1 hname
        rw [← h, hv]
        rfl

theorem mem_unknownMembers_iff {entry : Key × Value} :
    entry ∈ unknownMembers attributes m ↔ entry ∈ m ∧ Unknown attributes m entry.1 := by
  rw [unknownMembers, List.mem_filter]
  refine and_congr_right fun hentry => ?_
  obtain ⟨key, v⟩ := entry
  cases key with
  | text name =>
    have hname : m.contains (.text name) = true := Members.contains_iff_exists.2 ⟨_, hentry, BEq.rfl⟩
    simp only [Key.text?, Option.any_some, Bool.not_eq_true', List.contains_eq_mem, decide_eq_false_iff_not,
      mem_used_iff hname, not_not]
  | _ => simp [Key.text?, Unknown]

theorem Unknown.congr {key key' : Key} (hkeys : (key' == key) = true) (h : Unknown attributes m key) :
    Unknown attributes m key' := by
  intro a ha
  cases key' with
  | text name =>
    rw [← Key.text_beq.1 hkeys]
    exact h a ha
  | _ => exact ⟨Key.noConfusion, fun hname => Key.noConfusion hname⟩

/-- What is found under a key that gives no attribute is found among the other members. -/
theorem get?_unknownMembers {key : Key} (hkey : Unknown attributes m key) :
    Members.get? (unknownMembers attributes m) key = Members.get? m key :=
  Members.get?_filter_of_picked fun _ hentry hkeys =>
    (List.mem_filter.1 (mem_unknownMembers_iff.2 ⟨hentry, hkey.congr hkeys⟩)).2

/-- Members behind attributes are the other members again, if they give no attribute there. -/
theorem unknownMembers_append {known more : Members Key Value}
    (hknown : ∀ entry ∈ known, ¬ Unknown attributes (known ++ more) entry.1)
    (hmore : ∀ entry ∈ more, Unknown attributes (known ++ more) entry.1) :
    unknownMembers attributes (known ++ more) = more := by
  have hpicked : ∀ entry ∈ known ++ more, (entry ∈ unknownMembers attributes (known ++ more) ↔
      Unknown attributes (known ++ more) entry.1) := fun entry hentry =>
    mem_unknownMembers_iff.trans ⟨And.right, fun h => ⟨hentry, h⟩⟩
  unfold unknownMembers at hpicked ⊢
  simp only [List.mem_filter] at hpicked
  rw [List.filter_append, List.filter_eq_nil_iff.2, List.filter_eq_self.2, List.nil_append]
  · intro entry hentry
    have hmem := List.mem_append_right known hentry
    exact ((hpicked entry hmem).2 (hmore entry hentry)).2
  · intro entry hentry hunknown
    have hmem := List.mem_append_left more hentry
    exact hknown entry hentry ((hpicked entry hmem).1 ⟨hmem, hunknown⟩)

end

/-! ## Nothing is lost -/

mutual

/-- All that was read is there: scalars as they are read, the elements of a list and the members of a map one by one. In a
record each attribute stands under its key exactly if it was given, a member that gives none stands as it was, and there is
nothing else. -/
def Shape.Keeps : Shape → Value → Value → Prop
  | .anything, v, w => w = v
  | .text, v, w => w = v
  | .flag, v, w => ∃ b, readFlag v = .ok b ∧ w = .bool b
  | .whole, v, w => ∃ n, readWhole v = .ok n ∧ w = .int n
  | .oneOf _, v, w => w = v
  | .flagOrText, v, w => (∃ s, v = .str s ∧ w = v) ∨ ∃ b, readFlag v = .ok b ∧ w = .bool b
  | .textOrTexts, v, w => w = v
  | .nullable s, v, w => v = .null ∧ w = .null ∨ s.Keeps v w
  | .listOf s, v, w => ∃ xs ys, v = .list xs ∧ w = .list ys ∧ List.Forall₂ s.Keeps xs ys
  | .tupleOf s, v, w => ∃ xs ys, v = .list xs ∧ w = .list ys ∧ List.Forall₂ s.Keeps xs ys
  | .mapOf s, v, w => ∃ m m', v = .object m ∧ w = .object m' ∧
      ∀ key, Option.Rel s.Keeps (Members.get? m key) (Members.get? m' key)
  | .record _ _ attributes, v, w => ∃ m m', v = .object m ∧ w = .object m' ∧ Shape.KeepsAttributes attributes m m' ∧
      (∀ key, Unknown attributes m key → Members.get? m' key = Members.get? m key) ∧
      ∀ entry ∈ m', (∃ a ∈ attributes, entry.1 = .text a.1.key) ∨ Unknown attributes m entry.1

def Shape.KeepsAttributes : List (Attribute × Shape) → Members Key Value → Members Key Value → Prop
  | [], _, _ => True
  | (a, s) :: rest, m, m' =>
    Option.Rel s.Keeps (a.given? m) (Members.get? m' (.text a.key)) ∧ Shape.KeepsAttributes rest m m'

end

mutual

/-- No two attributes of a shape may be taken for one another, at every depth: they have different keys, and none has the key of
another one for its name. Every record keeps its other members. -/
def Shape.clear : Shape → Bool
  | .nullable s => s.clear
  | .listOf s => s.clear
  | .tupleOf s => s.clear
  | .mapOf s => s.clear
  | .record title isOpen attributes =>
    isOpen && decide (DistinctKeys attributes) && decide (Shape.record title isOpen attributes).NamesApart &&
      Shape.clearAll attributes
  | _ => true

def Shape.clearAll : List (Attribute × Shape) → Bool
  | [] => true
  | (_, s) :: rest => s.clear && Shape.clearAll rest

end

section
variable {s : Shape} {v w : Value}

theorem keepsAttributes_iff {attributes : List (Attribute × Shape)} {m m' : Members Key Value} :
    Shape.KeepsAttributes attributes m m' ↔
      ∀ a ∈ attributes, Option.Rel a.2.Keeps (a.1.given? m) (Members.get? m' (.text a.1.key)) := by
  induction attributes with
  | nil => simp [Shape.KeepsAttributes]
  | cons a rest ih => simp only [Shape.KeepsAttributes, ih, List.forall_mem_cons]

/-- Truth values and texts that may stand for each other are read as they were written. -/
theorem keeps_flagOrText_of_check (h : Shape.flagOrText.check v = .ok w) : Shape.flagOrText.Keeps v w := by
  rw [Shape.Keeps]
  rcases flagOrText_eq_ok.1 h with ⟨s, rfl, rfl⟩ | ⟨-, b, hb, rfl⟩
  · exact .inl ⟨s, rfl, rfl⟩
  · exact .inr ⟨b, hb, rfl⟩

/-- The elements of a canonical list are those that were read, one by one. -/
theorem forall₂_of_checkElements {check : Value → Except (List Fault) Value} {n : Nat} {xs ys : List Value}
    (h : checkElements check n xs = .ok ys) : List.Forall₂ (fun x y => check x = .ok y) xs ys := by
  induction xs generalizing n ys with
  | nil => cases h; exact .nil
  | cons x rest ih =>
    simp only [checkElements, both_eq_ok, under_eq_ok] at h
    obtain ⟨y, ys, hy, hys, rfl⟩ := h
    exact .cons hy (ih hys)

theorem eq_of_textOrTexts_check (h : Shape.textOrTexts.check v = .ok w) : w = v := by
  cases v with
  | str s =>
    simp only [Shape.check] at h
    cases h
    rfl
  | list xs =>
    simp only [Shape.check] at h
    split at h
    · rename_i ys hys
      cases h
      have hsame : List.Forall₂ (fun x y => x = y) xs ys := (forall₂_of_checkElements hys).imp fun x y hxy => by
        obtain ⟨s, rfl, rfl⟩ := checkText_eq_ok.1 hxy
        rfl
      rw [List.forall₂_eq_eq_eq] at hsame
      rw [hsame]
    · cases h
  | _ => simp [Shape.check] at h

theorem eq_of_oneOf_check {words : List String} (h : (Shape.oneOf words).check v = .ok w) : w = v := by
  cases v with
  | str s =>
    simp only [Shape.check] at h
    split at h
    · cases h; rfl
    · simp at h
  | _ => simp [Shape.check] at h

/-- A canonical list keeps all that was read, if canonical values of its elements do. -/
theorem keeps_elements (hs : ∀ {v w : Value}, s.check v = .ok w → s.Keeps v w) {xs : List Value}
    (h : (checkElements s.check 0 xs).map Value.list = .ok w) : ∃ ys, w = .list ys ∧ List.Forall₂ s.Keeps xs ys := by
  obtain ⟨ys, hys, rfl⟩ := map_eq_ok.1 h
  exact ⟨ys, rfl, (forall₂_of_checkElements hys).imp fun _ _ => hs⟩

/-- A canonical record keeps all that was read, if canonical values of its attributes do. -/
theorem keeps_record_of_check {title : String} {attributes : List (Attribute × Shape)}
    (hd : DistinctKeys attributes) (hs : ∀ a ∈ attributes, ∀ {v w : Value}, a.2.check v = .ok w → a.2.Keeps v w)
    (h : (Shape.record title true attributes).check v = .ok w) : (Shape.record title true attributes).Keeps v w := by
  have hrecord : (Shape.record title true attributes).IsRecord := ⟨title, rfl, hd⟩
  obtain ⟨m, known, rfl, hknown, rfl⟩ := record_eq_ok hrecord h
  rw [Shape.Keeps]
  refine ⟨m, _, rfl, rfl, keepsAttributes_iff.2 fun a ha => ?_, fun key hkey => ?_, fun entry hentry => ?_⟩
  · exact Members.rel_imp (fun _ _ => hs a ha) (get?_record hrecord h ha)
  · have hnone : Members.get? known key = none := by
      refine Members.get?_eq_none_iff.2 fun entry hentry => ?_
      obtain ⟨a, ha, hname, -⟩ := mem_checkAttributes hknown hentry
      rw [← Bool.not_eq_true, hname, Key.text_beq]
      exact fun hkey' => (hkey a ha).1 hkey'
    rw [Members.get?_append, hnone, Option.none_or]
    exact get?_unknownMembers hkey
  · rcases List.mem_append.1 hentry with hentry | hentry
    · obtain ⟨a, ha, hname, -⟩ := mem_checkAttributes hknown hentry
      exact .inl ⟨a, ha, hname⟩
    · exact .inr (mem_unknownMembers_iff.1 hentry).2

end

mutual

/-- A canonical value keeps all that was read. -/
theorem keeps_of_check : ∀ {s : Shape}, s.clear = true → ∀ {v w : Value}, s.check v = .ok w → s.Keeps v w
  | .anything, _, v, w, h => by
    rw [Shape.check] at h
    rw [Shape.Keeps]
    exact (Except.ok.inj h).symm
  | .text, _, v, w, h => by
    rw [Shape.check] at h
    obtain ⟨s, rfl, rfl⟩ := checkText_eq_ok.1 h
    rw [Shape.Keeps]
  | .flag, _, v, w, h => by
    rw [Shape.check] at h
    obtain ⟨b, hb, rfl⟩ := scalar_eq_ok.1 h
    rw [Shape.Keeps]
    exact ⟨b, hb, rfl⟩
  | .whole, _, v, w, h => by
    rw [Shape.check] at h
    obtain ⟨n, hn, rfl⟩ := scalar_eq_ok.1 h
    rw [Shape.Keeps]
    exact ⟨n, hn, rfl⟩
  | .oneOf _, _, _, _, h => by
    rw [Shape.Keeps]
    exact eq_of_oneOf_check h
  | .flagOrText, _, _, _, h => keeps_flagOrText_of_check h
  | .textOrTexts, _, _, _, h => by
    rw [Shape.Keeps]
    exact eq_of_textOrTexts_check h
  | .nullable s, hs, v, w, h => by
    rw [Shape.clear] at hs
    rw [Shape.Keeps]
    rcases nullable_eq_ok.1 h with ⟨hv, hw⟩ | ⟨-, hw⟩
    · exact .inl ⟨hv, hw⟩
    · exact .inr (keeps_of_check hs hw)
  | .listOf s, hs, v, w, h => by
    rw [Shape.clear] at hs
    rw [Shape.Keeps]
    cases v with
    | list xs =>
      simp only [Shape.check] at h
      obtain ⟨ys, rfl, hys⟩ := keeps_elements (keeps_of_check hs) h
      exact ⟨xs, ys, rfl, rfl, hys⟩
    | _ => simp [Shape.check] at h
  | .tupleOf s, hs, v, w, h => by
    rw [Shape.clear] at hs
    rw [Shape.Keeps]
    cases v with
    | list xs =>
      simp only [Shape.check] at h
      obtain ⟨ys, rfl, hys⟩ := keeps_elements (keeps_of_check hs) h
      exact ⟨xs, ys, rfl, rfl, hys⟩
    | _ => simp [Shape.check] at h
  | .mapOf s, hs, v, w, h => by
    rw [Shape.clear] at hs
    obtain ⟨m, m', rfl, hm, rfl⟩ := mapOf_eq_ok.1 h
    rw [Shape.Keeps]
    exact ⟨m, m', rfl, rfl, fun key => Members.rel_imp (fun _ _ => keeps_of_check hs) (get?_checkMembers hm key)⟩
  | .record title isOpen attributes, hs, v, w, h => by
    simp only [Shape.clear, Bool.and_eq_true, decide_eq_true_iff] at hs
    obtain ⟨⟨⟨rfl, hd⟩, -⟩, hall⟩ := hs
    exact keeps_record_of_check hd (fun a ha => keeps_of_check_of_mem hall ha) h

theorem keeps_of_check_of_mem : ∀ {attributes : List (Attribute × Shape)}, Shape.clearAll attributes = true →
    ∀ {a : Attribute × Shape}, a ∈ attributes → ∀ {v w : Value}, a.2.check v = .ok w → a.2.Keeps v w
  | (b, s) :: rest, hs, a, ha, v, w, h => by
    rw [Shape.clearAll, Bool.and_eq_true] at hs
    rcases List.mem_cons.1 ha with rfl | ha
    · exact keeps_of_check hs.1 h
    · exact keeps_of_check_of_mem hs.2 ha h

end

/-! ## Read again -/

/-- A list of values that are their own canonical form. -/
theorem checkElements_self {check : Value → Except (List Fault) Value} {ys : List Value}
    (h : ∀ y ∈ ys, check y = .ok y) (n : Nat) : checkElements check n ys = .ok ys := by
  induction ys generalizing n with
  | nil => rfl
  | cons y rest ih =>
    obtain ⟨hy, hrest⟩ := List.forall_mem_cons.1 h
    rw [checkElements, both_eq_ok]
    exact ⟨y, rest, under_eq_ok.2 hy, ih hrest (n + 1), rfl⟩

/-- Members under texts whose values are their own canonical form. -/
theorem checkMembers_self {check : Value → Except (List Fault) Value} {m : Members Key Value}
    (h : ∀ entry ∈ m, (∃ name, entry.1 = .text name) ∧ check entry.2 = .ok entry.2) : checkMembers check m = .ok m := by
  induction m with
  | nil => rfl
  | cons entry rest ih =>
    obtain ⟨⟨⟨name, hname⟩, hv⟩, hrest⟩ := List.forall_mem_cons.1 h
    obtain ⟨key, v⟩ := entry
    cases hname
    exact checkMembers_cons_eq_ok.2 ⟨name, v, rest, rfl, hv, ih hrest, rfl⟩

section
variable {s : Shape} {v w : Value}

theorem flagOrText_check_self (h : Shape.flagOrText.check v = .ok w) : Shape.flagOrText.check w = .ok w := by
  rcases flagOrText_eq_ok.1 h with ⟨s, -, rfl⟩ | ⟨-, b, -, rfl⟩
  · exact flagOrText_eq_ok.2 (.inl ⟨s, rfl, rfl⟩)
  · exact flagOrText_eq_ok.2 (.inr ⟨fun _ => Value.noConfusion, b, readFlag_bool b, rfl⟩)

/-- The elements of a canonical list are read again as they are, if canonical values of their shape are. -/
theorem elements_check_self (hs : ∀ {v w : Value}, s.check v = .ok w → s.check w = .ok w) {xs : List Value}
    (h : (checkElements s.check 0 xs).map Value.list = .ok w) :
    ∃ ys, w = .list ys ∧ (checkElements s.check 0 ys).map Value.list = .ok (.list ys) := by
  obtain ⟨ys, hys, rfl⟩ := map_eq_ok.1 h
  refine ⟨ys, rfl, map_eq_ok.2 ⟨ys, checkElements_self (fun y hy => ?_) 0, rfl⟩⟩
  obtain ⟨x, -, hx⟩ := mem_checkElements hys hy
  exact hs hx

theorem mapOf_check_self (hs : ∀ {v w : Value}, s.check v = .ok w → s.check w = .ok w)
    (h : (Shape.mapOf s).check v = .ok w) : (Shape.mapOf s).check w = .ok w := by
  obtain ⟨m, m', rfl, hm, rfl⟩ := mapOf_eq_ok.1 h
  refine mapOf_eq_ok.2 ⟨m', m', rfl, checkMembers_self fun entry hentry => ?_, rfl⟩
  obtain ⟨name, v, hname, -, hv⟩ := mem_checkMembers hm hentry
  exact ⟨⟨name, hname⟩, hs hv⟩

end

/-! ### Records -/

section
variable {a : Attribute} {s : Shape} {rest attributes : List (Attribute × Shape)} {m m' known : Members Key Value}

theorem checkAttributes_cons_of_given {v w : Value} (hgiven : a.given? m = some v) (hw : s.check v = .ok w)
    (hrest : Shape.checkAttributes rest m = .ok known) :
    Shape.checkAttributes ((a, s) :: rest) m = .ok ((.text a.key, w) :: known) := by
  obtain ⟨⟨key, _⟩, hfind, rfl⟩ := Option.map_eq_some_iff.1 hgiven
  rw [Shape.checkAttributes, hfind]
  exact both_eq_ok.2 ⟨w, known, under_eq_ok.2 hw, hrest, rfl⟩

theorem checkAttributes_cons_of_not_given (hgiven : a.given? m = none) (hrequired : a.required = false)
    (hrest : Shape.checkAttributes rest m = .ok known) : Shape.checkAttributes ((a, s) :: rest) m = .ok known := by
  rw [Shape.checkAttributes, Option.map_eq_none_iff.1 hgiven]
  simpa [hrequired] using hrest

/-- Attributes that are given as their canonical forms are read as these, and in the same order. -/
theorem checkAttributes_self (h : Shape.checkAttributes attributes m = .ok known)
    (hgiven : ∀ a ∈ attributes, Option.Rel (fun v w => a.2.check v = .ok w) (a.1.given? m) (a.1.given? m'))
    (hself : ∀ a ∈ attributes, ∀ {v w : Value}, a.2.check v = .ok w → a.2.check w = .ok w) :
    Shape.checkAttributes attributes m' = .ok known := by
  have hrequired := checkAttributes_isOk_iff.1 ⟨known, h⟩
  induction attributes generalizing known with
  | nil => rw [Shape.checkAttributes] at h ⊢; exact h
  | cons head rest ih =>
    obtain ⟨a, s⟩ := head
    obtain ⟨hhead, hgiven⟩ := List.forall_mem_cons.1 hgiven
    obtain ⟨hs, hself⟩ := List.forall_mem_cons.1 hself
    obtain ⟨ha, hrequired⟩ := List.forall_mem_cons.1 hrequired
    obtain ⟨known', hrest, hcases⟩ := checkAttributes_cons_eq_ok h
    have hrest' := ih hrest hgiven hself hrequired
    rcases hcases with ⟨hnone, rfl⟩ | ⟨v, w, hv, hw, rfl⟩
    · rw [hnone] at hhead
      rw [AcceptedIn, hnone] at ha
      exact checkAttributes_cons_of_not_given (Members.rel_none_left.1 hhead) ha hrest'
    · rw [hv] at hhead
      obtain ⟨_, hagain, hw'⟩ := Members.rel_some_left.1 hhead
      cases hw.symm.trans hw'
      exact checkAttributes_cons_of_given hagain (hs hw) hrest'

theorem Attribute.given?_eq_none_iff :
    a.given? m = none ↔ Members.get? m (.text a.key) = none ∧ Members.get? m (.text a.name) = none := by
  unfold given? find?
  cases Members.get? m (.text a.key) <;> simp

/-- An attribute that was not given has neither its key nor its name in a canonical record. -/
theorem given?_record_none (hs : s.IsRecord) (hnames : s.NamesApart) {w : Value} (h : s.check (.object m) = .ok w) {t : Shape}
    (ha : (a, t) ∈ s.attributes) (hgiven : a.given? m = none) : a.given? w.members = none := by
  have hkey : Members.get? w.members (.text a.key) = none := by
    have hrel := get?_record hs h ha
    rw [hgiven] at hrel
    exact Members.rel_none_left.1 hrel
  refine Attribute.given?_eq_none_iff.2 ⟨hkey, ?_⟩
  by_cases hother : ∃ b ∈ s.attributes, b.1.key = a.name
  · -- a name that is a key is the key of the attribute itself
    obtain ⟨b, hb, hname⟩ := hother
    rw [← hname, ← hnames (a, t) ha b hb hname.symm]
    exact hkey
  · obtain ⟨_, known, hm, hknown, rfl⟩ := record_eq_ok hs h
    cases hm
    rw [Value.members_object, Members.get?_append,
      get?_checkAttributes_none hknown fun b hb hname => hother ⟨b, hb, hname⟩, Option.none_or]
    have hnone := (Attribute.given?_eq_none_iff.1 hgiven).2
    exact Members.get?_eq_none_iff.2 fun entry hentry =>
      Members.get?_eq_none_iff.1 hnone entry (mem_unknownMembers_iff.1 hentry).1

/-- In a canonical record the attributes that were given are given as their canonical forms. -/
theorem given?_record (hs : s.IsRecord) (hnames : s.NamesApart) {w : Value} (h : s.check (.object m) = .ok w) {t : Shape}
    (ha : (a, t) ∈ s.attributes) : Option.Rel (fun v w => t.check v = .ok w) (a.given? m) (a.given? w.members) := by
  have hrel := get?_record hs h ha
  cases hgiven : a.given? m with
  | some v =>
    rw [hgiven] at hrel
    obtain ⟨_, hget, hw⟩ := Members.rel_some_left.1 hrel
    rw [Attribute.given?_of_get? hget]
    exact .some hw
  | none =>
    rw [given?_record_none hs hnames h ha hgiven]
    exact .none

/-- The other members of a canonical record are those that were read. -/
theorem unknownMembers_record (hknown : Shape.checkAttributes attributes m = .ok known) (hd : DistinctKeys attributes) :
    unknownMembers attributes (known ++ unknownMembers attributes m) = unknownMembers attributes m := by
  refine unknownMembers_append (fun entry hentry hunknown => ?_) fun entry hentry a ha => ?_
  · obtain ⟨a, ha, hname, -⟩ := mem_checkAttributes hknown hentry
    exact (hunknown a ha).1 hname
  · obtain ⟨hkey, hname⟩ := (mem_unknownMembers_iff.1 hentry).2 a ha
    refine ⟨hkey, fun hentry => ?_⟩
    -- the attribute was given under its key
    obtain ⟨v, hv⟩ := Option.isSome_iff_exists.1 (hname hentry)
    have hrel := get?_checkAttributes hknown hd ha
    rw [Attribute.given?_of_get? hv] at hrel
    obtain ⟨_, hget, -⟩ := Members.rel_some_left.1 hrel
    rw [Members.contains, Members.get?_append, hget]
    rfl

/-- A record whose attributes are read and whose keys are texts is read. -/
theorem record_check_of_named (hs : s.IsRecord) (hknown : Shape.checkAttributes s.attributes m = .ok known)
    (hnamed : Members.Named m) : s.check (.object m) = .ok (.object (known ++ unknownMembers s.attributes m)) := by
  obtain ⟨title, hrecord, -⟩ := hs
  obtain ⟨more, hmore⟩ := checkUnknown_isOk_iff.2 (named_unknownMembers_iff.2 hnamed)
  cases checkUnknown_eq_ok hmore
  have hchecked : (Shape.record title true s.attributes).check (.object m) =
      .ok (.object (known ++ unknownMembers s.attributes m)) := by
    simp only [Shape.check, if_true, both_eq_ok]
    exact ⟨known, _, hknown, hmore, rfl⟩
  rwa [← hrecord] at hchecked

/-- A canonical record is its own canonical form, if the canonical values of its attributes are. -/
theorem record_check_self (hs : s.IsRecord) (hnames : s.NamesApart)
    (hself : ∀ a ∈ s.attributes, ∀ {v w : Value}, a.2.check v = .ok w → a.2.check w = .ok w) {v w : Value}
    (h : s.check v = .ok w) : s.check w = .ok w := by
  obtain ⟨m, known, rfl, hknown, rfl⟩ := record_eq_ok hs h
  have hagain : Shape.checkAttributes s.attributes (known ++ unknownMembers s.attributes m) = .ok known :=
    checkAttributes_self hknown (fun _ ha => given?_record hs hnames h ha) hself
  have hnamed : Members.Named (known ++ unknownMembers s.attributes m) := by
    intro entry hentry
    rcases List.mem_append.1 hentry with hentry | hentry
    · obtain ⟨a, -, hname, -⟩ := mem_checkAttributes hknown hentry
      exact ⟨_, hname⟩
    · exact ((accepts_record_iff hs).1 ⟨_, h⟩).1 entry (mem_unknownMembers_iff.1 hentry).1
  have hunknown := unknownMembers_record hknown hs.choose_spec.2
  rw [record_check_of_named hs hagain hnamed, hunknown]

end

mutual

/-- A canonical value is its own canonical form. -/
theorem check_self_of_check : ∀ {s : Shape}, s.clear = true → ∀ {v w : Value}, s.check v = .ok w → s.check w = .ok w
  | .anything, _, _, w, _ => by rw [Shape.check]
  | .text, _, v, w, h => by
    rw [Shape.check] at h ⊢
    obtain ⟨s, -, rfl⟩ := checkText_eq_ok.1 h
    rfl
  | .flag, _, v, w, h => by
    rw [Shape.check] at h ⊢
    obtain ⟨b, -, rfl⟩ := scalar_eq_ok.1 h
    exact scalar_eq_ok.2 ⟨b, readFlag_bool b, rfl⟩
  | .whole, _, v, w, h => by
    rw [Shape.check] at h ⊢
    obtain ⟨n, -, rfl⟩ := scalar_eq_ok.1 h
    exact scalar_eq_ok.2 ⟨n, readWhole_int n, rfl⟩
  | .oneOf _, _, _, _, h => by
    cases eq_of_oneOf_check h
    exact h
  | .flagOrText, _, _, _, h => flagOrText_check_self h
  | .textOrTexts, _, _, _, h => by
    cases eq_of_textOrTexts_check h
    exact h
  | .nullable s, hs, v, w, h => by
    rw [Shape.clear] at hs
    rcases nullable_eq_ok.1 h with ⟨-, rfl⟩ | ⟨-, hw⟩
    · exact nullable_eq_ok.2 (.inl ⟨rfl, rfl⟩)
    · by_cases hnull : w = .null
      · exact nullable_eq_ok.2 (.inl ⟨hnull, hnull⟩)
      · exact nullable_eq_ok.2 (.inr ⟨hnull, check_self_of_check hs hw⟩)
  | .listOf s, hs, v, w, h => by
    rw [Shape.clear] at hs
    cases v with
    | list xs =>
      simp only [Shape.check] at h
      obtain ⟨ys, rfl, hys⟩ := elements_check_self (check_self_of_check hs) h
      simpa only [Shape.check] using hys
    | _ => simp [Shape.check] at h
  | .tupleOf s, hs, v, w, h => by
    rw [Shape.clear] at hs
    cases v with
    | list xs =>
      simp only [Shape.check] at h
      obtain ⟨ys, rfl, hys⟩ := elements_check_self (check_self_of_check hs) h
      simpa only [Shape.check] using hys
    | _ => simp [Shape.check] at h
  | .mapOf s, hs, _, _, h => by
    rw [Shape.clear] at hs
    exact mapOf_check_self (check_self_of_check hs) h
  | .record title isOpen attributes, hs, v, w, h => by
    simp only [Shape.clear, Bool.and_eq_true, decide_eq_true_iff] at hs
    obtain ⟨⟨⟨rfl, hd⟩, hnames⟩, hall⟩ := hs
    have hrecord : (Shape.record title true attributes).IsRecord := ⟨title, rfl, hd⟩
    exact record_check_self hrecord hnames (fun a ha => check_self_of_check_of_mem hall ha) h

theorem check_self_of_check_of_mem : ∀ {attributes : List (Attribute × Shape)}, Shape.clearAll attributes = true →
    ∀ {a : Attribute × Shape}, a ∈ attributes → ∀ {v w : Value}, a.2.check v = .ok w → a.2.check w = .ok w
  | (b, s) :: rest, hs, a, ha, v, w, h => by
    rw [Shape.clearAll, Bool.and_eq_true] at hs
    rcases List.mem_cons.1 ha with rfl | ha
    · exact check_self_of_check hs.1 h
    · exact check_self_of_check_of_mem hs.2 ha h

end

/-! ## The catalogue -/

theorem accept_eq_ok {s : Shape} {title : String} {v w : Value} : s.accept title v = .ok w ↔ s.check v = .ok w := by
  unfold Shape.accept
  cases s.check v <;> simp

theorem clear_of_mem_catalog : ∀ e ∈ catalog, e.shape.clear = true := by
  decide

/-- Of what is accepted nothing is lost, and the canonical form is accepted again as it is. -/
theorem keeps_and_accepts_of_accept {e : Entry} (he : e ∈ catalog) {v w : Value} (h : e.accept v = .ok w) :
    e.shape.Keeps v w ∧ e.accept w = .ok w := by
  have hclear := clear_of_mem_catalog e he
  have hw := accept_eq_ok.1 h
  exact ⟨keeps_of_check hclear hw, accept_eq_ok.2 (check_self_of_check hclear hw)⟩

/-- An entity that gives attributes under either name and under both, flags and lengths in other words, and members of its
own. -/
def loosely : Value :=
  .object [("skip_rebuild", .str "yes"), ("label", .list [.str "Account"]),
    ("fields", .object [("code", .object [("db_type", .str "text"), ("dbType", .str "varchar"), ("len", .str "12"),
      ("unique", .int 1), ("audited", .object [("by", .null)])])])]

/-- The canonical form of `loosely`. -/
def strictly : Value :=
  .object [("fields", .object [("code", .object [("dbType", .str "varchar"), ("len", .int 12), ("unique", .bool true),
      ("db_type", .str "text"), ("audited", .object [("by", .null)])])]),
    ("skipRebuild", .bool true), ("label", .list [.str "Account"])]

theorem keeps_and_accepts_of_accept_loosely : ∃ e ∈ catalog,
    e.accept loosely = .ok strictly ∧ e.shape.Keeps loosely strictly ∧ e.accept strictly = .ok strictly := by
  have he : ⟨"EntityDefinition", entityDefinition⟩ ∈ catalog := by simp [catalog]
  have h : entityDefinition.accept "EntityDefinition" loosely = .ok strictly := rfl
  exact ⟨_, he, h, keeps_and_accepts_of_accept he h⟩

end Record

end EntitySchema
