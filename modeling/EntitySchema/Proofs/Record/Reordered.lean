import EntitySchema.Proofs.Record.Accepted
import EntitySchema.Proofs.Value.Reordered

/-!
# Canonical forms up to the order of keys

A check does not see in which order the members of a map stand, apart from the order of its answer: a map in which the same is
found under every key is accepted as well, and its canonical form is the same up to the order of keys. So it is with a record of
which one attribute was written in another order.

* `Shape.ReadsAlike`: a value that is accepted along with another one, and read as the same up to the order of keys.

Results:
* `readsAlike_mapOf`: maps of which the same is found.
* `readsAlike_record`: records of which the same is given.
* `readsAlike_set`: a record with one attribute that is read alike.
-/
namespace EntitySchema

/-- A value that is put under a key that is there already gives no other key. -/
theorem Members.contains_set_of_get? {κ α : Type} [BEq κ] [EquivBEq κ] {m : Members κ α} {key : κ} {v : α}
    (h : Members.get? m key = some v) (w : α) (other : κ) : (m.set key w).contains other = m.contains other := by
  rw [Members.contains_set]
  by_cases hkey : (key == other) = true
  · rw [hkey, Bool.true_or, Members.contains, ← Members.get?_congr hkey, h]
    rfl
  · rw [Bool.eq_false_iff.2 hkey, Bool.false_or]

namespace Record

/-- If a shape accepts the first value, it accepts the second, and reads it as the same up to the order of keys. -/
def Shape.ReadsAlike (s : Shape) (v v' : Value) : Prop :=
  ∀ w, s.check v = .ok w → ∃ w', s.check v' = .ok w' ∧ w.Reordered w'

theorem Shape.ReadsAlike.refl (s : Shape) (v : Value) : s.ReadsAlike v v :=
  fun w hw => ⟨w, hw, .refl w⟩

section
variable {s : Shape} {v v' w w' : Value}

theorem Shape.ReadsAlike.accepts (h : s.ReadsAlike v v') (hv : s.Accepts v) : s.Accepts v' := by
  obtain ⟨w, hw⟩ := hv
  obtain ⟨w', hw', -⟩ := h w hw
  exact ⟨w', hw'⟩

theorem Shape.ReadsAlike.reordered (h : s.ReadsAlike v v') (hw : s.check v = .ok w) (hw' : s.check v' = .ok w') :
    w.Reordered w' := by
  obtain ⟨_, hsame, hreordered⟩ := h w hw
  cases hsame.symm.trans hw'
  exact hreordered

end

/-! ## Maps -/

theorem keys_checkMembers {check : Value → Except (List Fault) Value} {m m' : Members Key Value}
    (h : checkMembers check m = .ok m') : m'.keys = m.keys := by
  induction m generalizing m' with
  | nil => cases h; rfl
  | cons entry rest ih =>
    obtain ⟨key, v⟩ := entry
    obtain ⟨name, w, rest', rfl, -, hrest, rfl⟩ := checkMembers_cons_eq_ok.1 h
    exact congrArg (Key.text name :: ·) (ih hrest)

theorem named_checkMembers {check : Value → Except (List Fault) Value} {m m' : Members Key Value}
    (h : checkMembers check m = .ok m') : Members.Named m' := by
  intro entry hentry
  obtain ⟨name, -, hname, -, -⟩ := mem_checkMembers h hentry
  exact ⟨name, hname⟩

section
variable {s : Shape} {m m' : Members Key Value}

/-- Maps of which what is found under every key is read alike. -/
theorem readsAlike_mapOf (hd : Members.Distinct m) (hd' : Members.Distinct m')
    (h : ∀ key, Option.Rel s.ReadsAlike (Members.get? m key) (Members.get? m' key)) :
    (Shape.mapOf s).ReadsAlike (.object m) (.object m') := by
  intro w hw
  obtain ⟨_, known, hm, hknown, rfl⟩ := mapOf_eq_ok.1 hw
  cases hm
  have haccepted := checkMembers_isOk_iff.1 ⟨known, hknown⟩
  obtain ⟨known', hknown'⟩ : ∃ known', checkMembers s.check m' = .ok known' := by
    refine checkMembers_isOk_iff.2 fun entry hentry => ?_
    have hrel := h entry.1
    rw [Members.get?_of_mem hd' hentry] at hrel
    obtain ⟨_, hget, halike⟩ := Members.rel_some_right.1 hrel
    obtain ⟨k, hk, hmem⟩ := Members.exists_of_get? hget
    obtain ⟨⟨name, rfl⟩, hv⟩ := haccepted _ hmem
    exact ⟨⟨name, Key.text_beq.1 hk⟩, halike.accepts hv⟩
  refine ⟨.object known', mapOf_eq_ok.2 ⟨m', known', rfl, hknown', rfl⟩, ?_⟩
  refine .of_get? (Members.distinct_of_keys_eq (keys_checkMembers hknown) hd)
    (Members.distinct_of_keys_eq (keys_checkMembers hknown') hd') (named_checkMembers hknown) (named_checkMembers hknown')
    fun key => ?_
  have hrel := h key
  have hread := get?_checkMembers hknown key
  have hread' := get?_checkMembers hknown' key
  generalize Members.get? m key = before at hrel hread
  generalize Members.get? m' key = before' at hrel hread'
  generalize Members.get? known key = after at hread ⊢
  generalize Members.get? known' key = after' at hread' ⊢
  cases hrel with
  | none => cases hread; cases hread'; exact .none
  | some halike =>
    cases hread with
    | some hw =>
      cases hread' with
      | some hw' => exact .some (halike.reordered hw hw')

/-- Maps in which the same is found under every key. -/
theorem readsAlike_mapOf_of_get? (hd : Members.Distinct m) (hd' : Members.Distinct m')
    (h : ∀ key, Members.get? m key = Members.get? m' key) : (Shape.mapOf s).ReadsAlike (.object m) (.object m') := by
  refine readsAlike_mapOf hd hd' fun key => ?_
  rw [h key]
  cases Members.get? m' key with
  | none => exact .none
  | some v => exact .some (.refl s v)

end

/-! ## Records -/

section
variable {s : Shape} {m m' : Members Key Value}

/-- An attribute that is given alike is accepted as before. -/
theorem acceptedIn_of_given {a : Attribute × Shape} (hgiven : Option.Rel a.2.ReadsAlike (a.1.given? m) (a.1.given? m'))
    (h : AcceptedIn m a) : AcceptedIn m' a := by
  unfold AcceptedIn at h ⊢
  generalize a.1.given? m = given at hgiven h
  generalize a.1.given? m' = given' at hgiven ⊢
  cases hgiven with
  | none => exact h
  | some halike => exact halike.accepts h

/-- Attributes that are given alike are read one by one as the same up to the order of keys. -/
theorem reordered_checkAttributes {attributes : List (Attribute × Shape)} {known known' : Members Key Value}
    (hgiven : ∀ a ∈ attributes, Option.Rel a.2.ReadsAlike (a.1.given? m) (a.1.given? m'))
    (h : Shape.checkAttributes attributes m = .ok known) (h' : Shape.checkAttributes attributes m' = .ok known') :
    known.keys = known'.keys ∧ List.Forall₂ Value.Reordered known.values known'.values := by
  induction attributes generalizing known known' with
  | nil =>
    rw [Shape.checkAttributes] at h h'
    cases h
    cases h'
    exact ⟨rfl, .nil⟩
  | cons head rest ih =>
    obtain ⟨a, t⟩ := head
    obtain ⟨hrel, hgiven⟩ := List.forall_mem_cons.1 hgiven
    obtain ⟨more, hmore, hone⟩ := checkAttributes_cons_eq_ok h
    obtain ⟨more', hmore', hone'⟩ := checkAttributes_cons_eq_ok h'
    obtain ⟨hkeys, hvalues⟩ := ih hgiven hmore hmore'
    -- the attribute is given on both sides or on none
    rcases hone with ⟨hg, rfl⟩ | ⟨v, w, hg, hw, rfl⟩ <;> rcases hone' with ⟨hg', rfl⟩ | ⟨v', w', hg', hw', rfl⟩ <;>
      rw [hg, hg'] at hrel <;> cases hrel
    · exact ⟨hkeys, hvalues⟩
    · rename_i halike
      exact ⟨congrArg (Key.text a.key :: ·) hkeys, .cons (halike.reordered hw hw') hvalues⟩

/-- Records that give their attributes alike and have the same other members. -/
theorem readsAlike_record (hs : s.IsRecord) (hgiven : ∀ a ∈ s.attributes, Option.Rel a.2.ReadsAlike (a.1.given? m) (a.1.given? m'))
    (hunknown : unknownMembers s.attributes m' = unknownMembers s.attributes m) : s.ReadsAlike (.object m) (.object m') := by
  intro w hw
  obtain ⟨_, known, hm, hknown, rfl⟩ := record_eq_ok hs hw
  cases hm
  obtain ⟨hnamed, haccepted⟩ := (accepts_record_iff hs).1 ⟨_, hw⟩
  have hnamed' : Members.Named m' := by
    rwa [← @named_unknownMembers_iff s.attributes, hunknown, named_unknownMembers_iff]
  obtain ⟨w', hw'⟩ : s.Accepts (.object m') :=
    (accepts_record_iff hs).2 ⟨hnamed', fun a ha => acceptedIn_of_given (hgiven a ha) (haccepted a ha)⟩
  obtain ⟨_, known', hm', hknown', rfl⟩ := record_eq_ok hs hw'
  cases hm'
  obtain ⟨hkeys, hvalues⟩ := reordered_checkAttributes hgiven hknown hknown'
  refine ⟨_, hw', .object (.refl _) ?_ ?_⟩
  · rw [Members.keys, Members.keys, List.map_append, List.map_append, hunknown]
    exact congrArg (· ++ _) hkeys
  · rw [Members.values, Members.values, List.map_append, List.map_append, hunknown]
    exact List.rel_append hvalues (List.forall₂_same.2 fun v _ => .refl v)

/-- Which of its keys an attribute is given under. -/
theorem fst_find? (a : Attribute) (m : Members Key Value) :
    (a.find? m).map Prod.fst = if m.contains (.text a.key) then some a.key else
      if m.contains (.text a.name) then some a.name else none := by
  unfold Attribute.find? Members.contains
  cases Members.get? m (.text a.key) with
  | some v => rfl
  | none => cases Members.get? m (.text a.name) <;> rfl

/-- An attribute under its key has no part in the other members of a record. -/
theorem unknownMembers_set {attributes : List (Attribute × Shape)} {a : Attribute} {t : Shape} (ha : (a, t) ∈ attributes) {v : Value}
    (hv : Members.get? m (.text a.key) = some v) (w : Value) :
    unknownMembers attributes (m.set (.text a.key) w) = unknownMembers attributes m := by
  unfold unknownMembers
  simp only [fst_find?, Members.contains_set_of_get? hv]
  refine Members.filter_set (p := fun key : Key => !(key.text?.any _)) m (fun k hk => ?_) w
  rw [Key.beq_text.1 hk, Bool.not_eq_false', Key.text?, Option.any_some, List.contains_iff_mem, List.mem_filterMap]
  exact ⟨(a, t), ha, by rw [Members.contains, hv]; rfl⟩

/-- A record of which one attribute under its key is read alike. -/
theorem readsAlike_set (hs : s.IsRecord) (hnames : s.NamesApart) {a : Attribute} {t : Shape} (ha : (a, t) ∈ s.attributes)
    {v v' : Value} (hv : Members.get? m (.text a.key) = some v) (h : t.ReadsAlike v v') :
    s.ReadsAlike (.object m) (.object (m.set (.text a.key) v')) := by
  refine readsAlike_record hs (fun b hb => ?_) (unknownMembers_set ha hv v')
  by_cases hkey : b.1.key = a.key
  · obtain ⟨-, -, hdistinct⟩ := hs
    obtain rfl : b = (a, t) := eq_of_key_eq hdistinct hb ha hkey
    rw [Attribute.given?_of_get? hv, Attribute.given?_of_get? (Members.get?_set_self _ _ _)]
    exact .some h
  · have hname : b.1.name ≠ a.key := fun hname => hkey (hnames b hb (a, t) ha hname)
    have hsame : b.1.given? (m.set (.text a.key) v') = b.1.given? m := by
      refine Attribute.given?_congr ?_ ?_
      · rw [Members.get?_set, if_neg (by simpa using Ne.symm hkey)]
      · rw [Members.get?_set, if_neg (by simpa using Ne.symm hname)]
    rw [hsame]
    cases b.1.given? m with
    | none => exact .none
    | some u => exact .some (.refl _ u)

end

end Record

end EntitySchema
