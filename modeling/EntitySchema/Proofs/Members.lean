import EntitySchema.Members
import Mathlib.Data.List.Forall2

/-!
# Ordered members with distinct keys

An object that was read or that the compiler built has no key twice. `Distinct` says so of a list of members; putting,
taking away and renaming nothing else keep it, and with it a member and a look-up are the same thing.

* `Aligned`: members with the same keys in the same order whose values are related.
* `WithOne`: members, and the same with one more among them.

Results:
* `distinct_set`, `distinct_erase`, `distinct_filter`: what keeps keys distinct.
* `get?_of_mem`: of distinct members every one is found under its key.
* `set_set_of_beq`, `set_comm`: two values put one after the other.
* `get?_erase`: what a look-up finds after a key was taken away.
* `filter_set`, `filter_erase`: members under other keys stay in their order.
-/
namespace EntitySchema.Members

variable {κ α β : Type} [BEq κ]

/-- No two keys are the same. -/
def Distinct (m : Members κ α) : Prop :=
  (keys m).Pairwise fun a b => (a == b) = false

instance (m : Members κ α) : Decidable (Distinct m) :=
  inferInstanceAs (Decidable (List.Pairwise _ _))

@[simp] theorem distinct_nil : Distinct ([] : Members κ α) := List.Pairwise.nil

theorem distinct_cons {k : κ} {v : α} {m : Members κ α} :
    Distinct ((k, v) :: m) ↔ (∀ entry ∈ m, (k == entry.1) = false) ∧ Distinct m := by
  simp [Distinct, keys]

theorem distinct_singleton (k : κ) (v : α) : Distinct [(k, v)] := by
  simp [Distinct, keys]

theorem distinct_pair {k k' : κ} (h : (k == k') = false) (v w : α) : Distinct [(k, v), (k', w)] := by
  simp [Distinct, keys, h]

theorem distinct_of_keys_eq {m : Members κ α} {m' : Members κ β} (h : keys m' = keys m) (hd : Distinct m) :
    Distinct m' := by
  unfold Distinct; rw [h]; exact hd

theorem distinct_sublist {m m' : Members κ α} (h : m'.Sublist m) (hd : Distinct m) : Distinct m' :=
  List.Pairwise.sublist (h.map Prod.fst) hd

theorem distinct_filter {m : Members κ α} (p : κ × α → Bool) (hd : Distinct m) : Distinct (m.filter p) :=
  distinct_sublist List.filter_sublist hd

theorem distinct_erase {m : Members κ α} (key : κ) (hd : Distinct m) : Distinct (erase m key) :=
  distinct_filter _ hd

/-- A member of distinct members has another key than those before it and those after it. -/
theorem distinct_split {before after : Members κ α} {entry : κ × α} (hd : Distinct (before ++ entry :: after)) :
    (∀ other ∈ before, (other.1 == entry.1) = false) ∧ ∀ other ∈ after, (entry.1 == other.1) = false := by
  unfold Distinct keys at hd
  rw [List.map_append, List.map_cons, List.pairwise_append, List.pairwise_cons] at hd
  obtain ⟨-, ⟨hafter, -⟩, hbefore⟩ := hd
  exact ⟨fun other hother => hbefore _ (List.mem_map_of_mem hother) _ List.mem_cons_self,
    fun other hother => hafter _ (List.mem_map_of_mem hother)⟩

/-! ## Look-ups -/

theorem get?_append (m m' : Members κ α) (key : κ) : get? (m ++ m') key = (get? m key).or (get? m' key) := by
  induction m with
  | nil => rfl
  | cons entry rest ih =>
    obtain ⟨k, v⟩ := entry
    simp only [List.cons_append, get?_cons, ih]
    split <;> rfl

theorem contains_append (m m' : Members κ α) (key : κ) : contains (m ++ m') key = (contains m key || contains m' key) := by
  rw [contains, get?_append, Option.isSome_or]
  rfl

theorem get?_singleton [ReflBEq κ] (key : κ) (v : α) : get? [(key, v)] key = some v :=
  if_pos BEq.rfl

theorem exists_of_get? {m : Members κ α} {key : κ} {v : α} (h : get? m key = some v) :
    ∃ k, (k == key) = true ∧ (k, v) ∈ m := by
  induction m with
  | nil => cases h
  | cons entry rest ih =>
    obtain ⟨k, w⟩ := entry
    rw [get?_cons] at h
    split at h
    · rename_i hk
      cases h
      exact ⟨k, hk, by simp⟩
    · obtain ⟨k', hk', hm⟩ := ih h
      exact ⟨k', hk', by simp [hm]⟩

theorem mem_of_get? [LawfulBEq κ] {m : Members κ α} {key : κ} {v : α} (h : get? m key = some v) : (key, v) ∈ m := by
  obtain ⟨k, hk, hm⟩ := exists_of_get? h
  rwa [← eq_of_beq hk]

theorem get?_eq_none_iff {m : Members κ α} {key : κ} : get? m key = none ↔ ∀ entry ∈ m, (entry.1 == key) = false := by
  induction m with
  | nil => simp
  | cons entry rest ih =>
    obtain ⟨k, w⟩ := entry
    rw [get?_cons]
    split <;> simp_all

theorem contains_iff_exists {m : Members κ α} {key : κ} : contains m key = true ↔ ∃ entry ∈ m, (entry.1 == key) = true := by
  rw [contains, Option.isSome_iff_ne_none, ne_eq, get?_eq_none_iff]
  simp

/-- Members without those under the keys of others are new beside these. -/
theorem get?_eq_none_of_apart [ReflBEq κ] {m more : Members κ α} (h : ∀ key, contains m key = true → get? more key = none) :
    ∀ entry ∈ more, get? m entry.1 = none := by
  intro entry he
  cases hthere : get? m entry.1 with
  | none => rfl
  | some v =>
    have hne := get?_eq_none_iff.1 (h entry.1 (by rw [contains, hthere]; rfl)) entry he
    rw [BEq.rfl] at hne
    cases hne

/-- What corresponds to an element of the left list. -/
theorem forall₂_exists_left {R : α → β → Prop} {xs : List α} {ys : List β} (h : List.Forall₂ R xs ys) {x : α} (hx : x ∈ xs) :
    ∃ y ∈ ys, R x y := by
  induction h with
  | nil => cases hx
  | @cons _ y _ _ hxy _ ih =>
    rcases List.mem_cons.1 hx with rfl | hx
    · exact ⟨y, List.mem_cons_self, hxy⟩
    · obtain ⟨z, hz, hr⟩ := ih hx
      exact ⟨z, List.mem_cons_of_mem _ hz, hr⟩

/-- What corresponds to an element of the right list. -/
theorem forall₂_exists_right {R : α → β → Prop} {xs : List α} {ys : List β} (h : List.Forall₂ R xs ys) {y : β} (hy : y ∈ ys) :
    ∃ x ∈ xs, R x y :=
  forall₂_exists_left (R := flip R) h.flip hy

/-- What corresponds to a value that is found is found, and related. -/
theorem rel_some_left {R : α → β → Prop} {x : α} {y : Option β} : Option.Rel R (some x) y ↔ ∃ w, y = some w ∧ R x w := by
  constructor
  · intro h
    cases h with
    | some hr => exact ⟨_, rfl, hr⟩
  · rintro ⟨w, rfl, hr⟩
    exact .some hr

theorem rel_some_right {R : α → β → Prop} {x : Option α} {y : β} : Option.Rel R x (some y) ↔ ∃ v, x = some v ∧ R v y := by
  constructor
  · intro h
    cases h with
    | some hr => exact ⟨_, rfl, hr⟩
  · rintro ⟨v, rfl, hr⟩
    exact .some hr

/-- Where nothing is found, nothing corresponds to it. -/
theorem rel_none_left {R : α → β → Prop} {y : Option β} : Option.Rel R none y ↔ y = none := by
  constructor
  · intro h
    cases h
    rfl
  · rintro rfl
    exact .none

theorem rel_none_right {R : α → β → Prop} {x : Option α} : Option.Rel R x none ↔ x = none := by
  constructor
  · intro h
    cases h
    rfl
  · rintro rfl
    exact .none

theorem rel_imp {R S : α → β → Prop} (himp : ∀ a b, R a b → S a b) {x : Option α} {y : Option β} (h : Option.Rel R x y) :
    Option.Rel S x y := by
  cases h with
  | some hab => exact .some (himp _ _ hab)
  | none => exact .none

/-- Members that correspond one by one correspond under every key. -/
theorem rel_get? {R : α → β → Prop} {m : Members κ α} {m' : Members κ β}
    (h : List.Forall₂ (fun a b => a.1 = b.1 ∧ R a.2 b.2) m m') (key : κ) : Option.Rel R (get? m key) (get? m' key) := by
  induction h with
  | nil => exact .none
  | @cons a b _ _ hab _ ih =>
    obtain ⟨k, v⟩ := a
    obtain ⟨k', w⟩ := b
    obtain ⟨rfl, hvw⟩ := hab
    rw [get?_cons, get?_cons]
    split
    · exact .some hvw
    · exact ih

/-! ## Members that correspond -/

section
variable {R : κ → α → β → Prop} {m : Members κ α} {m' : Members κ β}

/-- Members with the same keys in the same order whose values are related. -/
def Aligned (R : κ → α → β → Prop) (m : Members κ α) (m' : Members κ β) : Prop :=
  List.Forall₂ (fun a b => a.1 = b.1 ∧ R a.1 a.2 b.2) m m'

omit [BEq κ] in
theorem Aligned.keys_eq (h : Aligned R m m') : keys m' = keys m := by
  unfold Aligned at h
  induction h with
  | nil => rfl
  | cons hab _ ih => exact congrArg₂ List.cons hab.1.symm ih

omit [BEq κ] in
theorem Aligned.imp_of_mem {S : κ → α → β → Prop} (himp : ∀ key v w, (key, v) ∈ m → R key v w → S key v w)
    (h : Aligned R m m') : Aligned S m m' :=
  List.Forall₂.imp (fun _ _ hab => ⟨hab.2.1, himp _ _ _ hab.1 hab.2.2⟩)
    ((List.forall₂_and_left (p := (· ∈ m)) _ _).2 ⟨fun _ he => he, h⟩)

theorem Aligned.contains_eq (h : Aligned R m m') (key : κ) : contains m' key = contains m key := by
  have hrel := rel_get? (R := fun _ _ => True) (List.Forall₂.imp (fun _ _ hab => ⟨hab.1, trivial⟩) h) key
  unfold contains
  generalize get? m key = v at hrel ⊢
  generalize get? m' key = w at hrel ⊢
  cases hrel <;> rfl

omit [BEq κ] in
theorem Aligned.append_left_iff {more : Members κ α} :
    Aligned R (m ++ more) m' ↔ ∃ first last, m' = first ++ last ∧ Aligned R m first ∧ Aligned R more last := by
  unfold Aligned
  induction m generalizing m' with
  | nil =>
    simp only [List.nil_append, List.forall₂_nil_left_iff]
    constructor
    · exact fun h => ⟨[], m', rfl, rfl, h⟩
    · rintro ⟨_, last, rfl, rfl, h⟩
      exact h
  | cons entry rest ih =>
    simp only [List.cons_append, List.forall₂_cons_left_iff, ih]
    constructor
    · rintro ⟨one, _, hone, ⟨first, last, rfl, hfirst, hlast⟩, rfl⟩
      exact ⟨one :: first, last, rfl, ⟨one, first, hone, hfirst, rfl⟩, hlast⟩
    · rintro ⟨_, last, rfl, ⟨one, first, hone, hfirst, rfl⟩, hlast⟩
      exact ⟨one, first ++ last, hone, ⟨first, last, rfl, hfirst, hlast⟩, rfl⟩

omit [BEq κ] in
/-- Members that correspond to members that correspond. -/
theorem Aligned.comp {γ : Type} {S : κ → β → γ → Prop} {m'' : Members κ γ} (h : Aligned R m m') (h' : Aligned S m' m'') :
    Aligned (fun key v w => ∃ x, R key v x ∧ S key x w) m m'' := by
  unfold Aligned at h h' ⊢
  induction h generalizing m'' with
  | nil =>
    cases h'
    exact .nil
  | cons hab _ ih =>
    cases h' with
    | cons hbc htail => exact .cons ⟨hab.1.trans hbc.1, _, hab.2, hab.1 ▸ hbc.2⟩ (ih htail)

omit [BEq κ] in
theorem aligned_map {f : κ × α → β} : Aligned R m (m.map fun entry => (entry.1, f entry)) ↔
    ∀ entry ∈ m, R entry.1 entry.2 (f entry) := by
  unfold Aligned
  rw [List.forall₂_map_right_iff, List.forall₂_same]
  simp

theorem Aligned.distinct_iff (h : Aligned R m m') : Distinct m' ↔ Distinct m := by
  unfold Distinct
  rw [h.keys_eq]

omit [BEq κ] in
theorem Aligned.exists_left (h : Aligned R m m') {entry : κ × β} (he : entry ∈ m') :
    ∃ v, (entry.1, v) ∈ m ∧ R entry.1 v entry.2 := by
  obtain ⟨one, hone, hname, hr⟩ := forall₂_exists_right h he
  rw [← hname]
  exact ⟨one.2, hone, hr⟩

end

/-- What is put under a key that is new in the first members is put into the others. -/
theorem set_append_of_get?_none {m : Members κ α} {key : κ} (m' : Members κ α) (v : α) (h : get? m key = none) :
    set (m ++ m') key v = m ++ set m' key v := by
  induction m with
  | nil => rfl
  | cons entry rest ih =>
    obtain ⟨k, w⟩ := entry
    rw [get?_cons] at h
    split at h
    · cases h
    · rename_i hk
      simp [set, hk, ih h]

/-- What is put under a key that is there in the first members is put into these. -/
theorem set_append_of_contains {m : Members κ α} {key : κ} (m' : Members κ α) (v : α) (h : contains m key = true) :
    set (m ++ m') key v = set m key v ++ m' := by
  induction m with
  | nil => cases h
  | cons entry rest ih =>
    obtain ⟨k, w⟩ := entry
    by_cases hk : (k == key) = true
    · simp [set, hk]
    · have hrest : contains rest key = true := by rwa [contains, get?_cons, if_neg hk] at h
      simp [set, hk, ih hrest]

theorem set_of_get?_none {m : Members κ α} {key : κ} (v : α) (h : get? m key = none) : set m key v = m ++ [(key, v)] := by
  have happend := set_append_of_get?_none [] v h
  rwa [List.append_nil] at happend

/-- Putting what is there already changes nothing. -/
theorem set_of_get? {m : Members κ α} {key : κ} {v : α} (h : get? m key = some v) : set m key v = m := by
  induction m with
  | nil => cases h
  | cons entry rest ih =>
    obtain ⟨k, w⟩ := entry
    rw [get?_cons] at h
    split at h
    · rename_i hk
      cases h
      rw [set, if_pos hk]
    · rename_i hk
      rw [set, if_neg hk, ih h]

/-- Keys of joined members are distinct if those of each are and none is in both. -/
theorem distinct_append {m m' : Members κ α} :
    Distinct (m ++ m') ↔ Distinct m ∧ Distinct m' ∧ ∀ entry ∈ m', get? m entry.1 = none := by
  unfold Distinct keys
  rw [List.map_append, List.pairwise_append]
  refine and_congr_right fun _ => and_congr_right fun _ => ?_
  simp only [List.forall_mem_map, get?_eq_none_iff]
  exact ⟨fun h entry he other hother => h other hother entry he, fun h entry he other hother => h other hother entry he⟩

theorem distinct_append_singleton {m : Members κ α} {key : κ} (v : α) (hd : Distinct m) (h : get? m key = none) :
    Distinct (m ++ [(key, v)]) := by
  refine distinct_append.2 ⟨hd, distinct_singleton key v, fun entry he => ?_⟩
  rw [List.mem_singleton.1 he, h]

/-- Putting a value keeps keys distinct. -/
theorem distinct_set {m : Members κ α} (key : κ) (v : α) (hd : Distinct m) : Distinct (set m key v) := by
  cases h : get? m key with
  | none =>
    rw [set_of_get?_none v h]
    exact distinct_append_singleton v hd h
  | some w =>
    have hk : keys (set m key v) = keys m := by
      rw [keys_set]
      simp [contains, h]
    exact distinct_of_keys_eq hk hd

theorem distinct_foldl_set {σ : Type} (key : σ → κ) (value : Members κ α → σ → α) (xs : List σ) {m : Members κ α}
    (hd : Distinct m) : Distinct (xs.foldl (fun acc x => set acc (key x) (value acc x)) m) := by
  induction xs generalizing m with
  | nil => exact hd
  | cons x rest ih => exact ih (distinct_set _ _ hd)

theorem distinct_update {m : Members κ α} (more : Members κ α) (hd : Distinct m) : Distinct (update m more) :=
  distinct_foldl_set Prod.fst (fun _ entry => entry.2) more hd

theorem distinct_ofEntries (entries : List (κ × α)) : Distinct (ofEntries entries) :=
  distinct_update entries distinct_nil

section
variable [EquivBEq κ]

theorem get?_congr {m : Members κ α} {a b : κ} (h : (a == b) = true) : get? m a = get? m b := by
  induction m with
  | nil => rfl
  | cons entry rest ih =>
    obtain ⟨k, v⟩ := entry
    rw [get?_cons, get?_cons, ih, BEq.congr_right h]

/-- A value that is put under a free key leaves all other keys as they are. -/
theorem contains_setNew (m : Members κ α) (key : κ) (v : α) (other : κ) :
    contains (setNew m key v) other = (key == other || contains m other) := by
  unfold setNew
  split
  · rename_i hthere
    cases hkey : key == other with
    | true => rw [Bool.true_or, contains, ← get?_congr hkey]; exact hthere
    | false => rw [Bool.false_or]
  · exact contains_set m key v other

/-- Only the last of two values that are put under one key stays. -/
theorem set_set_of_beq {m : Members κ α} {k key : κ} (h : (k == key) = true) (v w : α) : set (set m k v) key w = set m k w := by
  induction m with
  | nil => simp [set, h]
  | cons entry rest ih =>
    obtain ⟨j, u⟩ := entry
    by_cases hk : (j == k) = true
    · simp [set, hk, BEq.trans hk h]
    · have hkey : ¬(j == key) = true := fun hj => hk (BEq.trans hj (BEq.symm h))
      simp [set, hk, hkey, ih]

/-- Values under different keys may be put in either order if one of the keys is there already. -/
theorem set_comm {m : Members κ α} {k key : κ} (h : (k == key) = false) (hthere : contains m key = true) (v w : α) :
    set (set m k v) key w = set (set m key w) k v := by
  induction m with
  | nil => cases hthere
  | cons entry rest ih =>
    obtain ⟨j, u⟩ := entry
    by_cases hk : (j == k) = true
    · have hkey : ¬(j == key) = true := by rw [BEq.congr_left hk, h]; exact Bool.false_ne_true
      simp [set, hk, hkey]
    · by_cases hkey : (j == key) = true
      · simp [set, hk, hkey]
      · have hrest : contains rest key = true := by rwa [contains, get?_cons, if_neg hkey] at hthere
        simp [set, hk, hkey, ih hrest]

/-- Of distinct members every one is found under its key. -/
theorem get?_of_mem {m : Members κ α} {k : κ} {v : α} (hd : Distinct m) (h : (k, v) ∈ m) : get? m k = some v := by
  induction m with
  | nil => cases h
  | cons entry rest ih =>
    obtain ⟨k', w⟩ := entry
    obtain ⟨hne, hd⟩ := distinct_cons.1 hd
    rw [get?_cons]
    rcases List.mem_cons.1 h with h | h
    · cases h
      simp
    · rw [if_neg (by simp [hne _ h]), ih hd h]

/-- Of distinct members no two stand under one key. -/
theorem eq_of_mem_of_beq {m : Members κ α} (hd : Distinct m) {a b : κ × α} (ha : a ∈ m) (hb : b ∈ m)
    (h : (a.1 == b.1) = true) : a = b := by
  induction m with
  | nil => cases ha
  | cons entry rest ih =>
    obtain ⟨hne, hdrest⟩ := distinct_cons.1 hd
    rcases List.mem_cons.1 ha with ha | ha' <;> rcases List.mem_cons.1 hb with hb | hb'
    · rw [ha, hb]
    · rw [ha, hne b hb'] at h
      cases h
    · rw [hb, BEq.comm, hne a ha'] at h
      cases h
    · exact ih hdrest ha' hb'

theorem mem_set {m : Members κ α} {key : κ} {v : α} {entry : κ × α} (h : entry ∈ set m key v) :
    entry ∈ m ∨ (entry.1 == key) = true ∧ entry.2 = v := by
  induction m with
  | nil =>
    rw [set, List.mem_singleton] at h
    subst h
    exact .inr ⟨BEq.rfl, rfl⟩
  | cons head rest ih =>
    obtain ⟨k, w⟩ := head
    by_cases hk : (k == key) = true
    · rw [set, if_pos hk] at h
      rcases List.mem_cons.1 h with rfl | h
      · exact .inr ⟨hk, rfl⟩
      · exact .inl (List.mem_cons_of_mem _ h)
    · rw [set, if_neg hk] at h
      rcases List.mem_cons.1 h with rfl | h
      · exact .inl List.mem_cons_self
      · exact (ih h).imp (List.mem_cons_of_mem _) id

theorem get?_erase (m : Members κ α) (key other : κ) :
    get? (erase m key) other = if key == other then none else get? m other := by
  induction m with
  | nil => simp [erase]
  | cons entry rest ih =>
    obtain ⟨k, v⟩ := entry
    simp only [erase] at ih
    by_cases hk : (k == key) = true
    · have hko : (k == other) = (key == other) := BEq.congr_left hk
      simp only [erase, List.filter_cons, hk, Bool.not_true, Bool.false_eq_true, if_false, ih, get?_cons, hko]
      split <;> rfl
    · by_cases ho : (k == other) = true
      · have : (key == other) = false := by
          rw [← BEq.congr_right ho, BEq.comm]
          simpa using hk
        simp [erase, hk, get?_cons, ho, this]
      · simp [erase, hk, get?_cons, ho, ih]

/-- What is put under a key that a test rejects does not show among the members that pass. -/
theorem filter_set {p : κ → Bool} (m : Members κ α) {key : κ} (h : ∀ k, (k == key) = true → p k = false) (v : α) :
    (set m key v).filter (fun entry => p entry.1) = m.filter fun entry => p entry.1 := by
  induction m with
  | nil => simp [set, h key BEq.rfl]
  | cons entry rest ih =>
    obtain ⟨k, w⟩ := entry
    by_cases hk : (k == key) = true
    · simp [set, hk, h k hk]
    · simp only [set, if_neg hk, List.filter_cons, ih]

omit [EquivBEq κ] in
theorem filter_erase {p : κ → Bool} (m : Members κ α) {key : κ} (h : ∀ k, (k == key) = true → p k = false) :
    (erase m key).filter (fun entry => p entry.1) = m.filter fun entry => p entry.1 := by
  unfold erase
  rw [List.filter_filter]
  refine List.filter_congr fun entry _ => ?_
  cases hk : entry.1 == key with
  | true => simp [h _ hk]
  | false => simp

end

/-! ## One more among others -/

section
variable {entry : κ × α} {m m' : Members κ α}

/-- Members, and the same with one more among them. -/
def WithOne (entry : κ × α) (m m' : Members κ α) : Prop :=
  ∃ front back, m = front ++ back ∧ m' = front ++ entry :: back

omit [BEq κ] in
/-- To members with one more correspond members with one more. -/
theorem Aligned.withOne {R : κ → α → β → Prop} {made : Members κ β} (h : Aligned R m made) (hone : WithOne entry m m') {w : β}
    (hw : R entry.1 entry.2 w) : ∃ made', Aligned R m' made' ∧ WithOne (entry.1, w) made made' := by
  obtain ⟨front, back, rfl, rfl⟩ := hone
  obtain ⟨first, last, rfl, hfirst, hlast⟩ := append_left_iff.1 h
  exact ⟨first ++ (entry.1, w) :: last, append_left_iff.2 ⟨first, _, rfl, hfirst, .cons ⟨rfl, hw⟩ hlast⟩, first, last, rfl, rfl⟩

variable {key : κ}

/-- Under another key nothing else is found. -/
theorem WithOne.get?_eq (h : WithOne entry m m') (hne : (entry.1 == key) = false) : get? m' key = get? m key := by
  obtain ⟨front, back, rfl, rfl⟩ := h
  rw [get?_append, get?_append, get?_cons, hne, if_neg Bool.false_ne_true]

/-- What is put under another key is put beside the one more. -/
theorem WithOne.set (h : WithOne entry m m') (hne : (entry.1 == key) = false) (v : α) :
    WithOne entry (set m key v) (set m' key v) := by
  obtain ⟨front, back, rfl, rfl⟩ := h
  cases hfront : get? front key with
  | none =>
    rw [set_append_of_get?_none _ _ hfront, set_append_of_get?_none _ _ hfront, Members.set, hne, if_neg Bool.false_ne_true]
    exact ⟨front, _, rfl, rfl⟩
  | some w =>
    have hthere : contains front key = true := by rw [contains, hfront]; rfl
    rw [set_append_of_contains _ _ hthere, set_append_of_contains _ _ hthere]
    exact ⟨_, back, rfl, rfl⟩

end

/-- The members that a list of entries spells out are among the entries. -/
theorem mem_ofEntries [LawfulBEq κ] {entries : List (κ × α)} {entry : κ × α} (h : entry ∈ ofEntries entries) : entry ∈ entries := by
  have hall : ∀ one ∈ ofEntries entries, one ∈ entries := by
    unfold ofEntries update
    refine List.foldlRecOn (motive := fun acc : Members κ α => ∀ one ∈ acc, one ∈ entries) entries _ (by simp)
      fun acc hacc other hother one hone => ?_
    rcases mem_set hone with hone | ⟨hkey, hvalue⟩
    · exact hacc one hone
    · rwa [Prod.ext (eq_of_beq hkey) hvalue]
  exact hall entry h

end EntitySchema.Members
