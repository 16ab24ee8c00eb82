import EntitySchema.Proofs.Reordered
import EntitySchema.Proofs.Value.Unique

/-!
# Three trees merged in either order

To merge three trees, the first two or the last two may be merged first, as long as what the middle one has at a place does not
come between two things that would be joined there: two objects, or two lists if lists are appended. What is joined by the one
order is then replaced by the other.

* `Value.Kind`: objects, lists and everything else.
* `MergeMode.joins`: kinds of which two values that meet are joined.
* `Value.Unbroken`: three values of which the middle one nowhere comes between two that are joined.

Results:
* `merge_set`: what is put into the upper members is put into the merged ones.
* `overlay_assoc`: of unbroken values the first two or the last two may be merged first.
* `overlay_self`, `overlay_overlay_self`: a value over itself, and a second time over something.
-/
namespace EntitySchema

/-! ## Kinds -/

namespace Value

/-- What a value is, as far as merging is concerned. -/
inductive Kind where
  | scalar
  | list
  | object
deriving DecidableEq, Repr

def kind : Value → Kind
  | list _ => .list
  | object _ => .object
  | _ => .scalar

@[simp] theorem kind_list (xs : List Value) : (list xs).kind = .list := rfl

@[simp] theorem kind_object (m : List (Key × Value)) : (object m).kind = .object := rfl

theorem kind_eq_object {v : Value} : v.kind = .object ↔ ∃ m, v = object m := by
  cases v <;> simp [kind]

theorem kind_eq_list {v : Value} : v.kind = .list ↔ ∃ xs, v = list xs := by
  cases v <;> simp [kind]

end Value

/-- Whether two values of a kind that meet are joined. Otherwise the upper one replaces the lower one. -/
def MergeMode.joins : MergeMode → Value.Kind → Bool
  | _, .object => true
  | .append, .list => true
  | _, _ => false

namespace Value

variable {mode : MergeMode} {u v w : Value}

/-- Two values that are joined where they meet. -/
def Joined (mode : MergeMode) (v w : Value) : Prop :=
  v.kind = w.kind ∧ mode.joins w.kind = true

instance : Decidable (Joined mode v w) :=
  inferInstanceAs (Decidable (_ ∧ _))

/-- Values that are joined are objects, or lists that are appended. -/
theorem Joined.cases (h : Joined mode v w) :
    (∃ m m', v = object m ∧ w = object m') ∨ mode = .append ∧ ∃ xs ys, v = list xs ∧ w = list ys := by
  obtain ⟨hkind, hjoins⟩ := h
  cases hw : w.kind with
  | scalar => cases mode <;> simp [hw, MergeMode.joins] at hjoins
  | list =>
    obtain ⟨ys, rfl⟩ := kind_eq_list.1 hw
    obtain ⟨xs, rfl⟩ := kind_eq_list.1 (hkind.trans hw)
    cases mode with
    | override => simp [MergeMode.joins] at hjoins
    | append => exact .inr ⟨rfl, xs, ys, rfl, rfl⟩
  | object =>
    obtain ⟨m', rfl⟩ := kind_eq_object.1 hw
    obtain ⟨m, rfl⟩ := kind_eq_object.1 (hkind.trans hw)
    exact .inl ⟨m, m', rfl, rfl⟩

/-- A value that is not joined replaces what it is laid over. -/
theorem overlay_of_not_joined (h : ¬Joined mode v w) : overlay mode v w = w := by
  cases v <;> cases w <;> cases mode <;> first | rfl | exact absurd ⟨rfl, rfl⟩ h

/-- What is laid over something keeps its kind. -/
@[simp] theorem kind_overlay : (overlay mode v w).kind = w.kind := by
  by_cases h : Joined mode v w
  · rcases h.cases with ⟨m, m', rfl, rfl⟩ | ⟨rfl, xs, ys, rfl, rfl⟩
    · rw [overlay_object, kind_object, kind_object]
    · rw [overlay, kind_list, kind_list]
  · rw [overlay_of_not_joined h]

theorem joined_overlay_left : Joined mode (overlay mode u v) w ↔ Joined mode v w := by
  rw [Joined, Joined, kind_overlay]

theorem joined_overlay_right : Joined mode u (overlay mode v w) ↔ Joined mode u w := by
  rw [Joined, Joined, kind_overlay]

end Value

/-! ## Members -/

namespace Members

variable {mode : MergeMode} {lower middle upper : Members Key Value}

/-- What is put under a key that is there and that the upper members leave alone may be put before they are merged. -/
theorem set_merge (hlower : contains lower key = true) (hupper : get? upper key = none) (v : Value) :
    set (merge mode lower upper) key v = merge mode (set lower key v) upper := by
  induction upper generalizing lower with
  | nil => rw [merge_nil, merge_nil]
  | cons entry rest ih =>
    obtain ⟨k, w⟩ := entry
    rw [get?_cons] at hupper
    split at hupper
    · cases hupper
    · rename_i hk
      have hne : (k == key) = false := by simpa using hk
      have hthere : contains (set lower k (mergedAt mode lower k w)) key = true := by
        rw [contains_set, hlower, Bool.or_true]
      have hsame : get? (set lower key v) k = get? lower k := by
        rw [get?_set, if_neg (by rw [BEq.comm, hne]; exact Bool.false_ne_true)]
      rw [merge_cons, merge_cons, ih hthere hupper, set_comm hne hlower, mergedAt_congr hsame]

/-- What is put into the upper members is put into the merged ones, over what the lower ones have there. -/
theorem merge_set (hd : Distinct upper) (key : Key) (v : Value) :
    merge mode lower (set upper key v) = set (merge mode lower upper) key (mergedAt mode lower key v) := by
  induction upper generalizing lower with
  | nil => rw [set, merge_cons, merge_nil, merge_nil]
  | cons entry rest ih =>
    obtain ⟨k, w⟩ := entry
    obtain ⟨hne, hd⟩ := distinct_cons.1 hd
    rw [set]
    split
    · -- the value takes the place of the first one, which no later entry touches
      rename_i hk
      have hrest : get? rest key = none := by
        refine get?_eq_none_iff.2 fun entry he => ?_
        rw [← BEq.congr_right hk, BEq.comm, hne entry he]
      have hthere : contains (set lower k (mergedAt mode lower k w)) key = true := by
        rw [contains_set, hk, Bool.true_or]
      rw [merge_cons, merge_cons, set_merge hthere hrest, set_set_of_beq hk, mergedAt, mergedAt, get?_congr hk]
    · rename_i hk
      have hsame : get? (set lower k (mergedAt mode lower k w)) key = get? lower key := by
        rw [get?_set, if_neg hk]
      rw [merge_cons, merge_cons, ih hd, mergedAt_congr hsame]

/-- Members may be merged in either order if the values that meet under a key may. -/
theorem merge_merge (hmiddle : Distinct middle) (hupper : Distinct upper)
    (h : ∀ key u v w, get? lower key = some u → get? middle key = some v → get? upper key = some w →
      Value.overlay mode (Value.overlay mode u v) w = Value.overlay mode u (Value.overlay mode v w)) :
    merge mode (merge mode lower middle) upper = merge mode lower (merge mode middle upper) := by
  induction upper generalizing middle with
  | nil => rw [merge_nil, merge_nil]
  | cons entry rest ih =>
    obtain ⟨key, w⟩ := entry
    obtain ⟨hne, hrest⟩ := distinct_cons.1 hupper
    -- the first entry alone: what it leaves under its key
    have hfirst : mergedAt mode (merge mode lower middle) key w = mergedAt mode lower key (mergedAt mode middle key w) := by
      cases hv : get? middle key with
      | none => rw [mergedAt_congr (get?_merge_of_none hv), mergedAt_of_get?_none hv]
      | some v =>
        rw [mergedAt_of_get? (get?_merge_of_some hmiddle hv), mergedAt_of_get? hv]
        cases hu : get? lower key with
        | none => rw [mergedAt_of_get?_none hu, mergedAt_of_get?_none hu]
        | some u =>
          rw [mergedAt_of_get? hu, mergedAt_of_get? hu]
          exact h key u v w hu hv (by rw [get?_cons, if_pos BEq.rfl])
    rw [merge_cons, merge_cons, hfirst, ← merge_set hmiddle, ih (distinct_set _ _ hmiddle) hrest]
    -- the other entries find the same as before
    intro other u v w' hu hv hw'
    have hother : ¬(key == other) = true := fun hsame => by
      obtain ⟨k, hk, hm⟩ := exists_of_get? hw'
      have hcontra := hne _ hm
      rw [BEq.congr_right hk, hsame] at hcontra
      cases hcontra
    rw [get?_set, if_neg hother] at hv
    exact h other u v w' hu hv (by rwa [get?_cons, if_neg hother])

end Members

/-! ## Values -/

namespace Value

variable {mode : MergeMode} {u v w : Value}

/-- Three values of which the middle one has, wherever the outer ones are joined, something of the same kind or nothing. -/
def Unbroken (mode : MergeMode) (u v w : Value) : Prop :=
  ∀ path x y z, u.at? path = some x → v.at? path = some y → w.at? path = some z → Joined mode x z → y.kind = z.kind

theorem at?_cons (v : Value) (key : Key) (rest : Path) :
    v.at? (key :: rest) = (Members.get? v.members key).bind fun w => w.at? rest := by
  cases v <;> rfl

/-- Unbroken objects have unbroken values under their keys. -/
theorem Unbroken.below {m m' m'' : Members Key Value} (h : Unbroken mode (object m) (object m') (object m'')) {key : Key}
    (hu : Members.get? m key = some u) (hv : Members.get? m' key = some v) (hw : Members.get? m'' key = some w) :
    Unbroken mode u v w := by
  intro path x y z hx hy hz
  refine h (key :: path) x y z ?_ ?_ ?_
  · rw [at?, hu]; exact hx
  · rw [at?, hv]; exact hy
  · rw [at?, hw]; exact hz

/-- Values of which none comes between the other two are unbroken, if those that they have as members are. -/
theorem unbroken_of_members (hroot : Joined mode u w → v.kind = w.kind)
    (h : ∀ key x y z, Members.get? u.members key = some x → Members.get? v.members key = some y →
      Members.get? w.members key = some z → Unbroken mode x y z) : Unbroken mode u v w := by
  intro path x y z hx hy hz hjoined
  cases path with
  | nil => cases hx; cases hy; cases hz; exact hroot hjoined
  | cons key rest =>
    rw [at?_cons] at hx hy hz
    obtain ⟨x', hx', hx⟩ := Option.bind_eq_some_iff.1 hx
    obtain ⟨y', hy', hy⟩ := Option.bind_eq_some_iff.1 hy
    obtain ⟨z', hz', hz⟩ := Option.bind_eq_some_iff.1 hz
    exact h key x' y' z' hx' hy' hz' rest x y z hx hy hz hjoined

mutual

/-- Goes along the last of three values and looks whether the middle one comes between it and the first. -/
def isUnbroken (mode : MergeMode) (u v : Value) : Value → Bool
  | object m => decide (Joined mode u (object m) → v.kind = .object) && isUnbrokenIn mode u.members v.members m
  | w => decide (Joined mode u w → v.kind = w.kind)

def isUnbrokenIn (mode : MergeMode) (m m' : Members Key Value) : List (Key × Value) → Bool
  | [] => true
  | (key, w) :: rest =>
    (match Members.get? m key, Members.get? m' key with
      | some u, some v => isUnbroken mode u v w
      | _, _ => true) && isUnbrokenIn mode m m' rest

end

theorem isUnbroken_of_mem {m m' m'' : Members Key Value} (h : isUnbrokenIn mode m m' m'' = true) {entry : Key × Value}
    (he : entry ∈ m'') (hu : Members.get? m entry.1 = some u) (hv : Members.get? m' entry.1 = some v) :
    isUnbroken mode u v entry.2 = true := by
  induction m'' with
  | nil => cases he
  | cons head rest ih =>
    rw [isUnbrokenIn, Bool.and_eq_true] at h
    rcases List.mem_cons.1 he with rfl | he
    · have hhead := h.1
      rwa [hu, hv] at hhead
    · exact ih h.2 he

/-- Values that pass the look are unbroken. -/
theorem unbroken_of_isUnbroken (h : isUnbroken mode u v w = true) : Unbroken mode u v w := by
  induction w using membersInduction generalizing u v with
  | h w ih =>
    by_cases hobject : ∃ m, w = object m
    · obtain ⟨m, rfl⟩ := hobject
      rw [isUnbroken, Bool.and_eq_true, decide_eq_true_eq] at h
      refine unbroken_of_members h.1 fun key x y z hx hy hz => ?_
      obtain ⟨k, hk, hm⟩ := Members.exists_of_get? hz
      rw [← Members.get?_congr hk] at hx hy
      exact ih _ hm (isUnbroken_of_mem h.2 hm hx hy)
    · have hmembers : w.members = [] := by
        cases w <;> first | rfl | exact absurd ⟨_, rfl⟩ hobject
      have hroot : Joined mode u w → v.kind = w.kind := by
        cases w <;> first | exact absurd ⟨_, rfl⟩ hobject | exact of_decide_eq_true h
      refine unbroken_of_members hroot fun key x y z _ _ hz => ?_
      rw [hmembers] at hz
      cases hz

/-- Of unbroken values the first two or the last two may be merged first. -/
theorem overlay_assoc (hv : v.UniqueKeys) (hw : w.UniqueKeys) (h : Unbroken mode u v w) :
    overlay mode (overlay mode u v) w = overlay mode u (overlay mode v w) := by
  induction w using membersInduction generalizing u v with
  | h w ih =>
    by_cases hvw : Joined mode v w
    · by_cases huv : Joined mode u v
      · rcases huv.cases with ⟨m, m', rfl, rfl⟩ | ⟨rfl, xs, ys, rfl, rfl⟩
        · obtain ⟨m'', rfl⟩ := kind_eq_object.1 hvw.1.symm
          rw [overlay_object, overlay_object, overlay_object, overlay_object]
          refine congrArg object (Members.merge_merge hv.distinct hw.distinct fun key x y z hx hy hz => ?_)
          obtain ⟨k, -, hm⟩ := Members.exists_of_get? hz
          exact ih _ hm (hv.of_get? hy) (hw.of_get? hz) (h.below hx hy hz)
        · obtain ⟨zs, rfl⟩ := kind_eq_list.1 hvw.1.symm
          simp only [overlay, List.append_assoc]
      · have huvw : ¬Joined mode u (overlay mode v w) := fun huw => by
          rw [joined_overlay_right] at huw
          exact huv ⟨huw.1.trans hvw.1.symm, by rw [hvw.1]; exact hvw.2⟩
        rw [overlay_of_not_joined huv, overlay_of_not_joined huvw]
    · -- the last value replaces the middle one, so the first one must not be joined with it either
      have huw : ¬Joined mode u w := fun huw => hvw ⟨h [] u v w rfl rfl rfl huw, huw.2⟩
      rw [overlay_of_not_joined hvw, overlay_of_not_joined huw, overlay_of_not_joined]
      rwa [joined_overlay_left]

theorem uniqueKeys_overlay (hv : v.UniqueKeys) (hw : w.UniqueKeys) : (overlay mode v w).UniqueKeys := by
  induction w using membersInduction generalizing v with
  | h w ih =>
    by_cases h : Joined mode v w
    · rcases h.cases with ⟨m, m', rfl, rfl⟩ | ⟨rfl, xs, ys, rfl, rfl⟩
      · rw [overlay_object, uniqueKeys_object]
        refine ⟨Members.distinct_merge _ hv.distinct, ?_⟩
        refine Members.forall_merge_of (P := fun _ x => x.UniqueKeys)
          (Q := fun _ y => y.UniqueKeys ∧ ∀ x : Value, x.UniqueKeys → (overlay mode x y).UniqueKeys)
          (fun _ hx => hx) And.left (fun hx hy => hy.2 _ hx) (uniqueKeys_object.1 hv).2 fun entry he => ?_
        have hentry := (uniqueKeys_object.1 hw).2 entry he
        exact ⟨hentry, fun x hx => ih entry he hx hentry⟩
      · rw [overlay, uniqueKeys_list]
        exact fun x hx => (List.mem_append.1 hx).elim (uniqueKeys_list.1 hv x) (uniqueKeys_list.1 hw x)
    · rwa [overlay_of_not_joined h]

/-- A value over itself is itself, unless lists are appended. -/
theorem overlay_self (hv : v.UniqueKeys) : overlay .override v v = v := by
  induction v using membersInduction with
  | h v ih =>
    by_cases hobject : ∃ m, v = object m
    · obtain ⟨m, rfl⟩ := hobject
      exact overlay_self_object hv.distinct fun entry he => ih entry he ((uniqueKeys_object.1 hv).2 entry he)
    · exact overlay_self_of_not_object fun m hm => hobject ⟨m, hm⟩

/-- What is laid over something a second time changes nothing. -/
theorem overlay_overlay_self (v : Value) {w : Value} (hw : w.UniqueKeys) : overlay .override (overlay .override v w) w = overlay .override v w := by
  have h : Unbroken .override v w w := fun path x y z _ hy hz _ => by
    rw [Option.some.inj (hy.symm.trans hz)]
  rw [overlay_assoc hw hw h, overlay_self hw]

end Value

end EntitySchema
