import EntitySchema.Proofs.Members
import EntitySchema.Proofs.Value.Access
import EntitySchema.Tree.Merge

/-!
# Look-ups after a merge

What stands under a key of a merged object, in terms of the two objects that were merged.

Results:
* `get?_merge`: the value under a key, for upper members with distinct keys.
* `get?_merge_eq_none_iff`: the keys of a merged object, for any upper members.
* `forall_merge_of`, `forall_merge_named`: what all members of a merged object have in common.
* `distinct_merge`: the merge keeps the lower keys distinct, whatever the upper members are.
* `merge_eq_append`, `merge_eq_upper`: merged members whose places are known.
* `overlay_nil_left`: distinct members laid over nothing are themselves.
* `Members.truthy_overlay`: what the upper members give is given after the merge.
-/
namespace EntitySchema

namespace Value

/-- An object over a value that is none takes its place, and so does any other value over any value. -/
theorem overlay_override_of_not_object {v w : Value} (h : ∀ m m', ¬(v = object m ∧ w = object m')) :
    overlay .override v w = w := by
  cases v <;> cases w <;> first | rfl | exact absurd ⟨rfl, rfl⟩ (h _ _)

@[simp] theorem overlay_object (mode : MergeMode) (m m' : List (Key × Value)) :
    overlay mode (object m) (object m') = object (Members.merge mode m m') := by
  rw [overlay]

/-- Only null laid over something gives null. -/
theorem overlay_eq_null {mode : MergeMode} {v w : Value} (h : overlay mode v w = null) : w = null := by
  cases v <;> cases w <;> cases mode <;> simp_all [overlay]

/-- Only a text laid over something gives a text. -/
theorem overlay_eq_str {mode : MergeMode} {v w : Value} {s : String} (h : overlay mode v w = str s) : w = str s := by
  cases v <;> cases w <;> cases mode <;> simp_all [overlay]

end Value

namespace Members

@[simp] theorem merge_nil (mode : MergeMode) (lower : Members Key Value) : merge mode lower [] = lower := by
  rw [merge]

/-- The value that an entry of the upper members leaves under its key. -/
def mergedAt (mode : MergeMode) (lower : Members Key Value) (key : Key) (v : Value) : Value :=
  match get? lower key with
  | some old => Value.overlay mode old v
  | none => v

theorem merge_cons (mode : MergeMode) (lower : Members Key Value) (key : Key) (v : Value) (rest : Members Key Value) :
    merge mode lower ((key, v) :: rest) = merge mode (set lower key (mergedAt mode lower key v)) rest := by
  rw [merge]; rfl

theorem merge_append (mode : MergeMode) (lower upper more : Members Key Value) :
    merge mode lower (upper ++ more) = merge mode (merge mode lower upper) more := by
  induction upper generalizing lower with
  | nil => rw [merge_nil, List.nil_append]
  | cons entry rest ih => rw [List.cons_append, merge_cons, merge_cons, ih]

theorem mergedAt_congr {mode : MergeMode} {m m' : Members Key Value} {key : Key} (h : get? m key = get? m' key) (v : Value) :
    mergedAt mode m key v = mergedAt mode m' key v := by
  unfold mergedAt; rw [h]

theorem mergedAt_of_get?_none {mode : MergeMode} {m : Members Key Value} {key : Key} (h : get? m key = none) (v : Value) :
    mergedAt mode m key v = v := by
  unfold mergedAt; rw [h]

theorem mergedAt_of_get? {mode : MergeMode} {m : Members Key Value} {key : Key} {old : Value} (h : get? m key = some old)
    (v : Value) : mergedAt mode m key v = Value.overlay mode old v := by
  unfold mergedAt; rw [h]

/-- What is no object replaces what stood there. -/
theorem mergedAt_of_not_object (m : Members Key Value) (key : Key) {v : Value} (hv : ∀ below, v ≠ .object below) :
    mergedAt .override m key v = v := by
  unfold mergedAt
  split
  · exact Value.overlay_override_of_not_object fun _ below hobjects => hv below hobjects.2
  · rfl

theorem distinct_merge {mode : MergeMode} {lower : Members Key Value} (upper : Members Key Value) (hd : Distinct lower) :
    Distinct (merge mode lower upper) := by
  induction upper generalizing lower with
  | nil => simpa
  | cons entry rest ih => rw [merge_cons]; exact ih (distinct_set _ _ hd)

/-- A key that the upper members lack keeps its value. -/
theorem get?_merge_of_none {mode : MergeMode} {lower upper : Members Key Value} {key : Key} (h : get? upper key = none) :
    get? (merge mode lower upper) key = get? lower key := by
  induction upper generalizing lower with
  | nil => simp
  | cons entry rest ih =>
    obtain ⟨k, v⟩ := entry
    rw [get?_cons] at h
    split at h
    · cases h
    · rename_i hk
      rw [merge_cons, ih h, get?_set, if_neg hk]

/-- A merged object has the keys of both objects. -/
theorem get?_merge_eq_none_iff {mode : MergeMode} {lower upper : Members Key Value} {key : Key} :
    get? (merge mode lower upper) key = none ↔ get? lower key = none ∧ get? upper key = none := by
  induction upper generalizing lower with
  | nil => simp
  | cons entry rest ih =>
    obtain ⟨k, v⟩ := entry
    rw [merge_cons, ih, get?_set, get?_cons]
    split <;> simp

theorem contains_overlay (lower upper : Members Key Value) (key : Key) :
    contains (overlay lower upper) key = (contains lower key || contains upper key) := by
  rw [Bool.eq_iff_iff, Bool.or_eq_true]
  simp only [contains, overlay, Option.isSome_iff_ne_none, ne_eq, get?_merge_eq_none_iff, not_and_or]

/-- An object over a value has the keys of both. -/
theorem contains_members_overlay {v : Value} {m : Members Key Value} {key : Key} :
    contains (Value.overlay .override v (.object m)).members key = (contains v.members key || contains m key) := by
  cases v with
  | object below => rw [Value.overlay_object, Value.members_object, ← overlay, contains_overlay, Value.members_object]
  | _ =>
    rw [Value.overlay_override_of_not_object fun _ _ hobjects => Value.noConfusion hobjects.1]
    rfl

/-- Of distinct upper members each stands under its key, merged with what stood there. -/
theorem get?_merge_of_some {mode : MergeMode} {lower upper : Members Key Value} {key : Key} {v : Value}
    (hd : Distinct upper) (h : get? upper key = some v) :
    get? (merge mode lower upper) key = some (mergedAt mode lower key v) := by
  induction upper generalizing lower with
  | nil => cases h
  | cons entry rest ih =>
    obtain ⟨k, w⟩ := entry
    obtain ⟨hne, hd⟩ := distinct_cons.1 hd
    rw [get?_cons] at h
    rw [merge_cons]
    split at h
    · rename_i hk
      cases h
      have hrest : get? rest key = none := by
        refine get?_eq_none_iff.2 fun entry he => ?_
        rw [← BEq.congr_right hk, BEq.comm]
        exact hne entry he
      rw [get?_merge_of_none hrest, get?_set, if_pos hk]
      unfold mergedAt
      rw [get?_congr hk]
    · rename_i hk
      rw [ih hd h, mergedAt_congr]
      rw [get?_set, if_neg hk]

theorem get?_merge {mode : MergeMode} {lower upper : Members Key Value} (hd : Distinct upper) (key : Key) :
    get? (merge mode lower upper) key =
      match get? upper key with
      | some v => some (mergedAt mode lower key v)
      | none => get? lower key := by
  cases h : get? upper key with
  | none => exact get?_merge_of_none h
  | some v => exact get?_merge_of_some hd h

/-- What an overlay leaves under a key. -/
theorem get?_overlay (lower : Members Key Value) {upper : Members Key Value} (hd : Distinct upper) (key : Key) :
    get? (overlay lower upper) key =
      match get? upper key with
      | some v => some (mergedAt .override lower key v)
      | none => get? lower key :=
  get?_merge hd key

/-- Trees that have the same under a key still have it after parts of which each two have the same under it. -/
theorem get?_foldl_overlay_congr {key : Key} {parts parts' : List (Members Key Value)} {tree tree' : Members Key Value}
    (h : List.Forall₂ (fun part part' => Distinct part ∧ Distinct part' ∧ get? part key = get? part' key) parts parts')
    (htree : get? tree key = get? tree' key) : get? (parts.foldl overlay tree) key = get? (parts'.foldl overlay tree') key := by
  induction h generalizing tree tree' with
  | nil => exact htree
  | cons hpart _ ih =>
    obtain ⟨hd, hd', hsame⟩ := hpart
    refine ih ?_
    rw [get?_overlay _ hd, get?_overlay _ hd', ← hsame]
    split
    · rw [mergedAt_congr htree]
    · exact htree

/-- What the upper members have under a key lies over what the lower ones have under it. -/
theorem value_overlay (lower : Members Key Value) {upper : Members Key Value} (hd : Distinct upper) {key : Key} {v : Value}
    (h : get? upper key = some v) : value (overlay lower upper) key = Value.overlay .override (value lower key) v := by
  rw [overlay, value_of_get? (get?_merge_of_some hd h), mergedAt, value]
  cases get? lower key with
  | none => exact (Value.overlay_override_of_not_object fun _ _ hobjects => Value.noConfusion hobjects.1).symm
  | some old => rfl

/-- What an object has under a key lies over what a value beneath the object has under it. -/
theorem value_members_overlay (v : Value) {upper : Members Key Value} (hd : Distinct upper) {key : Key} {w : Value}
    (h : get? upper key = some w) :
    value (Value.overlay .override v (.object upper)).members key = Value.overlay .override (value v.members key) w := by
  cases v with
  | object below =>
    rw [Value.overlay_object, Value.members_object, Value.members_object]
    exact value_overlay below hd h
  | _ =>
    rw [Value.overlay_override_of_not_object fun _ _ hobjects => Value.noConfusion hobjects.1, Value.members_object,
      value_of_get? h]
    exact (Value.overlay_override_of_not_object fun _ _ hobjects => Value.noConfusion hobjects.1).symm

/-- What is no object replaces what it is laid over. -/
theorem get?_overlay_of_not_object (lower : Members Key Value) {upper : Members Key Value} (hd : Distinct upper) {key : Key}
    {v : Value} (h : get? upper key = some v) (hv : ∀ m, v ≠ .object m) : get? (overlay lower upper) key = some v := by
  rw [get?_overlay lower hd, h]
  simp only [mergedAt_of_not_object lower key hv]

/-- A text under a key of a merged object comes from one of the two objects. -/
theorem get?_merge_str {mode : MergeMode} {lower upper : Members Key Value} {key : Key} {s : String} (hd : Distinct upper)
    (h : get? (merge mode lower upper) key = some (.str s)) :
    get? upper key = some (.str s) ∨ get? upper key = none ∧ get? lower key = some (.str s) := by
  rw [get?_merge hd] at h
  cases hu : get? upper key with
  | none => exact .inr ⟨rfl, by rwa [hu] at h⟩
  | some v =>
    rw [hu] at h
    simp only [Option.some.injEq] at h
    refine .inl (congrArg some ?_)
    unfold mergedAt at h
    split at h
    · exact Value.overlay_eq_str h
    · exact h

theorem overlay_singleton (lower : Members Key Value) (key : Key) (v : Value) :
    overlay lower [(key, v)] = set lower key (mergedAt .override lower key v) := by
  rw [overlay, merge_cons, merge_nil]

/-- Every member of merged members has a property of the lower ones, if the upper ones have one that gives it, alone and over a
lower one. -/
theorem forall_merge_of {mode : MergeMode} {P Q : Key → Value → Prop} (hcongr : ∀ {k k' v}, (k == k') = true → P k v → P k' v)
    (hnew : ∀ {k v}, Q k v → P k v) (hoverlay : ∀ {k v w}, P k v → Q k w → P k (Value.overlay mode v w))
    {lower upper : Members Key Value} (hlower : ∀ entry ∈ lower, P entry.1 entry.2)
    (hupper : ∀ entry ∈ upper, Q entry.1 entry.2) : ∀ entry ∈ merge mode lower upper, P entry.1 entry.2 := by
  induction upper generalizing lower with
  | nil => rw [merge_nil]; exact hlower
  | cons head rest ih =>
    obtain ⟨key, v⟩ := head
    rw [merge_cons]
    have hv : Q key v := hupper _ List.mem_cons_self
    have hmerged : P key (mergedAt mode lower key v) := by
      cases hold : get? lower key with
      | none => rw [mergedAt_of_get?_none hold]; exact hnew hv
      | some old =>
        obtain ⟨k, hk, hm⟩ := exists_of_get? hold
        rw [mergedAt_of_get? hold]
        exact hoverlay (hcongr hk (hlower _ hm)) hv
    refine ih (fun entry he => ?_) fun entry he => hupper entry (List.mem_cons_of_mem _ he)
    rcases mem_set he with he | ⟨hk, hentry⟩
    · exact hlower entry he
    · rw [hentry]
      exact hcongr (by rw [BEq.comm]; exact hk) hmerged

/-- The same for members under names, of which the values have the properties. -/
theorem forall_merge_named {mode : MergeMode} {P Q : Value → Prop} (hnew : ∀ {v}, Q v → P v)
    (hoverlay : ∀ {v w}, P v → Q w → P (Value.overlay mode v w)) {lower upper : Members Key Value}
    (hlower : ∀ entry ∈ lower, (∃ name, entry.1 = .text name) ∧ P entry.2)
    (hupper : ∀ entry ∈ upper, (∃ name, entry.1 = .text name) ∧ Q entry.2) :
    ∀ entry ∈ merge mode lower upper, (∃ name, entry.1 = .text name) ∧ P entry.2 := by
  refine forall_merge_of (P := fun key v => (∃ name, key = .text name) ∧ P v)
    (Q := fun key v => (∃ name, key = .text name) ∧ Q v) ?_ (fun hv => ⟨hv.1, hnew hv.2⟩)
    (fun hv hw => ⟨hv.1, hoverlay hv.2 hw.2⟩) hlower hupper
  intro k k' v hk hv
  obtain ⟨⟨name, rfl⟩, hv⟩ := hv
  exact ⟨⟨name, Key.text_beq.1 hk⟩, hv⟩

/-- Members that are all new go behind the lower ones. -/
theorem merge_eq_append {mode : MergeMode} {lower upper : Members Key Value} (hd : Distinct upper)
    (hnew : ∀ entry ∈ upper, get? lower entry.1 = none) : merge mode lower upper = lower ++ upper := by
  induction upper generalizing lower with
  | nil => simp
  | cons entry rest ih =>
    obtain ⟨k, v⟩ := entry
    obtain ⟨hne, hd⟩ := distinct_cons.1 hd
    have hk : get? lower k = none := hnew (k, v) List.mem_cons_self
    rw [merge_cons, mergedAt_of_get?_none hk, set_of_get?_none v hk, ih hd]
    · simp
    · intro entry he
      rw [get?_append, hnew entry (List.mem_cons_of_mem _ he), get?_cons, if_neg (by simp [hne entry he])]
      rfl

/-- What the lower members become stands in their place if the upper members begin with it; the rest goes behind. -/
theorem merge_eq_upper {mode : MergeMode} (front : Members Key Value) {lower kept added : Members Key Value}
    (h : Aligned (fun _ v w => Value.overlay mode v w = w) lower kept) (hd : Distinct (front ++ kept ++ added)) :
    merge mode (front ++ lower) (kept ++ added) = front ++ kept ++ added := by
  unfold Aligned at h
  induction h generalizing front with
  | nil =>
    rw [List.append_nil] at hd ⊢
    obtain ⟨-, hadded, hnew⟩ := distinct_append.1 hd
    exact merge_eq_append hadded hnew
  | @cons a b lower kept hab _ ih =>
    obtain ⟨key, v⟩ := a
    obtain ⟨_, w⟩ := b
    obtain ⟨rfl, hvw⟩ := hab
    have hfront : get? front key = none := by
      rw [List.append_assoc, List.cons_append] at hd
      exact get?_eq_none_iff.2 (distinct_split hd).1
    have hfind : get? (front ++ (key, v) :: lower) key = some v := by
      rw [get?_append, hfront, get?_cons, if_pos BEq.rfl]
      rfl
    -- the first entry joins those that are done
    have hset : set (front ++ (key, v) :: lower) key w = front ++ [(key, w)] ++ lower := by
      rw [set_append_of_get?_none _ _ hfront, set, if_pos BEq.rfl, List.append_assoc]
      rfl
    have hdone : front ++ (key, w) :: kept ++ added = front ++ [(key, w)] ++ kept ++ added := by
      simp only [List.append_assoc, List.cons_append, List.nil_append]
    rw [List.cons_append, merge_cons, mergedAt_of_get? hfind, hvw, hset, hdone]
    rw [hdone] at hd
    exact ih _ hd

/-- Distinct members over nothing are themselves. -/
theorem overlay_nil_left {upper : Members Key Value} (hd : Distinct upper) : overlay [] upper = upper := by
  rw [overlay, merge_eq_append hd (fun _ _ => rfl)]
  rfl

end Members

/-- Members that are laid over those that are given, or over none. -/
theorem Value.givenMembers_overlay {v : Value} {given made : Members Key Value} (h : v.givenMembers = .ok given)
    (hd : Members.Distinct made) : (overlay .override v (.object made)).givenMembers = .ok (given.overlay made) := by
  have hgiven := givenMembers_eq_ok h
  cases v with
  | object below =>
    rw [overlay_object, givenMembers_object, hgiven]
    rfl
  | _ =>
    rw [overlay_override_of_not_object fun _ _ hobjects => Value.noConfusion hobjects.1, givenMembers_object, hgiven]
    exact congrArg Except.ok (Members.overlay_nil_left hd).symm

/-- The same under a key, where members are only laid over others if there are any. -/
theorem Members.givenMembers_overlay {lower upper given made : Members Key Value} {key : Key} (hd : Distinct upper)
    (hmade : Distinct made) (hupper : get? upper key = if made.isEmpty then none else some (.object made))
    (hgiven : (lower.value key).givenMembers = .ok given) :
    ((lower.overlay upper).value key).givenMembers = .ok (given.overlay made) := by
  cases made with
  | nil =>
    rw [overlay, value_congr (get?_merge_of_none hupper), hgiven, overlay, merge_nil]
  | cons first rest =>
    rw [value_overlay lower hd hupper]
    exact Value.givenMembers_overlay hgiven hmade

/-! ## Values that are given -/

/-- What is laid over a value is given afterwards, if it was given before. -/
theorem Value.truthy_overlay {v w : Value} (h : w.truthy = true) : (overlay .override v w).truthy = true := by
  by_cases hobjects : ∃ m m', v = .object m ∧ w = .object m'
  · obtain ⟨m, m', rfl, rfl⟩ := hobjects
    rw [overlay_object]
    cases m' with
    | nil => simp [truthy] at h
    | cons entry rest =>
      have hkept : Members.get? (Members.merge .override m (entry :: rest)) entry.1 ≠ none := fun hnone => by
        have hnew := (Members.get?_merge_eq_none_iff.1 hnone).2
        rw [Members.get?_cons, if_pos BEq.rfl] at hnew
        cases hnew
      cases hmerged : Members.merge .override m (entry :: rest) with
      | nil => rw [hmerged] at hkept; exact absurd rfl hkept
      | cons => rfl
  · rwa [overlay_override_of_not_object fun m m' hboth => hobjects ⟨m, m', hboth⟩]

/-- What members have under a key is given under it, over whatever other members. -/
theorem Members.truthy_overlay (lower : Members Key Value) {upper : Members Key Value} (hd : Distinct upper) {key : Key}
    (h : (upper.value key).truthy = true) : ((lower.overlay upper).value key).truthy = true := by
  cases hget : get? upper key with
  | none =>
    rw [value, hget] at h
    cases h
  | some v =>
    rw [value_of_get? hget] at h
    rw [value, get?_overlay lower hd, hget]
    simp only [mergedAt]
    split
    · exact Value.truthy_overlay h
    · exact h

end EntitySchema
