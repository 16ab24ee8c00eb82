import EntitySchema.Proofs.Tree.Overlay
import EntitySchema.Proofs.Tree.Unset

/-!
# What stands at a place

A place in a tree is a path from its root. What stands there after a fragment was laid over the tree is what stood there, if
the fragment leaves the place alone, and what the fragment writes there, if that is no object. A removal leaves a place alone
if its path turns off before.

* `Stands`: what stands at a place of a tree.
* `Value.Spares`: a fragment that leaves a place alone.
* `Value.Writes`: a fragment that has a value for a place.
* `Path.Leaves`: a path that turns off from another one.

Results:
* `Stands.overlay`, `Stands.unset`: what leaves a place alone.
* `Stands.exists_unset`: a removal further below a place leaves something there.
* `stands_overlay_of_writes`: a text that a fragment writes.
-/
namespace EntitySchema

/-! ## Fragments -/

/-- A value that leaves a place alone: an object of which nothing stands at the place or above it. -/
def Value.Spares : Value → Path → Prop
  | _, [] => False
  | v, key :: rest => ∃ m, v = .object m ∧ ∀ entry ∈ m, (entry.1 == key) = true → entry.2.Spares rest

/-- A value that has another one for a place, in objects of different keys. -/
def Value.Writes : Value → Path → Value → Prop
  | v, [], w => v = w
  | v, key :: rest, w =>
    ∃ m below, v = .object m ∧ Members.Distinct m ∧ Members.get? m key = some below ∧ below.Writes rest w

namespace Value

variable {v w : Value} {key : Key} {rest path : Path}

theorem at?_cons_eq_some : v.at? (key :: rest) = some w ↔
    ∃ m below, v = .object m ∧ Members.get? m key = some below ∧ below.at? rest = some w := by
  cases v with
  | object m => simp [at?, Option.bind_eq_some_iff]
  | _ => simp [at?]

theorem spares_of_get?_none {m : Members Key Value} (h : Members.get? m key = none) : (object m).Spares (key :: rest) := by
  refine ⟨m, rfl, fun entry he hkey => ?_⟩
  rw [Members.get?_eq_none_iff.1 h entry he] at hkey
  cases hkey

theorem spares_singleton {k : Key} (h : (k == key) = true → v.Spares rest) : (object [(k, v)]).Spares (key :: rest) := by
  refine ⟨_, rfl, fun entry he hkey => ?_⟩
  rw [List.mem_singleton] at he
  subst he
  exact h hkey

theorem Writes.singleton (h : v.Writes rest w) (key : Key) : (object [(key, v)]).Writes (key :: rest) w :=
  ⟨_, v, rfl, Members.distinct_singleton _ _, Members.get?_singleton _ _, h⟩

theorem Writes.at? (h : v.Writes path w) : v.at? path = some w := by
  induction path generalizing v with
  | nil => exact congrArg some h
  | cons key rest ih =>
    obtain ⟨m, below, rfl, -, hget, hbelow⟩ := h
    exact at?_cons_eq_some.2 ⟨m, below, rfl, hget, ih hbelow⟩

/-- A fragment that leaves a place alone changes nothing there. -/
theorem at?_overlay_of_spares {lower upper : Value} (h : upper.Spares path) (hv : lower.at? path = some w) :
    (overlay .override lower upper).at? path = some w := by
  induction path generalizing lower upper with
  | nil => exact h.elim
  | cons key rest ih =>
    obtain ⟨more, rfl, hmore⟩ := h
    obtain ⟨m, below, rfl, hget, hbelow⟩ := at?_cons_eq_some.1 hv
    rw [overlay_object]
    -- entry by entry: one under the key goes on below, any other one leaves it as it is
    suffices hmerged : ∃ below, Members.get? (Members.merge .override m more) key = some below ∧ below.at? rest = some w by
      obtain ⟨below, hget, hbelow⟩ := hmerged
      exact at?_cons_eq_some.2 ⟨_, below, rfl, hget, hbelow⟩
    clear hv
    induction more generalizing m below with
    | nil => exact ⟨below, by rw [Members.merge_nil, hget], hbelow⟩
    | cons entry others ihmore =>
      obtain ⟨k, u⟩ := entry
      obtain ⟨hentry, hothers⟩ := List.forall_mem_cons.1 hmore
      rw [Members.merge_cons]
      by_cases hk : (k == key) = true
      · have hold : Members.get? m k = some below := by rw [Members.get?_congr hk, hget]
        rw [Members.mergedAt_of_get? hold]
        exact ihmore hothers _ (overlay .override below u) (by rw [Members.get?_set, if_pos hk]) (ih (hentry hk) hbelow)
      · exact ihmore hothers _ below (by rw [Members.get?_set, if_neg hk, hget]) hbelow

/-- What a fragment has for a place stands there afterwards, unless both have an object there. -/
theorem at?_overlay_of_writes (lower : Value) {upper : Value} (h : upper.Writes path w) (hw : ∀ m, w ≠ .object m) :
    (overlay .override lower upper).at? path = some w := by
  induction path generalizing lower upper with
  | nil =>
    obtain rfl : upper = w := h
    rw [overlay_override_of_not_object fun _ m hobjects => hw m hobjects.2]
    rfl
  | cons key rest ih =>
    obtain ⟨more, below, rfl, hd, hget, hbelow⟩ := h
    by_cases hlower : ∃ m, lower = .object m
    · obtain ⟨m, rfl⟩ := hlower
      rw [overlay_object]
      refine at?_cons_eq_some.2 ⟨_, _, rfl, Members.get?_merge_of_some hd hget, ?_⟩
      unfold Members.mergedAt
      split
      · exact ih _ hbelow
      · exact hbelow.at?
    · rw [overlay_override_of_not_object fun m _ hobjects => hlower ⟨m, hobjects.1⟩]
      exact at?_cons_eq_some.2 ⟨more, below, rfl, hget, hbelow.at?⟩

end Value

/-! ## Removals -/

/-- A path that turns off from another one before either ends. -/
def Path.Leaves : Path → Path → Prop
  | k :: p, k' :: q => (k == k') = true → Path.Leaves p q
  | _, _ => False

/-- A removal whose path turns off from a place changes nothing there. -/
theorem Members.at?_unset_of_leaves {p q : Path} (m : Members Key Value) (h : p.Leaves q) :
    (Value.object (unset m p)).at? q = (Value.object m).at? q := by
  induction p generalizing m q with
  | nil => exact h.elim
  | cons k rest ih =>
    cases q with
    | nil => exact h.elim
    | cons k' rest' =>
      cases rest with
      | nil =>
        have hne : ¬(k == k') = true := fun hk => by
          have hend := h hk
          cases rest' <;> exact hend.elim
        show (get? (erase m k) k').bind _ = (get? m k').bind _
        rw [get?_erase, if_neg hne]
      | cons next more =>
        rw [unset_cons_cons]
        split
        · rename_i below hbelow
          show (get? (set m k _) k').bind _ = (get? m k').bind _
          rw [get?_set]
          by_cases hk : (k == k') = true
          · rw [if_pos hk, ← get?_congr hk, hbelow]
            exact ih below (h hk)
          · rw [if_neg hk]
        · rfl

/-! ## Trees -/

/-- What stands at a place of a tree. -/
def Stands (tree : Members Key Value) (path : Path) (v : Value) : Prop :=
  (Value.object tree).at? path = some v

section
variable {tree fragment : Members Key Value} {path : Path} {v : Value}

theorem Stands.overlay (h : Stands tree path v) (hspares : (Value.object fragment).Spares path) :
    Stands (tree.overlay fragment) path v := by
  have hat := Value.at?_overlay_of_spares hspares h
  rwa [Value.overlay_object] at hat

theorem Stands.unset (h : Stands tree path v) {p : Path} (hleaves : p.Leaves path) : Stands (tree.unset p) path v :=
  (Members.at?_unset_of_leaves tree hleaves).trans h

/-- A removal by a longer path leaves something at a place, perhaps with less below it. -/
theorem Stands.exists_unset (h : Stands tree path v) {p : Path} (hlength : path.length < p.length) :
    ∃ w, Stands (tree.unset p) path w := by
  unfold Stands at h ⊢
  induction p generalizing tree path with
  | nil => exact absurd hlength (Nat.not_lt_zero _)
  | cons k rest ih =>
    cases path with
    | nil => exact ⟨_, rfl⟩
    | cons key more =>
      cases rest with
      | nil => simp at hlength
      | cons next others =>
        rw [Members.unset_cons_cons]
        split
        · rename_i below hbelow
          obtain ⟨_, old, hobject, hold, h⟩ := Value.at?_cons_eq_some.1 h
          cases hobject
          by_cases hk : (k == key) = true
          · obtain rfl : .object below = old := Option.some.inj (by rw [← hbelow, Members.get?_congr hk, hold])
            obtain ⟨w, hw⟩ := ih h (Nat.lt_of_succ_lt_succ hlength)
            exact ⟨w, Value.at?_cons_eq_some.2 ⟨_, _, rfl, by rw [Members.get?_set, if_pos hk], hw⟩⟩
          · exact ⟨v, Value.at?_cons_eq_some.2 ⟨_, old, rfl, by rw [Members.get?_set, if_neg hk, hold], h⟩⟩
        · exact ⟨v, h⟩

theorem stands_overlay_of_writes (tree : Members Key Value) (h : (Value.object fragment).Writes path v)
    (hv : ∀ m, v ≠ .object m) : Stands (tree.overlay fragment) path v := by
  have hat := Value.at?_overlay_of_writes (.object tree) h hv
  rwa [Value.overlay_object] at hat

theorem stands_cons {key : Key} {rest : Path} :
    Stands tree (key :: rest) v ↔ ∃ below, Members.get? tree key = some below ∧ below.at? rest = some v := by
  unfold Stands
  rw [Value.at?_cons_eq_some]
  constructor
  · rintro ⟨m, below, hm, hget, hbelow⟩
    cases hm
    exact ⟨below, hget, hbelow⟩
  · rintro ⟨below, hget, hbelow⟩
    exact ⟨tree, below, rfl, hget, hbelow⟩

end

end EntitySchema
