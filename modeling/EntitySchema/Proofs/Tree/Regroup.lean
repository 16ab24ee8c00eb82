import EntitySchema.Proofs.Tree.Places
import Mathlib.Data.List.Induction
import Mathlib.Data.List.Triplewise

/-!
# Fragments merged in groups

Fragments are merged from the first to the last. They may also be merged in groups, each on its own and then one group after the
other, if no three of them are broken: no fragment has at some place something else than what an earlier and a later one would
join there. What a merged group has at a place is of a kind that one of its fragments has there, so the condition on fragments
carries over to groups.

* `Unbroken`: three trees of which the middle one nowhere comes between two that are joined.

Results:
* `merge_assoc`: three trees, of which the first two or the last two are merged first.
* `exists_kind_of_at?_foldl`: what merged fragments have at a place.
* `merge_mergeAll`: fragments that are merged before they are laid over a tree.
* `mergeAll_groups`: fragments merged in groups.
-/
namespace EntitySchema.Members

variable {mode : MergeMode} {a b c x : Members Key Value} {xs ys : List (Members Key Value)}

/-- Three trees of which the middle one has, wherever the outer ones are joined, something of the same kind or nothing. -/
abbrev Unbroken (mode : MergeMode) (a b c : Members Key Value) : Prop :=
  Value.Unbroken mode (.object a) (.object b) (.object c)

/-- Of three unbroken trees the first two or the last two may be merged first. -/
theorem merge_assoc (hb : (Value.object b).UniqueKeys) (hc : (Value.object c).UniqueKeys) (h : Unbroken mode a b c) :
    merge mode (merge mode a b) c = merge mode a (merge mode b c) := by
  have hassoc := Value.overlay_assoc hb hc h
  simp only [Value.overlay_object] at hassoc
  exact Value.object.inj hassoc

theorem uniqueKeys_merge (ha : (Value.object a).UniqueKeys) (hb : (Value.object b).UniqueKeys) :
    (Value.object (merge mode a b)).UniqueKeys := by
  rw [← Value.overlay_object]
  exact Value.uniqueKeys_overlay ha hb

theorem uniqueKeys_foldl_merge (ha : (Value.object a).UniqueKeys) (hxs : ∀ x ∈ xs, (Value.object x).UniqueKeys) :
    (Value.object (xs.foldl (merge mode) a)).UniqueKeys :=
  List.foldlRecOn (motive := fun acc => (Value.object acc).UniqueKeys) xs _ ha fun _ hacc x hx =>
    uniqueKeys_merge hacc (hxs x hx)

/-! ## What merged fragments have at a place -/

/-- What merged fragments have at a place is of a kind that one of them has there. -/
theorem exists_kind_of_at?_foldl (hxs : ∀ x ∈ xs, (Value.object x).UniqueKeys) {path : Path} {v : Value}
    (h : (Value.object (xs.foldl (merge mode) a)).at? path = some v) :
    ∃ x ∈ a :: xs, ∃ w, (Value.object x).at? path = some w ∧ w.kind = v.kind := by
  induction xs generalizing a with
  | nil => exact ⟨a, List.mem_singleton_self a, v, h, rfl⟩
  | cons x rest ih =>
    obtain ⟨hx, hrest⟩ := List.forall_mem_cons.1 hxs
    obtain ⟨y, hy, w, hw, hkind⟩ := ih hrest h
    rcases List.mem_cons.1 hy with rfl | hy
    · -- found in the first two together, so in one of them
      rw [← Value.overlay_object] at hw
      obtain ⟨u, hu, hsame⟩ := Value.exists_kind_of_at?_overlay hx hw
      rcases hu with hu | hu
      · exact ⟨a, List.mem_cons_self, u, hu, hsame.trans hkind⟩
      · exact ⟨x, by simp, u, hu, hsame.trans hkind⟩
    · exact ⟨y, by simp [hy], w, hw, hkind⟩

/-- Merged fragments come before two trees as each of the fragments does. -/
theorem Unbroken.foldl_first (hxs : ∀ x ∈ xs, (Value.object x).UniqueKeys) (h : ∀ x ∈ a :: xs, Unbroken mode x b c) :
    Unbroken mode (xs.foldl (merge mode) a) b c := by
  intro path u v w hu hv hw hjoined
  obtain ⟨x, hx, u', hu', hkind⟩ := exists_kind_of_at?_foldl hxs hu
  exact h x hx path u' v w hu' hv hw ⟨hkind.trans hjoined.1, hjoined.2⟩

/-- Merged fragments stand between two trees as each of the fragments does. -/
theorem Unbroken.foldl_middle (hxs : ∀ x ∈ xs, (Value.object x).UniqueKeys) (h : ∀ x ∈ b :: xs, Unbroken mode a x c) :
    Unbroken mode a (xs.foldl (merge mode) b) c := by
  intro path u v w hu hv hw hjoined
  obtain ⟨x, hx, v', hv', hkind⟩ := exists_kind_of_at?_foldl hxs hv
  rw [← hkind]
  exact h x hx path u v' w hu hv' hw hjoined

/-- Nothing is in the way of what has nothing but its root before it. -/
theorem unbroken_nil_first : Unbroken mode [] b c := by
  intro path u v w hu hv hw hjoined
  cases path with
  | nil => cases hv; cases hw; rfl
  | cons key rest => cases hu

theorem unbroken_nil_middle : Unbroken mode a [] c := by
  intro path u v w hu hv hw hjoined
  cases path with
  | nil => cases hv; cases hw; rfl
  | cons key rest => cases hv

/-! ## Groups -/

/-- Fragments may be merged with each other before they are laid over a tree. -/
theorem merge_mergeAll (hxs : ∀ x ∈ xs, (Value.object x).UniqueKeys) (h : xs.Pairwise (Unbroken mode a)) :
    merge mode a (mergeAll mode xs) = xs.foldl (merge mode) a := by
  induction xs using List.reverseRecOn with
  | nil => exact merge_nil mode a
  | append_singleton xs x ih =>
    have hinit : ∀ y ∈ xs, (Value.object y).UniqueKeys := fun y hy => hxs y (List.mem_append_left _ hy)
    have hlast : (Value.object x).UniqueKeys := hxs x (by simp)
    obtain ⟨hpairs, -, hbefore⟩ := List.pairwise_append.1 h
    have hmiddle : Unbroken mode a (mergeAll mode xs) x := by
      refine Unbroken.foldl_middle hinit (List.forall_mem_cons.2 ⟨unbroken_nil_middle, fun y hy => ?_⟩)
      exact hbefore y hy x (List.mem_singleton_self x)
    calc merge mode a (mergeAll mode (xs ++ [x]))
        = merge mode a (merge mode (mergeAll mode xs) x) := by rw [mergeAll_append]; rfl
      _ = merge mode (merge mode a (mergeAll mode xs)) x :=
          (merge_assoc (uniqueKeys_foldl_merge Value.uniqueKeys_nil hinit) hlast hmiddle).symm
      _ = (xs ++ [x]).foldl (merge mode) a := by rw [ih hinit hpairs, List.foldl_append]; rfl

/-- Fragments that are merged into one leave what comes after them unbroken. -/
theorem triplewise_foldl (hxs : ∀ x ∈ xs, (Value.object x).UniqueKeys)
    (h : (a :: (xs ++ ys)).Triplewise (Unbroken mode)) : (xs.foldl (merge mode) a :: ys).Triplewise (Unbroken mode) := by
  obtain ⟨hpairs, htriples⟩ := List.triplewise_cons.1 h
  obtain ⟨-, hys, hfirst, -⟩ := List.triplewise_append.1 htriples
  refine List.triplewise_cons.2 ⟨List.pairwise_iff_forall_sublist.2 fun {b c} hbc => ?_, hys⟩
  refine Unbroken.foldl_first hxs (List.forall_mem_cons.2 ⟨?_, fun x hx => ?_⟩)
  · exact List.pairwise_iff_forall_sublist.1 hpairs (hbc.trans (List.sublist_append_right xs ys))
  · exact List.pairwise_iff_forall_sublist.1 (hfirst x hx) hbc

/-- Groups that are merged one after the other, each on its own before, are merged fragment by fragment. -/
theorem foldl_mergeAll {groups : List (List (Members Key Value))}
    (hunique : ∀ x ∈ groups.flatten, (Value.object x).UniqueKeys)
    (h : (a :: groups.flatten).Triplewise (Unbroken mode)) :
    (groups.map (mergeAll mode)).foldl (merge mode) a = groups.flatten.foldl (merge mode) a := by
  induction groups generalizing a with
  | nil => rfl
  | cons group rest ih =>
    rw [List.flatten_cons] at hunique h
    have hgroup : ∀ x ∈ group, (Value.object x).UniqueKeys := fun x hx => hunique x (List.mem_append_left _ hx)
    have hpairs : group.Pairwise (Unbroken mode a) := (List.pairwise_append.1 (List.triplewise_cons.1 h).1).1
    rw [List.map_cons, List.foldl_cons, merge_mergeAll hgroup hpairs, List.flatten_cons, List.foldl_append]
    exact ih (fun x hx => hunique x (List.mem_append_right _ hx)) (triplewise_foldl hgroup h)

/-- Trees that are not broken may be merged in either order, and fragments of which no three are broken in any groups. -/
theorem mergeAll_groups (mode : MergeMode) :
    (∀ a b c : Members Key Value, (Value.object b).UniqueKeys → (Value.object c).UniqueKeys → Unbroken mode a b c →
      merge mode (merge mode a b) c = merge mode a (merge mode b c)) ∧
    ∀ groups : List (List (Members Key Value)), (∀ fragment ∈ groups.flatten, (Value.object fragment).UniqueKeys) →
      groups.flatten.Triplewise (Unbroken mode) →
        mergeAll mode (groups.map (mergeAll mode)) = mergeAll mode groups.flatten := by
  refine ⟨fun a b c hb hc h => merge_assoc hb hc h, fun groups hunique h => ?_⟩
  have hroot : groups.flatten.Pairwise (Unbroken mode []) := List.pairwise_of_forall fun _ _ => unbroken_nil_first
  exact foldl_mergeAll hunique (List.triplewise_cons.2 ⟨hroot, h⟩)

/-- Two fields of an entity and a list of columns. -/
def ownColumns : Members Key Value :=
  [("Account", .object [("fields", .object [("id", .object [("type", .str "id")]), ("code", .null)]),
    ("columns", .list [.str "id"]), ("relations", .object [])])]

/-- Another field, an object for one that was null, and null for the relations. -/
def namedColumns : Members Key Value :=
  [("Account", .object [("fields", .object [("name", .object [("type", .str "varchar")]), ("code", .object [])]),
    ("relations", .null)])]

/-- A length for the other field, a type for the object, and more columns. -/
def longColumns : Members Key Value :=
  [("Account", .object [("columns", .list [.str "name"]),
    ("fields", .object [("name", .object [("len", .int 100)]), ("code", .object [("type", .str "int")])])])]

theorem mergeAll_groups_ownColumns : (∀ fragment ∈ [ownColumns, namedColumns, longColumns], (Value.object fragment).UniqueKeys) ∧
    [ownColumns, namedColumns, longColumns].Triplewise (Unbroken .append) ∧
      mergeAll .append [mergeAll .append [ownColumns], mergeAll .append [namedColumns, longColumns]] =
        mergeAll .append [ownColumns, namedColumns, longColumns] := by
  have hunique : ∀ fragment ∈ [ownColumns, namedColumns, longColumns], (Value.object fragment).UniqueKeys := by decide
  have htriple : [ownColumns, namedColumns, longColumns].Triplewise (Unbroken .append) :=
    List.triplewise_triple.2 (Value.unbroken_of_isUnbroken (by decide))
  exact ⟨hunique, htriple, (mergeAll_groups .append).2 [[ownColumns], [namedColumns, longColumns]] hunique htriple⟩

end EntitySchema.Members
