import EntitySchema.Proofs.Run
import EntitySchema.Proofs.Tree.Assoc
import EntitySchema.Proofs.Tree.Unset
import EntitySchema.Tree.WrittenPath

/-!
# Places of a tree from which paths were taken away

To take a path away is to take away what stands at its end and everything below. So of several paths that are taken away one after
the other nothing is left at a place where one of them ends, or below one; everywhere else things are as they were, but for the
members that are gone further below. In which order the paths come, and how often one comes, makes no difference.

* `Path.cuts`: whether a path that is no empty one ends at a place or above it.
* `Path.below`: what paths go on with below a place.
* `Members.descend`: an object in which one member that is an object was changed.
* `LeftAt`: what is left at a place of a tree from which paths were taken away.
* `WrittenPath.path?`: the path that is written, if each of its steps is a key.

Results:
* `at?_unsetAll`: what a path leads to afterwards.
* `keys_unsetAll`: the keys that are left and their order.
* `unset_comm`, `unset_unset`: two paths may be taken away in either order, and one of them twice.
* `unsetAll_congr`: only which paths are taken away matters.
* `leftAt_unsetListed`: all of it, for paths as they are written.
-/
namespace EntitySchema

/-! ## Paths and places -/

namespace Path

variable {paths : List Path}

/-- Whether one of the paths, the empty one apart, ends at a place or above it. -/
def cuts (paths : List Path) (place : Path) : Bool :=
  paths.any fun path => !path.isEmpty && path.isPrefixOf place

/-- What a path goes on with behind a key that it begins with. -/
def behind? (key : Key) : Path → Option Path
  | [] => none
  | first :: rest => if first == key then some rest else none

/-- What those paths go on with that lead to a place. -/
def below : Path → List Path → List Path
  | [], paths => paths
  | key :: rest, paths => below rest (paths.filterMap (behind? key))

@[simp] theorem cuts_nil_right (paths : List Path) : cuts paths [] = false := by
  refine List.any_eq_false.2 fun path _ => ?_
  cases path <;> simp

/-- A place below a key is cut by the key itself, or by what goes on behind it. -/
theorem cuts_cons (paths : List Path) (key : Key) (rest : Path) :
    cuts paths (key :: rest) =
      ((paths.filterMap (behind? key)).any List.isEmpty || cuts (paths.filterMap (behind? key)) rest) := by
  induction paths with
  | nil => rfl
  | cons path others ih =>
    have hcons : ∀ (first : Path) (more : List Path) (place : Path),
        cuts (first :: more) place = (!first.isEmpty && first.isPrefixOf place || cuts more place) := fun _ _ _ => rfl
    rw [hcons, ih]
    cases path with
    | nil => rw [List.filterMap_cons_none rfl]; rfl
    | cons first more =>
      rw [List.isPrefixOf_cons_cons]
      by_cases hkey : (first == key) = true
      · rw [List.filterMap_cons_some (b := more) (by simp [behind?, hkey]), List.any_cons, hcons, hkey]
        cases more <;> simp [Bool.or_left_comm]
      · rw [List.filterMap_cons_none (by simp [behind?, hkey])]
        simp [hkey]

/-- A place below another one is cut above the other one or behind it. -/
theorem cuts_append (paths : List Path) (place more : Path) :
    cuts paths (place ++ more) = (cuts paths place || cuts (below place paths) more) := by
  induction place generalizing paths with
  | nil => rw [cuts_nil_right]; rfl
  | cons key rest ih => rw [List.cons_append, cuts_cons, cuts_cons, ih, below, Bool.or_assoc]

end Path

/-! ## One member -/

/-- A value of which the members were changed, if it is an object. -/
def Value.onMembers (f : Members Key Value → Members Key Value) : Value → Value
  | .object m => .object (f m)
  | v => v

theorem Value.onMembers_id : onMembers (fun m => m) = id :=
  funext fun v => by cases v <;> rfl

theorem Value.onMembers_comp (f g : Members Key Value → Members Key Value) : onMembers g ∘ onMembers f = onMembers (g ∘ f) :=
  funext fun v => by cases v <;> rfl

namespace Members

variable {m : Members Key Value} {k key : Key} {f g : Members Key Value → Members Key Value}

/-- The members after the one under a key was changed below, if it is an object. -/
def descend (m : Members Key Value) (key : Key) (f : Members Key Value → Members Key Value) : Members Key Value :=
  match get? m key with
  | some (.object below) => set m key (.object (f below))
  | _ => m

theorem unset_eq_descend (m : Members Key Value) (key next : Key) (rest : Path) :
    unset m (key :: next :: rest) = descend m key (unset · (next :: rest)) :=
  unset_cons_cons m key next rest

theorem descend_of_object {below : Members Key Value} (h : get? m key = some (.object below)) :
    descend m key f = set m key (.object (f below)) := by
  rw [descend, h]

theorem descend_of_not_object (h : ∀ below, get? m key ≠ some (.object below)) : descend m key f = m := by
  unfold descend
  split
  · rename_i below hbelow
    exact absurd hbelow (h below)
  · rfl

theorem get?_descend (m : Members Key Value) (k : Key) (f : Members Key Value → Members Key Value) (key : Key) :
    get? (descend m k f) key = if k == key then (get? m key).map (Value.onMembers f) else get? m key := by
  by_cases hobject : ∃ below, get? m k = some (.object below)
  · obtain ⟨below, hbelow⟩ := hobject
    rw [descend_of_object hbelow, get?_set]
    split
    · rename_i hkey
      rw [← get?_congr hkey, hbelow]
      rfl
    · rfl
  · rw [descend_of_not_object fun below hbelow => hobject ⟨below, hbelow⟩]
    split
    · rename_i hkey
      rw [← get?_congr hkey]
      cases hget : get? m k with
      | none => rfl
      | some v => cases v <;> first | rfl | exact absurd ⟨_, hget⟩ hobject
    · rfl

theorem keys_descend (m : Members Key Value) (key : Key) (f : Members Key Value → Members Key Value) :
    keys (descend m key f) = keys m := by
  unfold descend
  split
  · rename_i below hbelow
    rw [keys_set, if_pos (by rw [contains, hbelow]; rfl)]
  · rfl

/-- A member that is there is changed under either spelling of its key. -/
theorem descend_congr (h : (k == key) = true) : descend m k f = descend m key f := by
  unfold descend
  rw [get?_congr h]
  split
  · rename_i below hbelow
    have hsame : set m k (.object below) = m := set_of_get? (by rw [get?_congr h, hbelow])
    rw [← set_set_of_beq h (.object below), hsame]
  · rfl

/-- A member that is changed twice. -/
theorem descend_descend (h : (k == key) = true) : descend (descend m k f) key g = descend m k (g ∘ f) := by
  by_cases hobject : ∃ below, get? m k = some (.object below)
  · obtain ⟨below, hbelow⟩ := hobject
    have hchanged : get? (descend m k f) key = some (.object (f below)) := by
      rw [get?_descend, if_pos h, ← get?_congr h, hbelow]
      rfl
    rw [descend_of_object hchanged, descend_of_object hbelow, descend_of_object hbelow, set_set_of_beq h]
    rfl
  · have hsame : ∀ f, descend m k f = m := fun f => descend_of_not_object fun below hbelow => hobject ⟨below, hbelow⟩
    rw [hsame, hsame, descend_of_not_object]
    exact fun below hbelow => hobject ⟨below, by rw [get?_congr h, hbelow]⟩

/-- Two members may be changed in either order. -/
theorem descend_comm (h : (k == key) = false) : descend (descend m k f) key g = descend (descend m key g) k f := by
  have h' : (key == k) = false := by rw [BEq.comm, h]
  have hkey : get? (descend m k f) key = get? m key := by simp [get?_descend, h]
  have hk : get? (descend m key g) k = get? m k := by simp [get?_descend, h']
  by_cases hobjects : (∃ below, get? m k = some (.object below)) ∧ ∃ below, get? m key = some (.object below)
  · obtain ⟨⟨below, hbelow⟩, other, hother⟩ := hobjects
    rw [descend_of_object (hkey.trans hother), descend_of_object (hk.trans hbelow), descend_of_object hbelow,
      descend_of_object hother, set_comm h (by rw [contains, hother]; rfl)]
  · rw [not_and_or, not_exists, not_exists] at hobjects
    rcases hobjects with hnone | hnone
    · have hleft : descend m k f = m := descend_of_not_object hnone
      have hright : descend (descend m key g) k f = descend m key g := descend_of_not_object (by rwa [hk])
      rw [hleft, hright]
    · have hleft : descend (descend m k f) key g = descend m k f := descend_of_not_object (by rwa [hkey])
      have hright : descend m key g = m := descend_of_not_object hnone
      rw [hleft, hright]

/-- To change a member that is taken away makes no difference. -/
theorem erase_descend_of_beq (h : (k == key) = true) : erase (descend m k f) key = erase m key := by
  unfold descend
  split
  · rename_i below hbelow
    unfold erase
    refine filter_set (p := fun one => !(one == key)) m (fun one hone => ?_) _
    rw [BEq.trans hone h, Bool.not_true]
  · rfl

theorem erase_set_of_ne {v : Value} (h : (k == key) = false) : erase (set m k v) key = set (erase m key) k v := by
  induction m with
  | nil => simp [set, erase, h]
  | cons entry rest ih =>
    obtain ⟨j, w⟩ := entry
    unfold erase at ih ⊢
    by_cases hk : (j == k) = true
    · have hkey : (j == key) = false := by rw [BEq.congr_left hk, h]
      simp [set, hk, hkey]
    · by_cases hkey : (j == key) = true
      · simp [set, hk, hkey, ih]
      · simp [set, hk, hkey, ih]

/-- A member may be taken away before or after another one is changed. -/
theorem erase_descend (h : (k == key) = false) : erase (descend m k f) key = descend (erase m key) k f := by
  have hsame : get? (erase m key) k = get? m k := by rw [get?_erase, if_neg (by rw [BEq.comm, h]; exact Bool.false_ne_true)]
  unfold descend
  rw [hsame]
  split
  · exact erase_set_of_ne h
  · rfl

/-! ## Two paths -/

/-- A key may be taken away before or after another path. -/
theorem unset_erase (m : Members Key Value) (key : Key) (path : Path) : unset (erase m key) path = erase (unset m path) key := by
  match path with
  | [] => rfl
  | [k] => exact List.filter_comm _ _ _
  | k :: next :: rest =>
    rw [unset_eq_descend, unset_eq_descend]
    cases hk : k == key with
    | false => exact (erase_descend hk).symm
    | true =>
      rw [erase_descend_of_beq hk, descend_of_not_object fun below hbelow => ?_]
      rw [get?_erase, if_pos (by rw [BEq.comm, hk])] at hbelow
      cases hbelow

/-- Two paths may be taken away in either order. -/
theorem unset_comm (m : Members Key Value) (p q : Path) : unset (unset m p) q = unset (unset m q) p := by
  induction p generalizing m q with
  | nil => rfl
  | cons k rest ih =>
    match rest, q with
    | [], q => exact unset_erase m k q
    | next :: rest, [] => rfl
    | next :: rest, [key] => exact (unset_erase m key _).symm
    | next :: rest, key :: next' :: rest' =>
      simp only [unset_eq_descend]
      cases hk : k == key with
      | false => exact descend_comm hk
      | true =>
        have hcomm : (unset · (next' :: rest')) ∘ (unset · (next :: rest)) =
            (unset · (next :: rest)) ∘ (unset · (next' :: rest')) := funext fun below => ih below (next' :: rest')
        rw [descend_descend hk, descend_descend (by rw [BEq.comm, hk]), hcomm, descend_congr hk]

/-- A path that was taken away leads nowhere. -/
theorem unset_unset (m : Members Key Value) (path : Path) : unset (unset m path) path = unset m path := by
  induction path generalizing m with
  | nil => rfl
  | cons key rest ih =>
    cases rest with
    | nil =>
      show erase (erase m key) key = erase m key
      unfold erase
      rw [List.filter_filter]
      simp only [Bool.and_self]
    | cons next more =>
      have hidem : (unset · (next :: more)) ∘ (unset · (next :: more)) = (unset · (next :: more)) := funext ih
      rw [unset_eq_descend, unset_eq_descend, descend_descend BEq.rfl, hidem]

/-! ## Several paths -/

variable {path : Path} {paths others : List Path}

/-- A path that is taken away anyway may be taken away before. -/
theorem unsetAll_unset (h : path ∈ paths) : unsetAll (unset m path) paths = unsetAll m paths := by
  induction paths generalizing m with
  | nil => cases h
  | cons first rest ih =>
    show unsetAll (unset (unset m path) first) rest = unsetAll (unset m first) rest
    rcases List.mem_cons.1 h with rfl | h
    · rw [unset_unset]
    · rw [unset_comm, ih h]

/-- Paths that are all taken away anyway may be taken away before. -/
theorem unsetAll_unsetAll (h : ∀ path ∈ others, path ∈ paths) : unsetAll (unsetAll m others) paths = unsetAll m paths := by
  induction others generalizing m with
  | nil => rfl
  | cons first rest ih =>
    obtain ⟨hfirst, hrest⟩ := List.forall_mem_cons.1 h
    show unsetAll (unsetAll (unset m first) rest) paths = _
    rw [ih hrest, unsetAll_unset hfirst]

theorem unsetAll_comm (m : Members Key Value) (paths others : List Path) :
    unsetAll (unsetAll m paths) others = unsetAll (unsetAll m others) paths := by
  unfold unsetAll
  rw [← List.foldl_append, ← List.foldl_append]
  exact List.perm_append_comm.foldl_eq' (fun p _ q _ m => unset_comm m p q) m

/-- Only which paths are taken away matters, not in which order and how often. -/
theorem unsetAll_congr (m : Members Key Value) (h : ∀ path, path ∈ others ↔ path ∈ paths) : unsetAll m others = unsetAll m paths :=
  calc unsetAll m others = unsetAll (unsetAll m paths) others := (unsetAll_unsetAll fun path => (h path).2).symm
    _ = unsetAll (unsetAll m others) paths := unsetAll_comm m paths others
    _ = unsetAll m paths := unsetAll_unsetAll fun path => (h path).1

/-! ## What is left -/

/-- What is found under a key after a path was taken away: nothing if the path is the key, else what was there, without what the
path goes on to if it begins with the key. -/
theorem get?_unset_eq (m : Members Key Value) (path : Path) (key : Key) :
    get? (unset m path) key =
      match Path.behind? key path with
      | none => get? m key
      | some [] => none
      | some (next :: rest) => (get? m key).map (Value.onMembers (unset · (next :: rest))) := by
  match path with
  | [] => rfl
  | [k] =>
    rw [unset, get?_erase]
    by_cases hk : (k == key) = true <;> simp [Path.behind?, hk]
  | k :: next :: rest =>
    rw [unset_eq_descend, get?_descend]
    by_cases hk : (k == key) = true <;> simp [Path.behind?, hk]

/-- What is found under a key after paths were taken away: nothing if one of them is the key, else what was there, without what
the paths go on to that begin with the key. -/
theorem get?_unsetAll (m : Members Key Value) (paths : List Path) (key : Key) :
    get? (unsetAll m paths) key =
      if (paths.filterMap (Path.behind? key)).any List.isEmpty then none
      else (get? m key).map (Value.onMembers (unsetAll · (paths.filterMap (Path.behind? key)))) := by
  induction paths generalizing m with
  | nil => simp [unsetAll, Value.onMembers_id]
  | cons first rest ih =>
    show get? (unsetAll (unset m first) rest) key = _
    rw [ih, get?_unset_eq]
    cases hfirst : Path.behind? key first with
    | none => rw [List.filterMap_cons_none hfirst]
    | some more =>
      rw [List.filterMap_cons_some hfirst]
      cases more with
      | nil => simp
      | cons next more =>
        simp only [List.any_cons, List.isEmpty_cons, Bool.false_or, Option.map_map, Value.onMembers_comp]
        rfl

/-- The keys that are left stand in their order. -/
theorem keys_unset (m : Members Key Value) (path : Path) :
    keys (unset m path) = (keys m).filter fun key => !Path.cuts [path] [key] := by
  match path with
  | [] => simp [unset, Path.cuts]
  | [k] =>
    rw [unset, erase, keys, keys, List.filter_map]
    simp [Path.cuts, List.isPrefixOf, BEq.comm, Function.comp_def]
  | k :: next :: rest =>
    rw [unset_eq_descend, keys_descend]
    simp [Path.cuts, List.isPrefixOf]

theorem keys_unsetAll (m : Members Key Value) (paths : List Path) :
    keys (unsetAll m paths) = (keys m).filter fun key => !Path.cuts paths [key] := by
  induction paths generalizing m with
  | nil => simp [unsetAll, Path.cuts]
  | cons first rest ih =>
    show keys (unsetAll (unset m first) rest) = _
    rw [ih, keys_unset, List.filter_filter]
    simp [Path.cuts, Bool.and_comm]

end Members

/-- What a path leads to after paths were taken away: nothing if one of them ends there or above, else what was there, without what
is taken away below. -/
theorem Value.at?_unsetAll (m : Members Key Value) (paths : List Path) (place : Path) :
    (object (m.unsetAll paths)).at? place =
      if Path.cuts paths place then none
      else ((object m).at? place).map (onMembers (Members.unsetAll · (Path.below place paths))) := by
  induction place generalizing m paths with
  | nil => simp [at?, Path.below, onMembers]
  | cons key rest ih =>
    rw [at?, at?, Members.get?_unsetAll, Path.cuts_cons, Path.below]
    generalize paths.filterMap (Path.behind? key) = behind
    cases behind.any List.isEmpty with
    | true => simp
    | false =>
      cases Members.get? m key with
      | none => simp
      | some v =>
        simp only [Bool.false_eq_true, if_false, Option.map_some, Option.bind_some, Bool.false_or]
        cases v with
        | object below => exact ih below behind
        | _ => cases rest <;> simp [onMembers, at?, Path.below]

/-! ## Paths as they are written -/

/-- The path that is written, if each of its steps is a key. -/
def WrittenPath.path? : WrittenPath → Option Path
  | dotted text => some (Path.ofDotted text)
  | steps values => values.mapM Value.scalar?

theorem Value.ofKey_of_scalar? {v : Value} {key : Key} (h : v.scalar? = some key) : ofKey key = v := by
  cases v <;> cases h <;> rfl

theorem WrittenPath.map_ofKey_of_mapM {values : List Value} {path : Path} (h : values.mapM Value.scalar? = some path) :
    path.map Value.ofKey = values := by
  induction values generalizing path with
  | nil => cases h; rfl
  | cons v rest ih =>
    rw [List.mapM_cons] at h
    obtain ⟨key, hkey, h⟩ := Option.bind_eq_some_iff.1 h
    obtain ⟨more, hmore, h⟩ := Option.bind_eq_some_iff.1 h
    cases h
    rw [List.map_cons, ih hmore, Value.ofKey_of_scalar? hkey]

namespace Members

/-- A path that is written is taken away. -/
theorem unsetWritten_eq_ok {written : WrittenPath} {path : Path} (h : written.path? = some path) (m : Members Key Value) :
    unsetWritten m written = .ok (unset m path) := by
  cases written with
  | dotted text => cases h; rfl
  | steps values => rw [← WrittenPath.map_ofKey_of_mapM h, unsetWritten_keys]

theorem unsetListed_eq_ok {written : List WrittenPath} {paths : List Path} (h : written.mapM WrittenPath.path? = some paths)
    (m : Members Key Value) : unsetListed m written = .ok (unsetAll m paths) := by
  unfold unsetListed
  induction written generalizing m paths with
  | nil => cases h; rfl
  | cons first rest ih =>
    rw [List.mapM_cons] at h
    obtain ⟨path, hpath, h⟩ := Option.bind_eq_some_iff.1 h
    obtain ⟨more, hmore, h⟩ := Option.bind_eq_some_iff.1 h
    cases h
    rw [List.foldlM_cons, unsetWritten_eq_ok hpath, ok_bind]
    exact ih hmore _

end Members

/-- What is left at a place of a tree from which paths were taken away. -/
structure LeftAt (paths : List Path) (before after : Value) (place : Path) : Prop where
  /-- Something, exactly if something was there and no path but the empty one ends there or above. -/
  present : (∃ v, after.at? place = some v) ↔
    (∃ v, before.at? place = some v) ∧ ∀ path ∈ paths, path ≠ [] → path.isPrefixOf place = false
  /-- What is no object and is left is as it was. -/
  same : ∀ v, v.kind ≠ .object →
    (after.at? place = some v ↔ before.at? place = some v ∧ Path.cuts paths place = false)
  /-- An object was one before, and the keys that are left of it stand in their order. -/
  keys : ∀ m, after.at? place = some (.object m) → ∃ m', before.at? place = some (.object m') ∧
    Members.keys m = (Members.keys m').filter fun key => !Path.cuts paths (place ++ [key])

theorem Path.cuts_eq_false_iff {paths : List Path} {place : Path} :
    cuts paths place = false ↔ ∀ path ∈ paths, path ≠ [] → path.isPrefixOf place = false := by
  simp [cuts, List.any_eq_false]

/-- Paths that are taken away take with them what stands at their ends and below, and nothing else. -/
theorem leftAt_unsetAll (tree : Members Key Value) (paths : List Path) (place : Path) :
    LeftAt paths (.object tree) (.object (tree.unsetAll paths)) place := by
  have hat := Value.at?_unsetAll tree paths place
  -- what is left is what was there, less what is taken away below
  have hleft : ∀ v, (Value.object (tree.unsetAll paths)).at? place = some v → Path.cuts paths place = false ∧
      ∃ w, (Value.object tree).at? place = some w ∧ w.onMembers (Members.unsetAll · (Path.below place paths)) = v := by
    intro v hv
    rw [hat] at hv
    split at hv
    · cases hv
    · rename_i hcut
      exact ⟨by simpa using hcut, Option.map_eq_some_iff.1 hv⟩
  refine ⟨?present, ?same, ?keys⟩
  case present =>
    rw [← Path.cuts_eq_false_iff]
    constructor
    · rintro ⟨v, hv⟩
      obtain ⟨hcut, w, hw, -⟩ := hleft v hv
      exact ⟨⟨w, hw⟩, hcut⟩
    · rintro ⟨⟨w, hw⟩, hcut⟩
      exact ⟨_, by rw [hat, hcut, hw]; rfl⟩
  case same =>
    intro v hkind
    constructor
    · intro hv
      obtain ⟨hcut, w, hw, rfl⟩ := hleft v hv
      cases w with
      | object m => exact absurd rfl hkind
      | _ => exact ⟨hw, hcut⟩
    · rintro ⟨hv, hcut⟩
      rw [hat, hcut, hv]
      cases v with
      | object m => exact absurd rfl hkind
      | _ => rfl
  case keys =>
    intro m hm
    obtain ⟨hcut, w, hw, hbelow⟩ := hleft _ hm
    cases w with
    | object m' =>
      cases hbelow
      refine ⟨m', hw, ?_⟩
      rw [Members.keys_unsetAll]
      refine List.filter_congr fun key _ => ?_
      rw [Path.cuts_append, hcut, Bool.false_or]
    | _ => cases hbelow

/-- Paths that are taken away of a tree, in whatever order and however often each, take with them what stands at their ends and below,
and nothing else. -/
theorem leftAt_unsetListed (tree : Members Key Value) {written : List WrittenPath} {paths : List Path}
    (hwritten : written.mapM WrittenPath.path? = some paths) :
    ∃ left, tree.unsetListed written = .ok left ∧ (∀ place, LeftAt paths (.object tree) (.object left) place) ∧
      ∀ others otherPaths, others.mapM WrittenPath.path? = some otherPaths → (∀ path, path ∈ otherPaths ↔ path ∈ paths) →
        tree.unsetListed others = .ok left := by
  refine ⟨_, Members.unsetListed_eq_ok hwritten tree, leftAt_unsetAll tree paths, fun others otherPaths hothers hsame => ?_⟩
  rw [Members.unsetListed_eq_ok hothers tree, Members.unsetAll_congr tree hsame]

/-- A schema of one entity: a field that is no object, a key with a dot, and a field of many links between two others. -/
def withOldNames : Members Key Value :=
  [("Account", .object [("fields", .object [("name", .object [("type", .str "varchar"), ("len", .int 255)]),
    ("teams", .object [("type", .str "linkMultiple")]), ("code", .null)]), ("a.b", .int 1), ("a", .object [("b", .int 2)])])]

/-- Paths that overlap, run through null, lead nowhere, or are empty. -/
def oldPaths : List Path :=
  [["Account", "fields", "teams", "type"], [], ["Account", "fields", "teams"], ["Account", "a.b"],
    ["Account", "fields", "code", "len"], ["Contact", "fields"], ["Account", "fields", "name", "len"]]

/-- The paths, written with dots where no key has one. -/
def oldNames : List WrittenPath :=
  [.dotted "Account.fields.teams.type", .steps [], .dotted "Account.fields.teams", .steps [.str "Account", .str "a.b"],
    .dotted "Account.fields.code.len", .dotted "Contact.fields", .dotted "Account.fields.name.len"]

/-- The paths step by step, in another order and twice each. -/
def oldNamesAgain : List WrittenPath :=
  (oldPaths.reverse ++ oldPaths).map fun path => .steps (path.map Value.ofKey)

theorem leftAt_unsetListed_oldNames : ∃ left, withOldNames.unsetListed oldNames = .ok left ∧
    (¬∃ v, (Value.object left).at? ["Account", "fields", "teams"] = some v) ∧
    (Value.object left).at? ["Account", "fields", "code"] = some .null ∧
    (∃ v, (Value.object left).at? ["Account", "a", "b"] = some v) ∧
    (∃ fields, (Value.object left).at? ["Account", "fields"] = some (.object fields) ∧
      Members.keys fields = [Key.text "name", Key.text "code"]) ∧
    withOldNames.unsetListed oldNamesAgain = .ok left := by
  have hwritten : oldNames.mapM WrittenPath.path? = some oldPaths := by decide
  have hagain : oldNamesAgain.mapM WrittenPath.path? = some (oldPaths.reverse ++ oldPaths) := by decide
  obtain ⟨left, hleft, hplaces, hany⟩ := leftAt_unsetListed withOldNames hwritten
  refine ⟨left, hleft, ?_, ?_, ?_, ?_, hany _ _ hagain (by simp)⟩
  · intro hthere
    have huncut := ((hplaces _).present.1 hthere).2
    exact absurd huncut (by decide)
  · exact ((hplaces _).same .null (by decide)).2 ⟨rfl, by decide⟩
  · exact (hplaces _).present.2 ⟨⟨.int 2, rfl⟩, by decide⟩
  · obtain ⟨v, hv⟩ := (hplaces ["Account", "fields"]).present.2 ⟨⟨_, rfl⟩, by decide⟩
    have hobject : v.kind = .object := by_contra fun hkind => by
      obtain ⟨hbefore, -⟩ := ((hplaces _).same v hkind).1 hv
      cases hbefore
      exact hkind rfl
    obtain ⟨fields, rfl⟩ := Value.kind_eq_object.1 hobject
    obtain ⟨m, hm, hkeys⟩ := (hplaces _).keys fields hv
    cases hm
    exact ⟨fields, hv, hkeys.trans (by decide)⟩

end EntitySchema
