import EntitySchema.Proofs.Tree.Assoc
import EntitySchema.Tree.Path

/-!
# Places of two trees laid one over the other

What stands at a place after one tree was laid over another depends on what the two have at that place, and on whether the upper
one has something in the way: a value above the place that is no object, below which nothing can stand.

* `Value.blocks`: whether a value has something in the way of a path.
* `LaidOver`: what stands at a place of two trees laid one over the other.

Results:
* `keys_merge`: the keys of merged members and their order.
* `at?_overlay`: what stands at a place afterwards, for values of any kind.
* `exists_kind_of_at?_overlay`: what stands at a place afterwards is of a kind that one of the two has there.
* `laidOver_overlay`: the places of a tree after another was laid over it, once or twice.
-/
namespace EntitySchema

namespace Members

/-- Merged members have the keys of the lower ones, then those of the upper ones that are new. -/
theorem keys_merge {mode : MergeMode} {lower upper : Members Key Value} (hd : Distinct upper) :
    keys (merge mode lower upper) = keys lower ++ (keys upper).filter fun key => !contains lower key := by
  induction upper generalizing lower with
  | nil => simp [keys]
  | cons entry rest ih =>
    obtain ⟨k, v⟩ := entry
    obtain ⟨hne, hd⟩ := distinct_cons.1 hd
    -- for the later keys it makes no difference that this one is there
    have hlater : ((keys rest).filter fun key => !contains (set lower k (mergedAt mode lower k v)) key) =
        (keys rest).filter fun key => !contains lower key := by
      refine List.filter_congr fun key hkey => ?_
      obtain ⟨other, hother, rfl⟩ := List.mem_map.1 hkey
      rw [contains_set, hne other hother, Bool.false_or]
    have hcons : keys ((k, v) :: rest) = k :: keys rest := rfl
    rw [merge_cons, ih hd, hlater, keys_set, hcons]
    split
    · rename_i hthere
      rw [List.filter_cons_of_neg (by simp [hthere])]
    · rename_i hnew
      rw [List.filter_cons_of_pos (by simp [hnew]), List.append_assoc, List.singleton_append]

end Members

namespace Value

variable {mode : MergeMode} {u v w : Value} {path : Path}

/-! ## What is in the way -/

/-- Whether a value has something in the way of a path: above its end, something that is no object. -/
def blocks : Value → Path → Bool
  | _, [] => false
  | object m, key :: rest =>
    match Members.get? m key with
    | some v => v.blocks rest
    | none => false
  | _, _ :: _ => true

theorem at?_cons_of_not_object (h : v.kind ≠ .object) (key : Key) (rest : Path) : v.at? (key :: rest) = none := by
  cases v <;> first | rfl | exact absurd rfl h

theorem blocks_cons_of_not_object (h : v.kind ≠ .object) (key : Key) (rest : Path) : v.blocks (key :: rest) = true := by
  cases v <;> first | rfl | exact absurd rfl h

/-- What is in the way stands above the end of the path and is no object. -/
theorem blocks_iff : v.blocks path = true ↔
    ∃ above key rest w, path = above ++ key :: rest ∧ v.at? above = some w ∧ w.kind ≠ .object := by
  induction path generalizing v with
  | nil => simp [blocks]
  | cons key rest ih =>
    by_cases hv : v.kind = .object
    · obtain ⟨m, rfl⟩ := kind_eq_object.1 hv
      rw [blocks]
      constructor
      · intro h
        cases hget : Members.get? m key with
        | none => rw [hget] at h; cases h
        | some below =>
          rw [hget] at h
          obtain ⟨above, next, others, w, hpath, hw, hkind⟩ := ih.1 h
          exact ⟨key :: above, next, others, w, by rw [hpath]; rfl, by rw [at?, hget]; exact hw, hkind⟩
      · rintro ⟨above, next, others, w, hpath, hw, hkind⟩
        cases above with
        | nil => cases hw; exact absurd hv hkind
        | cons first above =>
          rw [List.cons_append, List.cons.injEq] at hpath
          obtain ⟨rfl, hpath⟩ := hpath
          rw [at?, Option.bind_eq_some_iff] at hw
          obtain ⟨below, hget, hw⟩ := hw
          rw [hget]
          exact ih.2 ⟨above, next, others, w, hpath, hw, hkind⟩
    · rw [blocks_cons_of_not_object hv]
      exact iff_of_true rfl ⟨[], key, rest, v, rfl, rfl, hv⟩

/-! ## What stands at a place -/

theorem UniqueKeys.of_at? (h : v.UniqueKeys) (hw : v.at? path = some w) : w.UniqueKeys := by
  induction path generalizing v with
  | nil => cases hw; exact h
  | cons key rest ih =>
    cases v with
    | object m =>
      rw [at?, Option.bind_eq_some_iff] at hw
      obtain ⟨below, hget, hw⟩ := hw
      exact ih (h.of_get? hget) hw
    | _ => cases hw

theorem overlay_of_kind_ne_object (h : w.kind ≠ .object) : overlay .override v w = w :=
  overlay_override_of_not_object fun _ _ hobjects => h (by rw [hobjects.2, kind_object])

/-- What stands at a place after one value was laid over another: what the upper one has there, over what the lower one has
there; if it has nothing there, what the lower one has, unless something is in the way. -/
theorem at?_overlay (mode : MergeMode) (v : Value) {w : Value} (hw : w.UniqueKeys) (path : Path) :
    (overlay mode v w).at? path =
      match v.at? path, w.at? path with
      | some x, some y => some (overlay mode x y)
      | none, some y => some y
      | old, none => if w.blocks path then none else old := by
  induction path generalizing v w with
  | nil => rfl
  | cons key rest ih =>
    by_cases hjoined : Joined mode v w
    · rcases hjoined.cases with ⟨m, m', rfl, rfl⟩ | ⟨rfl, xs, ys, rfl, rfl⟩
      · rw [overlay_object, at?, at?, at?, blocks, Members.get?_merge hw.distinct]
        cases hy : Members.get? m' key with
        | none => cases (Members.get? m key).bind fun x => x.at? rest <;> rfl
        | some y =>
          cases hx : Members.get? m key with
          | none =>
            simp only [Members.mergedAt_of_get?_none hx, Option.bind_some, Option.bind_none]
            cases y.at? rest <;> simp
          | some x =>
            simp only [Members.mergedAt_of_get? hx, Option.bind_some]
            exact ih x (hw.of_get? hy)
      · rfl
    · rw [overlay_of_not_joined hjoined]
      by_cases hobject : w.kind = .object
      · have hv : v.kind ≠ .object := fun hv => hjoined ⟨hv.trans hobject.symm, by rw [hobject]; cases mode <;> rfl⟩
        rw [at?_cons_of_not_object hv]
        cases w.at? (key :: rest) <;> simp
      · rw [at?_cons_of_not_object hobject, blocks_cons_of_not_object hobject]
        cases v.at? (key :: rest) <;> rfl

/-- What stands at a place after one value was laid over another is of a kind that one of them has there. -/
theorem exists_kind_of_at?_overlay (hw : w.UniqueKeys) (h : (overlay mode v w).at? path = some u) :
    ∃ x, (v.at? path = some x ∨ w.at? path = some x) ∧ x.kind = u.kind := by
  rw [at?_overlay mode v hw] at h
  cases hy : w.at? path with
  | some y =>
    refine ⟨y, .inr rfl, ?_⟩
    rw [hy] at h
    cases hx : v.at? path with
    | none => rw [hx] at h; cases h; rfl
    | some x => rw [hx] at h; cases h; exact kind_overlay.symm
  | none =>
    refine ⟨u, .inl ?_, rfl⟩
    rw [hy] at h
    cases hx : v.at? path <;> simp_all

end Value

/-- What stands at a place of two trees laid one over the other. -/
structure LaidOver (lower upper merged : Value) (path : Path) : Prop where
  /-- What the upper tree has at the place, if it is no object. -/
  own : ∀ v, upper.at? path = some v → v.kind ≠ .object → merged.at? path = some v
  /-- Nothing, if the upper tree has above the place what is no object. -/
  blocked : ∀ above key rest v, path = above ++ key :: rest → upper.at? above = some v → v.kind ≠ .object →
    merged.at? path = none
  /-- An object, if the upper tree has one. -/
  object : ∀ m, upper.at? path = some (.object m) → ∃ m', merged.at? path = some (.object m')
  /-- What stood there before, if the upper tree has nothing there and nothing in the way. -/
  free : upper.at? path = none →
    (∀ above key rest v, path = above ++ key :: rest → upper.at? above = some v → v.kind = .object) →
      merged.at? path = lower.at? path
  /-- Of two objects that meet, the lower one's keys, then those that are new in the upper one. -/
  keys : ∀ m m', lower.at? path = some (.object m) → upper.at? path = some (.object m') →
    ∃ m'', merged.at? path = some (.object m'') ∧
      Members.keys m'' = Members.keys m ++ (Members.keys m').filter fun key => !Members.contains m key

/-- What stands at the places of a tree after another tree was laid over it; to lay that over it again changes nothing. -/
theorem laidOver_overlay (lower : Members Key Value) {upper : Members Key Value} (h : (Value.object upper).UniqueKeys) :
    (∀ path, LaidOver (.object lower) (.object upper) (.object (lower.overlay upper)) path) ∧
      (lower.overlay upper).overlay upper = lower.overlay upper := by
  have hat := Value.at?_overlay .override (.object lower) h
  simp only [Value.overlay_object] at hat
  refine ⟨fun path => ⟨?own, ?blocked, ?object, ?free, ?keys⟩, ?again⟩
  case own =>
    intro v hv hkind
    rw [Members.overlay, hat, hv]
    cases (Value.object lower).at? path with
    | none => rfl
    | some x => exact congrArg some (Value.overlay_of_kind_ne_object hkind)
  case blocked =>
    intro above key rest v hpath hv hkind
    have hblocks : (Value.object upper).blocks path = true := Value.blocks_iff.2 ⟨above, key, rest, v, hpath, hv, hkind⟩
    have hnone : (Value.object upper).at? path = none := by
      rw [hpath, Value.at?_append, hv, Option.bind_some, Value.at?_cons_of_not_object hkind]
    rw [Members.overlay, hat, hnone, hblocks]
    cases (Value.object lower).at? path <;> rfl
  case object =>
    intro m hm
    rw [Members.overlay, hat, hm]
    cases (Value.object lower).at? path with
    | none => exact ⟨m, rfl⟩
    | some x =>
      have hkind : (Value.overlay .override x (.object m)).kind = .object := Value.kind_overlay
      obtain ⟨m', hm'⟩ := Value.kind_eq_object.1 hkind
      exact ⟨m', congrArg some hm'⟩
  case free =>
    intro hnone hfree
    have hblocks : (Value.object upper).blocks path = false := by
      rw [← Bool.not_eq_true, Value.blocks_iff]
      rintro ⟨above, key, rest, v, hpath, hv, hkind⟩
      exact hkind (hfree above key rest v hpath hv)
    rw [Members.overlay, hat, hnone, hblocks]
    cases (Value.object lower).at? path <;> rfl
  case keys =>
    intro m m' hm hm'
    rw [Members.overlay, hat, hm, hm']
    exact ⟨_, congrArg some (Value.overlay_object _ _ _), Members.keys_merge (h.of_at? hm').distinct⟩
  case again =>
    have hself := Value.overlay_overlay_self (.object lower) h
    rw [Value.overlay_object, Value.overlay_object] at hself
    exact Value.object.inj hself

/-- A schema of one entity with two fields. -/
def ownNames : Members Key Value :=
  [("Account", .object [("fields", .object [("name", .object [("len", .int 255)]), ("code", .object [("type", .str "varchar")])]),
    ("relations", .object [])])]

/-- Another length for one of the fields, null for the other, and a new field before them. -/
def newNames : Members Key Value :=
  [("Account", .object [("fields", .object [("id", .object [("type", .str "id")]), ("code", .null),
    ("name", .object [("notNull", .bool true), ("len", .int 1000)])])])]

theorem laidOver_overlay_newNames : (Value.object newNames).UniqueKeys ∧
    (Value.object (ownNames.overlay newNames)).at? ["Account", "fields", "name", "len"] = some (.int 1000) ∧
    (Value.object (ownNames.overlay newNames)).at? ["Account", "fields", "code", "type"] = none ∧
    (Value.object (ownNames.overlay newNames)).at? ["Account", "relations"] = some (.object []) ∧
    (∃ fields, (Value.object (ownNames.overlay newNames)).at? ["Account", "fields"] = some (.object fields) ∧
      Members.keys fields = ["name", "code", "id"]) ∧
    (ownNames.overlay newNames).overlay newNames = ownNames.overlay newNames := by
  have hunique : (Value.object newNames).UniqueKeys := by decide
  obtain ⟨hplaces, hagain⟩ := laidOver_overlay ownNames hunique
  refine ⟨hunique, ?_, ?_, ?_, ?_, hagain⟩
  · exact (hplaces _).own _ rfl (by decide)
  · exact (hplaces _).blocked ["Account", "fields", "code"] "type" [] .null rfl rfl (by decide)
  · refine (hplaces _).free rfl fun above key rest v hpath hv => by_contra fun hkind => ?_
    have hblocks := Value.blocks_iff.2 ⟨above, key, rest, v, hpath, hv, hkind⟩
    exact absurd hblocks (by decide)
  · exact (hplaces ["Account", "fields"]).keys _ _ rfl rfl

end EntitySchema
