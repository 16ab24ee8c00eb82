import EntitySchema.Proofs.Entity.Frame

/-!
# A field of many links gives way to its lists

The processor for a field of many links writes the place of the field as one text, from which the place is read again. If neither
name has a dot, that is the place of the field, and the field is replaced by its two lists while the rest of the tree stays as it
is. A dot in a name makes the place a longer one: it lies elsewhere, and the field stays.

* `IsUnstored`: a field of a kind that is not stored.
* `GivesWay`: fields of which one was replaced by its lists.
* `Replaces`: the same of the fields of an entity in a tree.

Results:
* `apply_linkMultiple`: what the processor does to a tree.
* `replaces_unset`: if the place of the field is cleared, the field is replaced.
* `length_place_of_dot`: a dot makes the place that is read again a longer one.
* `replaces_iff`: the field is replaced exactly if neither name has a dot.
-/
namespace EntitySchema

namespace Members

variable {p : Key → Bool} {m : Members Key Value}

/-- Members under keys that a test rejects do not show among those that pass after they were laid over others. -/
theorem filter_merge {mode : MergeMode} {upper : Members Key Value} (h : ∀ entry ∈ upper, ∀ k, (k == entry.1) = true → p k = false) :
    (merge mode m upper).filter (fun entry => p entry.1) = m.filter fun entry => p entry.1 := by
  induction upper generalizing m with
  | nil => rw [merge_nil]
  | cons entry rest ih =>
    obtain ⟨hentry, hrest⟩ := List.forall_mem_cons.1 h
    rw [merge_cons, ih hrest, filter_set _ hentry]

end Members

namespace Entity

variable {entity field : String} {before after own fields : Members Key Value} {kind : FieldKind} {v : Value}

/-! ## Fields -/

/-- A field of a kind that is not stored. -/
def IsUnstored (kind : FieldKind) (v : Value) : Prop :=
  ∃ attributes : Members Key Value, v = .object attributes ∧ Members.get? attributes "type" = some (.str kind.word) ∧
    Members.get? attributes "notStorable" = some (.bool true)

/-- Whether a key is neither the name of a field of many links nor that of one of its lists. -/
def isApart (field : String) (key : Key) : Bool :=
  decide (key ≠ .text field ∧ key ≠ .text (field ++ "Ids") ∧ key ≠ .text (field ++ "Names"))

/-- Fields of which one was replaced by the lists of its keys and names, while the others and their order stayed. -/
structure GivesWay (field : String) (fields fields' : Members Key Value) : Prop where
  gone : Members.get? fields' (.text field) = none
  ids : ∃ v, Members.get? fields' (.text (field ++ "Ids")) = some v ∧ IsUnstored .jsonArray v
  names : ∃ v, Members.get? fields' (.text (field ++ "Names")) = some v ∧ IsUnstored .jsonObject v
  apart : (fields'.filter fun entry => isApart field entry.1) = fields.filter fun entry => isApart field entry.1

theorem get?_listFields_self (field : String) : Members.get? (listFields field) (.text field) = none := by
  have hlonger : ∀ suffix : String, suffix ≠ "" → (Key.text (field ++ suffix) == Key.text field) = false := by
    intro suffix hsuffix
    rw [← Bool.not_eq_true, Key.text_beq, Key.text.injEq]
    intro heq
    refine hsuffix ((String.append_right_inj field).1 ?_)
    rw [← heq, String.append_empty]
  rw [listFields, Members.get?_cons, hlonger "Ids" (by decide), Members.get?_cons, hlonger "Names" (by decide)]
  rfl

/-- A field that is not stored is so over anything that stood there. -/
theorem isUnstored_mergedAt (m : Members Key Value) (key : Key) (kind : FieldKind) :
    IsUnstored kind (Members.mergedAt .override m key (Processor.unstored kind [])) := by
  let unstored : Members Key Value := [(.text "type", .str kind.word), (.text "notStorable", .bool true)]
  have hd : unstored.Distinct := Members.distinct_pair (by decide) _ _
  show IsUnstored kind (Members.mergedAt .override m key (.object unstored))
  have hover : ∀ below, IsUnstored kind (.object (Members.overlay below unstored)) := fun below => by
    refine ⟨_, rfl, ?_, ?_⟩
    · exact Members.get?_overlay_of_not_object below hd rfl fun _ => Value.noConfusion
    · exact Members.get?_overlay_of_not_object below hd rfl fun _ => Value.noConfusion
  have halone : IsUnstored kind (.object unstored) := ⟨_, rfl, rfl, rfl⟩
  unfold Members.mergedAt
  split
  · rename_i old _
    cases old with
    | object below =>
      rw [Value.overlay_object]
      exact hover below
    | _ => exact halone
  · exact halone

/-- A field without its place, and its lists over the other ones. -/
theorem givesWay_overlay (field : String) (fields : Members Key Value) :
    GivesWay field fields ((fields.erase (.text field)).overlay (listFields field)) := by
  have hlist : ∀ name kind, (Key.text name, Processor.unstored kind []) ∈ listFields field →
      ∃ v, Members.get? ((fields.erase (.text field)).overlay (listFields field)) (.text name) = some v ∧ IsUnstored kind v :=
    fun name kind hmem =>
      have hget := Members.get?_of_mem (distinct_listFields field) hmem
      ⟨_, Members.get?_merge_of_some (distinct_listFields field) hget, isUnstored_mergedAt _ _ kind⟩
  refine ⟨?_, hlist _ _ (by simp [listFields]), hlist _ _ (by simp [listFields]), ?_⟩
  · rw [Members.overlay, Members.get?_merge_of_none (get?_listFields_self field), Members.get?_erase, if_pos BEq.rfl]
  · have hapart : ∀ name ∈ [field, field ++ "Ids", field ++ "Names"], ∀ k, (k == Key.text name) = true →
        isApart field k = false := by
      intro name hname k hk
      rw [Key.beq_text.1 hk, isApart]
      simp only [List.mem_cons, List.not_mem_nil, or_false] at hname
      rcases hname with rfl | rfl | rfl <;> simp
    rw [Members.overlay, Members.filter_merge, Members.filter_erase _ (hapart field (by simp))]
    intro entry hentry
    simp only [listFields, List.mem_cons, List.not_mem_nil, or_false] at hentry
    rcases hentry with rfl | rfl <;> exact hapart _ (by simp)

/-! ## Trees -/

/-- A tree in which a field of an entity was replaced by its lists; nothing else was changed. -/
def Replaces (entity field : String) (before after : Members Key Value) : Prop :=
  ∃ own fields fields' : Members Key Value, Members.get? before (.text entity) = some (.object own) ∧
    Members.get? own "fields" = some (.object fields) ∧
    after = before.set (.text entity) (.object (own.set "fields" (.object fields'))) ∧ GivesWay field fields fields'

/-- Where a field of an entity stands. -/
def fieldPlace (entity field : String) : Path :=
  [.text entity, "fields", .text field]

theorem stands_field (hentity : Members.get? before (.text entity) = some (.object own))
    (hfields : Members.get? own "fields" = some (.object fields)) :
    Stands before (fieldPlace entity field) v ↔ Members.get? fields (.text field) = some v := by
  simp [Stands, fieldPlace, Value.at?, hentity, hfields]

/-- A field that was replaced stands nowhere. -/
theorem Replaces.gone (h : Replaces entity field before after) : ¬Stands after (fieldPlace entity field) v := by
  obtain ⟨own, fields, fields', -, -, rfl, hgives⟩ := h
  rw [stands_field (Members.get?_set_self _ _ _) (Members.get?_set_self _ _ _), hgives.gone]
  exact fun h => nomatch h

/-- The processor takes away what stands at the text of the place, and lays the lists over the rest. -/
theorem apply_linkMultiple (entity field : String) (tree : Members Key Value) :
    (Processor.linkMultiple.contribute field (.text entity) tree >>= fun c => c.apply tree) =
      .ok ((tree.unset (Path.ofDotted (entity ++ ".fields." ++ field))).overlay
        (fieldsFragment (.text entity) (listFields field))) :=
  apply_contribution (.text entity) [entity ++ ".fields." ++ field] (listFields field) tree

theorem overlay_fieldsFragment (hentity : Members.get? before (.text entity) = some (.object own))
    (hfields : Members.get? own "fields" = some (.object fields)) (added : Members Key Value) :
    before.overlay (fieldsFragment (.text entity) added) =
      before.set (.text entity) (.object (own.set "fields" (.object (fields.overlay added)))) := by
  rw [fieldsFragment, Members.overlay_singleton, Members.mergedAt_of_get? hentity, Value.overlay_object, ← Members.overlay,
    Members.overlay_singleton, Members.mergedAt_of_get? hfields, Value.overlay_object, Members.overlay]

/-- Laid over a tree without the field, its lists replace the field. -/
theorem replaces_unset (hentity : Members.get? before (.text entity) = some (.object own))
    (hfields : Members.get? own "fields" = some (.object fields)) :
    Replaces entity field before
      ((before.unset (fieldPlace entity field)).overlay (fieldsFragment (.text entity) (listFields field))) := by
  have hunset : before.unset (fieldPlace entity field) =
      before.set (.text entity) (.object (own.set "fields" (.object (fields.erase (.text field))))) := by
    rw [fieldPlace, Members.unset_cons_cons, hentity]
    simp only
    rw [Members.unset_cons_cons, hfields]
    rfl
  refine ⟨own, fields, _, hentity, hfields, ?_, givesWay_overlay field fields⟩
  rw [hunset, overlay_fieldsFragment (Members.get?_set_self _ _ _) (Members.get?_set_self _ _ _),
    Members.set_set_of_beq BEq.rfl, Members.set_set_of_beq BEq.rfl]

/-- A dot in one of its names makes the place of a field a longer one. -/
theorem length_place_of_dot (h : '.' ∈ entity.toList ∨ '.' ∈ field.toList) :
    (fieldPlace entity field).length < (Path.ofDotted (entity ++ ".fields." ++ field)).length := by
  have hdots : (".fields." : String).toList.count '.' = 2 := by decide
  have hplace : (fieldPlace entity field).length = 3 := rfl
  rw [hplace, Path.length_ofDotted, String.toList_append, String.toList_append, List.count_append, List.count_append, hdots]
  rcases h with h | h
  · have hcount := List.count_pos_iff.2 h
    omega
  · have hcount := List.count_pos_iff.2 h
    omega

/-- Lists of other names laid over a tree leave a field alone. -/
theorem stands_overlay_listFields {column : String} (h : Stands before (fieldPlace entity column) v)
    (hcolumn : Members.get? (listFields field) (.text column) = none) :
    Stands (before.overlay (fieldsFragment (.text entity) (listFields field))) (fieldPlace entity column) v :=
  h.overlay (Value.spares_singleton fun _ => Value.spares_singleton fun _ => Value.spares_of_get?_none hcolumn)

/-- The processor for many links gives a tree. In it the field is replaced by its lists, and nothing else is changed, exactly if
neither the entity nor the field has a dot in its name. -/
theorem replaces_iff (entity field : String) (before : Members Key Value)
    (hentity : Members.get? before (.text entity) = some (.object own))
    (hfields : Members.get? own "fields" = some (.object fields)) (hfield : fields.contains (.text field) = true) :
    ∃ after, (Processor.linkMultiple.contribute field (.text entity) before >>= fun c => c.apply before) = .ok after ∧
      (Replaces entity field before after ↔ '.' ∉ entity.toList ∧ '.' ∉ field.toList) := by
  refine ⟨_, apply_linkMultiple entity field before, fun hreplaces => ?_, fun hplain => ?_⟩
  · by_contra hdot
    obtain ⟨v, hv⟩ := Option.isSome_iff_exists.1 hfield
    have hdot : '.' ∈ entity.toList ∨ '.' ∈ field.toList := by
      rwa [not_and_or, not_not, not_not] at hdot
    obtain ⟨w, hw⟩ := ((stands_field hentity hfields).2 hv).exists_unset (length_place_of_dot hdot)
    exact hreplaces.gone (stands_overlay_listFields hw (get?_listFields_self field))
  · rw [Path.ofDotted_field_of_plain hplain.1 hplain.2]
    exact replaces_unset hentity hfields

/-- An account with tags, a list that the tags will have, another field of many links, and members besides its fields. -/
def taggedAccount : Members Key Value :=
  [("Contact", .object [("fields", .object [("tags", .object [("type", .str "int")])])]),
    ("Account", .object [
      ("fields", .object [
        ("tags", .object [("type", .str "linkMultiple")]),
        ("tagsIds", .object [("type", .str "int"), ("len", .int 11)]),
        ("tagsNames.x", .object [("type", .str "linkMultiple")])]),
      ("relations", .object [("tags", .null)])])]

theorem replaces_iff_taggedAccount : ∃ after,
    (Processor.linkMultiple.contribute "tags" "Account" taggedAccount >>= fun c => c.apply taggedAccount) = .ok after ∧
      Replaces "Account" "tags" taggedAccount after := by
  obtain ⟨after, hafter, hiff⟩ := replaces_iff "Account" "tags" taggedAccount rfl rfl rfl
  exact ⟨after, hafter, hiff.2 (by decide)⟩

/-- A field of many links whose name reads like the place of an attribute of another field. -/
def dottedTags : Members Key Value :=
  [("Account", .object [("fields", .object [
    ("a", .object [("type", .str "int")]), ("a.type", .object [("type", .str "linkMultiple")])])])]

/-- A field of many links with a dot in its name stays, and an attribute of another field is taken away in its stead. -/
theorem exists_misplaced_field : ∃ after,
    (Processor.linkMultiple.contribute "a.type" "Account" dottedTags >>= fun c => c.apply dottedTags) = .ok after ∧
      Stands after (fieldPlace "Account" "a.type") (.object [("type", .str "linkMultiple")]) ∧
      Stands after (fieldPlace "Account" "a") (.object []) ∧ ¬Replaces "Account" "a.type" dottedTags after := by
  have hplace : Path.ofDotted ("Account" ++ ".fields." ++ "a.type") = ["Account", "fields", "a", "type"] := by decide
  have hdotted : Stands (dottedTags.unset ["Account", "fields", "a", "type"]) (fieldPlace "Account" "a.type")
      (.object [("type", .str "linkMultiple")]) := rfl
  have hother : Stands (dottedTags.unset ["Account", "fields", "a", "type"]) (fieldPlace "Account" "a") (.object []) := rfl
  have hthere := stands_overlay_listFields hdotted (get?_listFields_self "a.type")
  refine ⟨_, apply_linkMultiple "Account" "a.type" dottedTags, ?_⟩
  rw [hplace]
  exact ⟨hthere, stands_overlay_listFields hother (by decide), fun hreplaces => hreplaces.gone hthere⟩

end Entity

end EntitySchema
