import EntitySchema.Proofs.Field.Total
import EntitySchema.Proofs.Link.JunctionName
import EntitySchema.Proofs.Reordered

/-!
# Both sides of a many-to-many relation

Two many-to-many links that are inverse to each other describe one junction: each side gives it the same name, and the same
keys with its own first. The junction that is made from the one side is therefore that of the other side with two columns in
another order, and it does not matter which of them is laid over the other.

* `Mirrors`: a many-to-many link to a target that refers back by a name.
* `SameJunction`: a junction that is written in two orders.

Results:
* `junctionKeys_reversed`: the keys of the one side are those of the other side in reverse.
* `exists_fields_perm`: so are the declarations of the junction, which are the same otherwise.
* `sameJunction_of_ofRelation`: the junctions of two relations that differ in the order of their keys.
* `bothSides_agree`: the relations and the junctions of two inverse links.
-/
namespace EntitySchema

/-! ## Normal forms of fields in another order -/

namespace Field

theorem normalizeAll_eq_filterMap {c : Config} {entity : Key} {fields normal : Members Key Value}
    (h : (normalizeAll c entity fields).result = .ok normal) :
    normal = fields.filterMap fun field => (normalForm? c field.2).map fun w => (field.1, w) := by
  induction fields generalizing normal with
  | nil => cases h; rfl
  | cons field rest ih =>
    obtain ⟨name, v⟩ := field
    obtain ⟨params, form, rest', rfl, hform, hrest, rfl⟩ := normalizeAll_cons_eq_ok h
    have hnormal : normalForm? c (.object params) = form.map Value.object := by
      unfold normalForm?
      rw [Value.members_object, hform]
      cases form <;> rfl
    rw [ih hrest, List.filterMap_cons, hnormal]
    cases form <;> rfl

/-- The normal forms of the same fields in another order. -/
theorem exists_normalizeAll_perm {c : Config} {entity : Key} {fields fields' normal : Members Key Value}
    (hperm : fields.Perm fields') (h : (normalizeAll c entity fields).result = .ok normal) :
    ∃ normal', (normalizeAll c entity fields').result = .ok normal' ∧ normal.Perm normal' := by
  have htyped := (normalizeAll_isOk_iff c entity).1 ⟨normal, h⟩
  obtain ⟨normal', h'⟩ := (normalizeAll_isOk_iff c entity).2 fun entry he => htyped entry (hperm.mem_iff.2 he)
  refine ⟨normal', h', ?_⟩
  rw [normalizeAll_eq_filterMap h, normalizeAll_eq_filterMap h']
  exact hperm.filterMap _

end Field

/-! ## Junctions with keys in another order -/

namespace Junction

/-- The fields that every junction has of its own. -/
def ownFields (c : Config) : Members Key Value :=
  [("id", .object [("type", .str FieldKind.id.word), ("autoincrement", .bool true), ("dbType", .str c.junctionIdDbType)]),
    ("deleted", .object [("type", .str FieldKind.bool.word), ("default", .bool false)])]

/-- A key column of a junction. -/
def keyField : Value :=
  .object [("type", .str FieldKind.foreignId.word)]

/-- The fields of a junction with one more additional column. -/
def addColumn (fields : Members Key Value) (column : Key × Value) : Except Misuse (Members Key Value) := do
  let defs : Members Key Value ← column.2.givenMembers
  let type := (Members.get? defs "type").getD (.str FieldKind.varchar.word)
  return Members.set fields column.1 (.object [("type", type)])

section
variable {c : Config} {relation relation' : Members Key Value} {a b : String}

theorem fields_of_keys (hkeys : relation.value "midKeys" = .ofTexts [a, b]) :
    fields c relation = (relation.value "additionalColumns").givenMembers >>= fun columns =>
      columns.foldlM addColumn (((ownFields c).set (.text a) keyField).set (.text b) keyField) := by
  unfold fields
  rw [hkeys]
  rfl

theorem distinct_ownFields (c : Config) : Members.Distinct (ownFields c) := by
  simp [Members.Distinct, Members.keys, ownFields]
  decide

/-- Additional columns that are put into the same fields in another order. -/
theorem exists_foldlM_addColumn_perm {columns start start' last : Members Key Value} (hd : Members.Distinct start)
    (hperm : start.Perm start') (h : columns.foldlM addColumn start = .ok last) :
    ∃ last', columns.foldlM addColumn start' = .ok last' ∧ last.Perm last' := by
  induction columns generalizing start start' with
  | nil => cases h; exact ⟨start', rfl, hperm⟩
  | cons column rest ih =>
    rw [List.foldlM_cons] at h ⊢
    obtain ⟨next, hnext, h⟩ := bind_eq_ok.1 h
    obtain ⟨defs, hdefs, hnext⟩ := bind_eq_ok.1 hnext
    cases hnext
    obtain ⟨last', hlast', hperm'⟩ := ih (Members.distinct_set _ _ hd) (Members.set_perm column.1 _ hd hperm) h
    refine ⟨last', bind_eq_ok.2 ⟨_, bind_eq_ok.2 ⟨defs, hdefs, rfl⟩, hlast'⟩, hperm'⟩

/-- The declarations of a junction whose keys are in another order. -/
theorem exists_fields_perm (hkeys : relation.value "midKeys" = .ofTexts [a, b])
    (hkeys' : relation'.value "midKeys" = .ofTexts [b, a])
    (hcolumns : relation.value "additionalColumns" = relation'.value "additionalColumns") {declared : Members Key Value}
    (h : fields c relation = .ok declared) : ∃ declared', fields c relation' = .ok declared' ∧ declared.Perm declared' := by
  rw [fields_of_keys hkeys] at h
  rw [fields_of_keys hkeys', ← hcolumns]
  obtain ⟨columns, hgiven, h⟩ := bind_eq_ok.1 h
  obtain ⟨declared', hdeclared', hperm⟩ := exists_foldlM_addColumn_perm
    (Members.distinct_set _ _ (Members.distinct_set _ _ (distinct_ownFields c)))
    (Members.set_set_perm (ownFields c) a b keyField) h
  exact ⟨declared', bind_eq_ok.2 ⟨columns, hgiven, hdeclared'⟩, hperm⟩

end

/-! ## One junction in two orders -/

/-- A field that stays what it is if it is laid over itself. -/
def SelfOverlaid (v : Value) : Prop :=
  Value.overlay .override v v = v

/-- A declared type of which there is a normal form is no object. -/
theorem type_of_normalize {c : Config} {type : Value} {form : Option (Members Key Value)}
    (h : Field.normalize c [("type", type)] = .ok form) : ∀ below, type ≠ .object below := by
  rintro below rfl
  have hscalar := Field.normalize_isOk_iff.1 ⟨form, h⟩
  cases hscalar

/-- A column of a junction has no attribute that is an object, so that it stays what it is if it is laid over itself. -/
theorem selfOverlaid_of_declaration {c : Config} {v w : Value} (h : declaration c v) (hw : Field.normalForm? c v = some w) :
    SelfOverlaid w := by
  obtain ⟨normal, hnormal, rfl⟩ := Field.normalForm?_eq_some.1 hw
  let Flat (m : Members Key Value) : Prop := Members.Distinct m ∧ ∀ entry ∈ m, ∀ below, entry.2 ≠ .object below
  have hflat : Flat v.members := by
    rcases h with rfl | rfl | ⟨type, rfl⟩
    · exact ⟨by simp [Members.Distinct, Members.keys]; decide, by simp⟩
    · exact ⟨by simp [Members.Distinct, Members.keys]; decide, by simp⟩
    · exact ⟨Members.distinct_singleton _ _, by simpa using type_of_normalize hnormal⟩
  obtain ⟨hd, hmembers⟩ : Flat normal := by
    refine Field.normalize_invariant (P := Flat) (fun hputs hm => ⟨Members.distinct_set _ _ hm.1, fun entry he => ?_⟩) hflat hnormal
    rcases Members.mem_set he with he | ⟨-, hentry⟩
    · exact hm.2 entry he
    · rw [hentry]
      cases hputs <;> exact fun _ => Value.noConfusion
  exact Value.overlay_self_object hd fun entry he => Value.overlay_self_of_not_object (hmembers entry he)

/-- A junction that is written in two orders: the columns of the one are those of the other in another order, and what is made
of the two is the one that was there first. -/
structure SameJunction (junction junction' : Key × Value) : Prop where
  name : junction.1 = junction'.1
  columns : ∃ columns columns' : Members Key Value,
    junction.2 = .object [("skipRebuild", .bool true), ("fields", .object columns)] ∧
      junction'.2 = .object [("skipRebuild", .bool true), ("fields", .object columns')] ∧ columns.Perm columns'
  absorbs : Members.overlay [junction] [junction'] = [junction]
  absorbed : Members.overlay [junction'] [junction] = [junction']

/-- A junction that is laid over the same junction in another order. -/
theorem overlay_fragment_perm {name : Key} {columns columns' : Members Key Value} (hd : Members.Distinct columns)
    (hperm : columns.Perm columns') (hself : ∀ entry ∈ columns, SelfOverlaid entry.2) :
    Members.overlay [(name, .object [("skipRebuild", .bool true), ("fields", .object columns)])]
        [(name, .object [("skipRebuild", .bool true), ("fields", .object columns')])] =
      [(name, .object [("skipRebuild", .bool true), ("fields", .object columns)])] := by
  have hcolumns : Members.merge .override columns columns' = columns := Members.overlay_of_perm hd hperm hself
  rw [Members.overlay_singleton, Members.mergedAt_of_get? (Members.get?_singleton _ _), Members.set,
    if_pos BEq.rfl, Value.overlay_object]
  have hmark : Members.get? [(Key.text "skipRebuild", Value.bool true), ("fields", .object columns)] "skipRebuild" =
      some (.bool true) := by simp [Members.get?_cons]
  have hfields : Members.get? [(Key.text "skipRebuild", Value.bool true), ("fields", .object columns)] "fields" =
      some (.object columns) := by simp [Members.get?_cons]
  rw [Members.merge_cons, Members.mergedAt_of_get? hmark, Value.overlay_self_of_not_object (fun _ => Value.noConfusion),
    Members.set_of_get? hmark, Members.merge_cons, Members.mergedAt_of_get? hfields, Value.overlay_object, hcolumns,
    Members.set_of_get? hfields, Members.merge_nil]

/-- The junction of a relation whose declarations have normal forms. -/
theorem ofRelation_of_fields {c : Config} {relation declared normal : Members Key Value} {name : String}
    (hmany : Members.get? relation "type" = some (.str LinkKind.manyMany.word))
    (hname : Members.get? relation "relationName" = some (.str name)) (hdeclared : fields c relation = .ok declared)
    (hnormal : (Field.normalizeAll c (.text (Naming.junctionEntity name)) declared).result = .ok normal) :
    (ofRelation c (.object relation)).result = .ok (some (.text (Naming.junctionEntity name),
      .object [("skipRebuild", .bool true), ("fields", .object normal)])) := by
  unfold ofRelation
  refine Run.result_bind_eq_ok.2 ⟨relation, rfl, ?_⟩
  rw [if_pos (by rw [Members.value_of_get? hmany, Value.isText_iff])]
  refine Run.result_bind_eq_ok.2 ⟨.str name, Run.lift_eq_ok.2 (Value.item_object hname), ?_⟩
  refine Run.result_bind_eq_ok.2 ⟨name, rfl, ?_⟩
  refine Run.result_bind_eq_ok.2 ⟨declared, Run.lift_eq_ok.2 hdeclared, ?_⟩
  exact Run.result_bind_eq_ok.2 ⟨normal, hnormal, rfl⟩

/-- What a many-to-many relation says of its junction. -/
structure Says (relation : Members Key Value) (name : String) (keys : List String) : Prop where
  type : Members.get? relation "type" = some (.str LinkKind.manyMany.word)
  name : Members.get? relation "relationName" = some (.str name)
  keys : relation.value "midKeys" = .ofTexts keys

/-- A relation without additional columns has a junction. -/
theorem exists_junction_of_says {c : Config} {relation : Members Key Value} {a b name : String} (hsaid : Says relation name [a, b])
    (hnone : (relation.value "additionalColumns").truthy = false) :
    ∃ junction, (ofRelation c (.object relation)).result = .ok (some junction) := by
  have hdeclared : fields c relation = .ok (((ownFields c).set (.text a) keyField).set (.text b) keyField) := by
    rw [fields_of_keys hsaid.keys, Value.givenMembers, hnone]
    rfl
  obtain ⟨normal, hnormal⟩ : ∃ normal, (Field.normalizeAll c (.text (Naming.junctionEntity name))
      (((ownFields c).set (.text a) keyField).set (.text b) keyField)).result = .ok normal := by
    refine (Field.normalizeAll_isOk_iff c _).2 fun entry he => ?_
    have hkey : ∃ attributes : Members Key Value, keyField = .object attributes ∧ (attributes.value "type").isScalar = true :=
      ⟨_, rfl, rfl⟩
    rcases Members.mem_set he with he | ⟨-, hentry⟩
    · rcases Members.mem_set he with he | ⟨-, hentry⟩
      · simp only [ownFields, List.mem_cons, List.not_mem_nil, or_false] at he
        rcases he with rfl | rfl <;> exact ⟨_, rfl, rfl⟩
      · exact hentry ▸ hkey
    · exact hentry ▸ hkey
  exact ⟨_, ofRelation_of_fields hsaid.type hsaid.name hdeclared hnormal⟩

/-- The junctions of two relations that differ in the order of their keys. -/
theorem sameJunction_of_ofRelation {c : Config} {relation relation' : Members Key Value} {a b name : String}
    (hsaid : Says relation name [a, b]) (hsaid' : Says relation' name [b, a])
    (hcolumns : relation.value "additionalColumns" = relation'.value "additionalColumns") {junction : Key × Value}
    (h : (ofRelation c (.object relation)).result = .ok (some junction)) :
    ∃ junction', (ofRelation c (.object relation')).result = .ok (some junction') ∧ SameJunction junction junction' := by
  rcases ofRelation_eq_ok h with ⟨-, hnone⟩ | ⟨-, written, declared, normal, hwritten, hdeclared, hnormal, hjunction⟩
  · cases hnone
  · cases hjunction
    rw [Value.members_object] at hwritten hdeclared
    rw [Members.value_of_get? hsaid.name] at hwritten
    cases hwritten
    obtain ⟨declared', hdeclared', hperm⟩ := exists_fields_perm hsaid.keys hsaid'.keys hcolumns hdeclared
    obtain ⟨normal', hnormal', hpermNormal⟩ := Field.exists_normalizeAll_perm hperm hnormal
    obtain ⟨hd, hdeclaration⟩ := declaration_of_fields hdeclared
    have hdNormal := Field.distinct_normalizeAll hd hnormal
    have hself : ∀ entry ∈ normal, SelfOverlaid entry.2 := by
      intro entry he
      obtain ⟨params, p, hmem, hp, hentry⟩ := Field.exists_of_mem_normalizeAll hnormal he
      exact selfOverlaid_of_declaration (hdeclaration _ hmem) (Field.normalForm?_eq_some.2 ⟨p, hp, hentry⟩)
    refine ⟨_, ofRelation_of_fields hsaid'.type hsaid'.name hdeclared' hnormal', rfl, ⟨normal, normal', rfl, rfl, hpermNormal⟩,
      overlay_fragment_perm hdNormal hpermNormal hself, ?_⟩
    exact overlay_fragment_perm (Members.distinct_of_perm hpermNormal hdNormal) hpermNormal.symm fun entry he =>
      hself entry (hpermNormal.mem_iff.2 he)

end Junction

/-! ## Inverse links -/

namespace Link

/-- A many-to-many link to a target that refers back by a name, and that leaves the name and the keys of its junction to the
compiler. -/
structure Mirrors (target inverse : String) (params : Params) : Prop extends NamedByDefault target params where
  type : params.value "type" = .str LinkKind.manyMany.word
  foreign : params.value "foreign" = .str inverse
  unkeyed : (params.value "midKeys").truthy = false

section
variable {m : Metadata} {entity target link inverse : String} {params params' : Params}

/-- The keys of the junction of a link, the own side first. -/
def keysOf (entity target link inverse : String) : List String :=
  if entity = target then Naming.sideKeys (decide (link ≤ inverse)) else Naming.pairKeys entity target

theorem junctionKeys_of_mirrors (h : Mirrors target inverse params) (hinverse : inverse ≠ "") :
    junctionKeys (.str entity) (.str link) params = .ok (keysOf entity target link inverse) := by
  have hitem : (Value.object params).item "entity" = .ok (.str target) :=
    Value.item_object (Members.value_eq_str.1 h.entity)
  have hsame : (Value.str target).same (.str entity) = decide (entity = target) := by
    have htexts : (Value.str target).same (.str entity) = (Key.text target == Key.text entity) := rfl
    rw [htexts, Bool.eq_iff_iff, decide_eq_true_iff, Key.beq_text, Key.text.injEq, eq_comm]
  have hforeign : orElse (.str inverse) (.str link) = .str inverse := by
    unfold orElse
    rw [if_pos (by simpa [Value.truthy] using hinverse)]
  unfold junctionKeys keysOf
  rw [hitem, ok_bind, hsame, h.foreign, hforeign, Value.atMost?_text]
  by_cases hself : entity = target
  · rw [if_pos hself, decide_eq_true hself]
    rfl
  · rw [if_neg hself, decide_eq_false hself]
    rfl

/-- The keys of the one side are those of the other side in reverse. -/
theorem keysOf_reversed (hne : entity = target → link ≠ inverse) :
    keysOf target entity inverse link = (keysOf entity target link inverse).reverse := by
  unfold keysOf
  by_cases hself : entity = target
  · have hnot := hne hself
    rw [if_pos hself, if_pos hself.symm]
    rcases lt_or_gt_of_ne hnot with h | h
    · rw [decide_eq_true (le_of_lt h), decide_eq_false (not_le_of_gt h)]
      rfl
    · rw [decide_eq_true (le_of_lt h), decide_eq_false (not_le_of_gt h)]
      rfl
  · rw [if_neg hself, if_neg (Ne.symm hself)]
    rfl

/-- A link that refers back has a relation that says its junction and its keys, whatever the template of its type says. -/
theorem exists_relation_of_mirrors (m : Metadata) (entity link : String) (h : Mirrors target inverse params)
    (hinverse : inverse ≠ "") :
    ∃ relation, Link.relation m (.str entity) (.str link) params .manyMany = .ok relation ∧
      Junction.Says relation (Naming.relationName entity target) (keysOf entity target link inverse) ∧
        ((params.value "additionalColumns").truthy = false → relation.value "additionalColumns" =
          (m.linkType LinkKind.manyMany.word).relationDefs.value "additionalColumns") := by
  have hbuilt : relationOf (.str entity) (.str link) params .manyMany = .ok (withGiven params manyManyGiven
      (manyManyOwn target (Naming.relationName entity target) (.ofTexts (keysOf entity target link inverse)))) := by
    show manyMany (.str entity) (.str link) params = _
    unfold manyMany
    simp only [h.unnamed, h.unkeyed, h.entity, junctionName_text, junctionKeys_of_mirrors h hinverse]
    rfl
  obtain ⟨relation, hrelation⟩ := relation_isOk_iff.2 ⟨_, hbuilt⟩
  have hown : ∀ key ∉ keptParams, ∀ v, Members.get? (manyManyOwn target (Naming.relationName entity target)
      (.ofTexts (keysOf entity target link inverse))) key = some v → (∀ below, v ≠ .object below) →
      Members.get? relation key = some v := fun key hkey v hv hobject =>
    get?_relation hbuilt hrelation hkey (by rw [get?_withGiven, hv]; rfl) hobject
  refine ⟨relation, hrelation, ⟨?_, ?_, ?_⟩, fun hcolumns => ?_⟩
  · exact hown _ (by simp [keptParams]) _ (by simp [manyManyOwn, Members.get?_cons]) fun _ => Value.noConfusion
  · exact hown _ (by simp [keptParams]) _ (by simp [manyManyOwn, Members.get?_cons]) fun _ => Value.noConfusion
  · exact Members.value_of_get? (hown _ (by simp [keptParams]) _ (by simp [manyManyOwn, Members.get?_cons])
      fun _ => Value.noConfusion)
  · refine Members.value_congr (get?_relation_of_none hbuilt hrelation (by simp [keptParams]) ?_)
    rw [get?_withGiven, hcolumns]
    simp [manyManyOwn, Members.get?_cons]

theorem keysOf_eq_pair (entity target link inverse : String) : ∃ a b, keysOf entity target link inverse = [a, b] := by
  unfold keysOf
  split
  · cases decide (link ≤ inverse) <;> exact ⟨_, _, rfl⟩
  · exact ⟨_, _, rfl⟩

/-- Two inverse links say the same junction with its keys in either order. If neither of them declares additional columns, both
have a junction or none, which is the same one in two orders; without additional columns of their type there is one. -/
theorem bothSides_agree (m : Metadata) (hlink : link ≠ "") (hinverse : inverse ≠ "") (hne : entity = target → link ≠ inverse)
    (h : Mirrors target inverse params) (h' : Mirrors entity link params') :
    ∃ relation relation' name keys, Resolves m entity link params .manyMany relation ∧
      Resolves m target inverse params' .manyMany relation' ∧ Junction.Says relation name keys ∧
        Junction.Says relation' name keys.reverse ∧ ∀ c : Config,
          (∀ junction junction', HasJunctionEntity c m entity (.str link) params junction →
            HasJunctionEntity c m target (.str inverse) params' junction' → junction.1 = junction'.1) ∧
          ((params.value "additionalColumns").truthy = false → (params'.value "additionalColumns").truthy = false →
            ((∃ junction, HasJunctionEntity c m entity (.str link) params junction) ↔
              ∃ junction', HasJunctionEntity c m target (.str inverse) params' junction') ∧
            (((m.linkType LinkKind.manyMany.word).relationDefs.value "additionalColumns").truthy = false →
              ∃ junction, HasJunctionEntity c m entity (.str link) params junction) ∧
            ∀ junction junction', HasJunctionEntity c m entity (.str link) params junction →
              HasJunctionEntity c m target (.str inverse) params' junction' → Junction.SameJunction junction junction') := by
  obtain ⟨relation, hrelation, hsaid, hcolumns⟩ := exists_relation_of_mirrors m entity link h hinverse
  obtain ⟨relation', hrelation', hsaid', hcolumns'⟩ := exists_relation_of_mirrors m target inverse h' hlink
  rw [Naming.relationName_comm, keysOf_reversed hne] at hsaid'
  refine ⟨relation, relation', _, _, resolves_of_relation h.type hrelation, resolves_of_relation h'.type hrelation', hsaid, hsaid',
    fun c => ⟨fun junction junction' hjunction hjunction' => ?_, fun hnone hnone' => ?_⟩⟩
  · rw [name_of_hasJunctionEntity h.toNamedByDefault hjunction, name_of_hasJunctionEntity h'.toNamedByDefault hjunction',
      Naming.relationName_comm]
  -- both relations have the columns of the template, and their keys are two names
  have hsame : relation.value "additionalColumns" = relation'.value "additionalColumns" := by
    rw [hcolumns hnone, hcolumns' hnone']
  obtain ⟨a, b, hkeys⟩ := keysOf_eq_pair entity target link inverse
  rw [hkeys] at hsaid hsaid'
  have hforward : ∀ junction, HasJunctionEntity c m entity (.str link) params junction →
      ∃ junction', HasJunctionEntity c m target (.str inverse) params' junction' ∧ Junction.SameJunction junction junction' := by
    rintro junction ⟨found, hfound, hof⟩
    cases hrelation.symm.trans hfound
    obtain ⟨junction', hof', hboth⟩ := Junction.sameJunction_of_ofRelation hsaid hsaid' hsame hof
    exact ⟨junction', ⟨relation', hrelation', hof'⟩, hboth⟩
  refine ⟨⟨?_, ?_⟩, fun htemplate => ?_, fun junction junction' hjunction hjunction' => ?_⟩
  · rintro ⟨junction, hjunction⟩
    obtain ⟨junction', hjunction', -⟩ := hforward junction hjunction
    exact ⟨junction', hjunction'⟩
  · rintro ⟨junction', found, hfound, hof'⟩
    cases hrelation'.symm.trans hfound
    obtain ⟨junction, hof, -⟩ := Junction.sameJunction_of_ofRelation hsaid' hsaid hsame.symm hof'
    exact ⟨junction, relation, hrelation, hof⟩
  · obtain ⟨junction, hof⟩ := Junction.exists_junction_of_says (c := c) hsaid (by rw [hcolumns hnone, htemplate])
    exact ⟨junction, relation, hrelation, hof⟩
  · obtain ⟨found', hfound', hboth⟩ := hforward junction hjunction
    obtain ⟨relation₁, hrelation₁, hof₁⟩ := hfound'
    obtain ⟨relation₂, hrelation₂, hof₂⟩ := hjunction'
    cases hrelation₁.symm.trans hrelation₂
    cases hof₁.symm.trans hof₂
    exact hboth

end

/-- A many-to-many link that refers back by a name. -/
def mirrorLink (target inverse : String) : Params :=
  [("type", .str LinkKind.manyMany.word), ("entity", .str target), ("foreign", .str inverse)]

theorem mirrors_mirrorLink (target inverse : String) : Mirrors target inverse (mirrorLink target inverse) :=
  ⟨⟨rfl, rfl⟩, rfl, rfl, rfl⟩

/-- Employees and the employees they report to: the name that comes first has the left key. -/
theorem bothSides_agree_reports :
    ∃ relation relation', Resolves {} "User" "reports" (mirrorLink "User" "managers") .manyMany relation ∧
      Resolves {} "User" "managers" (mirrorLink "User" "reports") .manyMany relation' ∧
        ∃ junction junction', HasJunctionEntity {} {} "User" (.str "reports") (mirrorLink "User" "managers") junction ∧
          HasJunctionEntity {} {} "User" (.str "managers") (mirrorLink "User" "reports") junction' ∧
            Junction.SameJunction junction junction' := by
  obtain ⟨relation, relation', name, keys, hrelation, hrelation', -, -, hjunctions⟩ :=
    bothSides_agree {} (by decide) (by decide) (fun _ => by decide)
      (mirrors_mirrorLink "User" "managers") (mirrors_mirrorLink "User" "reports")
  obtain ⟨-, hplain⟩ := hjunctions {}
  obtain ⟨hboth, hexists, hsame⟩ := hplain rfl rfl
  obtain ⟨junction, hjunction⟩ := hexists rfl
  obtain ⟨junction', hjunction'⟩ := hboth.1 ⟨junction, hjunction⟩
  exact ⟨relation, relation', hrelation, hrelation', junction, junction', hjunction, hjunction', hsame _ _ hjunction hjunction'⟩

end Link

end EntitySchema
