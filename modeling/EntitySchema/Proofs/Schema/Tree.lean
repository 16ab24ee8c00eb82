import EntitySchema.Proofs.Link.Junction
import EntitySchema.Proofs.Record.Canonical
import EntitySchema.Schema.Compile

/-!
# From the tree to the schema

A schema that was compiled is the canonical form of a tree: the tree of all entities in normal form, over which the junctions
of each entity were laid. A junction adds fields to an entity or makes one; relations and everything else stay as they were.

Results:
* `result_compile`, `compile_eq_ok`: a compiled schema in terms of its tree.
* `joined_of_compileTree`: the tree of all entities, with the junctions laid over.
* `fieldsIn_withJunctions`: the fields of an entity once all junctions are laid over.
* `Assembled`: a schema with the tree and the junctions that it was made from.
-/
namespace EntitySchema.Schema

/-! ## Views on a tree -/

/-- What stands under the name of an entity. -/
def entityIn (tree : Members Key Value) (entity : Key) : Members Key Value :=
  (tree.value entity).members

/-- The fields of an entity. -/
def fieldsIn (tree : Members Key Value) (entity : Key) : Members Key Value :=
  ((entityIn tree entity).value "fields").members

/-- The relations of an entity. -/
def relationsIn (tree : Members Key Value) (entity : Key) : Members Key Value :=
  ((entityIn tree entity).value "relations").members

/-- The compiled fields of an entity. -/
def fields (s : Schema) (entity : Key) : Members Key Value :=
  fieldsIn s.entities entity

/-- The compiled relations of an entity. -/
def relations (s : Schema) (entity : Key) : Members Key Value :=
  relationsIn s.entities entity

/-- Every entity of a tree is an object that has fields. -/
def WithFields (tree : Members Key Value) : Prop :=
  ∀ key v, Members.get? tree key = some v → ∃ m fields, v = .object m ∧ Members.get? m "fields" = some (.object fields)

theorem entityIn_of_get? {tree : Members Key Value} {entity : Key} {m : Members Key Value}
    (h : Members.get? tree entity = some (.object m)) : entityIn tree entity = m := by
  rw [entityIn, Members.value_of_get? h]; rfl

theorem entityIn_singleton (entity : Key) (m : Members Key Value) : entityIn [(entity, .object m)] entity = m :=
  entityIn_of_get? (Members.get?_singleton _ _)

theorem entityIn_of_get?_none {tree : Members Key Value} {entity : Key} (h : Members.get? tree entity = none) :
    entityIn tree entity = [] := by
  rw [entityIn, Members.value, h]; rfl

/-- An entity in which something is found is there. -/
theorem exists_of_get?_members {tree : Members Key Value} {entity key name : Key} {v : Value}
    (h : Members.get? ((entityIn tree entity).value key).members name = some v) : ∃ own, Members.get? tree entity = some own := by
  cases hget : Members.get? tree entity with
  | some own => exact ⟨own, rfl⟩
  | none =>
    rw [entityIn_of_get?_none hget] at h
    cases h

/-- An entity is found under every spelling of its name. -/
theorem entityIn_congr {entity entity' : Key} (h : (entity == entity') = true) (tree : Members Key Value) :
    entityIn tree entity = entityIn tree entity' := by
  unfold entityIn Members.value
  rw [Members.get?_congr h]

theorem fieldsIn_of_get? {tree : Members Key Value} {entity : Key} {m fields : Members Key Value}
    (h : Members.get? tree entity = some (.object m)) (hf : Members.get? m "fields" = some (.object fields)) :
    fieldsIn tree entity = fields := by
  rw [fieldsIn, entityIn_of_get? h, Members.value_of_get? hf]; rfl

theorem fieldsIn_of_get?_none {tree : Members Key Value} {entity : Key} (h : Members.get? tree entity = none) :
    fieldsIn tree entity = [] := by
  rw [fieldsIn, entityIn_of_get?_none h]; rfl

/-! ## The tree of all entities -/

/-- The tree of all entities in normal form, before the junctions join it. -/
def entityTree (c : Compiler) (s : Snapshot) : Run (Members Key Value) := do
  let compiled ← compileEntities c s.metadata [] s.entities
  normalize c.config compiled

theorem result_compile (c : Compiler) (s : Snapshot) :
    (compile c s).result = (entityTree c s).result >>= fun tree =>
      (withJunctions c.config tree 0 tree.values).result >>= fun found =>
        (ofTree (.object found.1)).mapError Error.mismatch := by
  unfold compile compileTree entityTree
  simp only [Run.result_bind, bind_assoc]
  refine bind_congr fun compiled => bind_congr fun tree => bind_congr fun found => ?_
  rw [Run.result_note, ok_bind, Run.result_pure, ok_bind]
  cases ofTree (.object found.1) <;> rfl

/-- A schema is the canonical form of the tree of all entities with the junctions laid over. -/
theorem compile_eq_ok {c : Compiler} {s : Snapshot} {schema : Schema} :
    (compile c s).result = .ok schema ↔
      ∃ tree found, (entityTree c s).result = .ok tree ∧ (withJunctions c.config tree 0 tree.values).result = .ok found ∧
        ofTree (.object found.1) = .ok schema := by
  have hofTree : ∀ tree : Value, (ofTree tree).mapError Error.mismatch = .ok schema ↔ ofTree tree = .ok schema := fun tree => by
    cases ofTree tree <;> simp [Except.mapError]
  simp only [result_compile, bind_eq_ok, hofTree]
  exact ⟨fun ⟨tree, htree, found, hfound, h⟩ => ⟨tree, found, htree, hfound, h⟩,
    fun ⟨tree, found, htree, hfound, h⟩ => ⟨tree, htree, found, hfound, h⟩⟩

/-! ## Normal forms -/

/-- What an entity has in common with its normal form. -/
def IsNormalOf (c : Config) (compiled normal : Value) : Prop :=
  ∃ (name : Key) (m fields : Members Key Value), compiled = .object m ∧
    (Field.normalizeAll c name (m.value "fields").members).result = .ok fields ∧
      normal = .object (m.set "fields" (.object fields))

theorem normalizeEntity_eq_ok {c : Config} {entity : Key} {compiled : Value} {normal : Members Key Value}
    (h : (normalizeEntity c entity compiled).result = .ok normal) : IsNormalOf c compiled (.object normal) := by
  unfold normalizeEntity at h
  obtain ⟨m, hm, h⟩ := Run.result_bind_eq_ok.1 h
  obtain ⟨given, hgiven, h⟩ := Run.result_bind_eq_ok.1 h
  obtain ⟨fields, hfields, h⟩ := Run.result_bind_eq_ok.1 h
  cases h
  obtain rfl := Value.spread_eq_ok.1 (Run.lift_eq_ok.1 hm)
  obtain rfl := Value.givenMembers_eq_ok (Run.lift_eq_ok.1 hgiven)
  exact ⟨entity, m, fields, rfl, hfields, rfl⟩

theorem normalize_eq_ok {c : Config} {compiled tree : Members Key Value} (h : (normalize c compiled).result = .ok tree) :
    List.Forall₂ (fun before after => before.1 = after.1 ∧ IsNormalOf c before.2 after.2) compiled tree := by
  induction compiled generalizing tree with
  | nil => cases h; exact .nil
  | cons entry rest ih =>
    obtain ⟨entity, v⟩ := entry
    rw [normalize] at h
    obtain ⟨members, hmembers, h⟩ := Run.result_bind_eq_ok.1 h
    obtain ⟨tree', htree', h⟩ := Run.result_bind_eq_ok.1 h
    cases h
    exact .cons ⟨rfl, normalizeEntity_eq_ok hmembers⟩ (ih htree')

section
variable {c : Config} {compiled tree : Members Key Value}

theorem withFields_normalize (h : (normalize c compiled).result = .ok tree) : WithFields tree := by
  intro key v hv
  have hrel := Members.rel_get? (normalize_eq_ok h) key
  rw [hv] at hrel
  generalize Members.get? compiled key = before at hrel
  cases hrel with
  | some hnormal =>
    obtain ⟨-, m, fields, -, -, rfl⟩ := hnormal
    exact ⟨_, fields, rfl, Members.get?_set_self _ _ _⟩

/-- An entity in normal form keeps everything but its fields. -/
theorem get?_entityIn_normalize (h : (normalize c compiled).result = .ok tree) (entity : Key) {key : Key}
    (hkey : key ≠ .text "fields") :
    Members.get? (entityIn tree entity) key = Members.get? (entityIn compiled entity) key := by
  have hrel := Members.rel_get? (normalize_eq_ok h) entity
  generalize hbefore : Members.get? compiled entity = before at hrel
  generalize hafter : Members.get? tree entity = after at hrel
  cases hrel with
  | none => rw [entityIn_of_get?_none hbefore, entityIn_of_get?_none hafter]
  | some hnormal =>
    obtain ⟨-, m, fields, rfl, -, rfl⟩ := hnormal
    rw [entityIn_of_get? hbefore, entityIn_of_get? hafter, Members.get?_set, if_neg (by simpa using hkey)]

/-- The fields of an entity in normal form are the normal forms of its fields. -/
theorem fieldsIn_normalize (h : (normalize c compiled).result = .ok tree) (entity : Key) :
    ∃ name, (Field.normalizeAll c name (fieldsIn compiled entity)).result = .ok (fieldsIn tree entity) := by
  have hrel := Members.rel_get? (normalize_eq_ok h) entity
  generalize hbefore : Members.get? compiled entity = before at hrel
  generalize hafter : Members.get? tree entity = after at hrel
  cases hrel with
  | none => exact ⟨entity, by rw [fieldsIn_of_get?_none hbefore, fieldsIn_of_get?_none hafter]; rfl⟩
  | some hnormal =>
    obtain ⟨name, m, fields, rfl, hfields, rfl⟩ := hnormal
    refine ⟨name, ?_⟩
    rw [fieldsIn_of_get? hafter (Members.get?_set_self _ _ _), fieldsIn, entityIn_of_get? hbefore]
    exact hfields

end

/-! ## Junctions -/

/-- A tree of junctions. -/
structure OfFragments (part : Members Key Value) : Prop where
  distinct : Members.Distinct part
  fragment : ∀ key v, Members.get? part key = some v → Junction.IsFragment v

theorem ofFragments_entities {c : Config} {compiled : Value} {part : Members Key Value}
    (h : (Junction.entities c compiled).result = .ok part) : OfFragments part :=
  ⟨Junction.distinct_entities h, fun _ _ hv => Junction.isFragment_of_entities h hv⟩

theorem fieldsIn_of_fragment {tree : Members Key Value} {entity : Key} {columns : Members Key Value}
    (h : Members.get? tree entity = some (.object [("skipRebuild", .bool true), ("fields", .object columns)])) :
    fieldsIn tree entity = columns :=
  fieldsIn_of_get? h (by simp [Members.get?_cons])

/-- The junctions of each entity are laid over the tree one after the other. -/
theorem withJunctions_eq_ok {c : Config} {tree : Members Key Value} {count : Nat} {entities : List Value}
    {found : Members Key Value × Nat} (h : (withJunctions c tree count entities).result = .ok found) :
    ∃ parts, List.Forall₂ (fun entity part => (Junction.entities c entity).result = .ok part) entities parts ∧
      found.1 = parts.foldl Members.overlay tree := by
  induction entities generalizing tree count with
  | nil => cases h; exact ⟨[], .nil, rfl⟩
  | cons entity rest ih =>
    rw [withJunctions] at h
    obtain ⟨part, hpart, h⟩ := Run.result_bind_eq_ok.1 h
    obtain ⟨parts, hparts, hfound⟩ := ih h
    exact ⟨part :: parts, .cons hpart hparts, hfound⟩

/-- A tree with the junctions of the given entities laid over it. -/
def Joined (c : Config) (tree : Members Key Value) (entities : List Value) (joined : Members Key Value) : Prop :=
  ∃ count, (withJunctions c tree 0 entities).result = .ok (joined, count)

/-- The tree that is checked at last: that of all entities in normal form, with the junctions of each laid over. -/
theorem joined_of_compileTree {c : Compiler} {s : Snapshot} {tree : Members Key Value} (h : (compileTree c s).result = .ok tree) :
    ∃ normal, (entityTree c s).result = .ok normal ∧ Joined c.config normal normal.values tree := by
  unfold compileTree at h
  obtain ⟨compiled, hcompiled, h⟩ := Run.result_bind_eq_ok.1 h
  obtain ⟨normal, hnormal, h⟩ := Run.result_bind_eq_ok.1 h
  obtain ⟨found, hfound, h⟩ := Run.result_bind_eq_ok.1 h
  obtain ⟨-, -, h⟩ := Run.result_bind_eq_ok.1 h
  cases h
  exact ⟨normal, Run.result_bind_eq_ok.2 ⟨compiled, hcompiled, hnormal⟩, found.2, hfound⟩

theorem compileTree_eq_ok {c : Compiler} {s : Snapshot} {tree : Members Key Value} (h : (compileTree c s).result = .ok tree) :
    ∃ normal parts, (entityTree c s).result = .ok normal ∧
      List.Forall₂ (fun compiled part => (Junction.entities c.config compiled).result = .ok part) normal.values parts ∧
        tree = parts.foldl Members.overlay normal := by
  obtain ⟨normal, hnormal, count, hjoined⟩ := joined_of_compileTree h
  obtain ⟨parts, hparts, hfull⟩ := withJunctions_eq_ok hjoined
  exact ⟨normal, parts, hnormal, hparts, hfull⟩

section
variable {tree part : Members Key Value}

theorem distinct_fragment (columns : Value) :
    Members.Distinct [(("skipRebuild" : Key), Value.bool true), ("fields", columns)] :=
  Members.distinct_pair (by decide) _ _

/-- What a junction adds to an entity: its fields, and the mark that its tables are left as they are. -/
theorem overlay_fragment {m fields columns : Members Key Value} (hf : Members.get? m "fields" = some (.object fields)) :
    Members.get? (m.overlay [("skipRebuild", .bool true), ("fields", .object columns)]) "fields" =
      some (.object (fields.overlay columns)) := by
  rw [Members.overlay, Members.get?_merge (distinct_fragment _)]
  simp [Members.get?_cons, Members.mergedAt_of_get? hf, Members.overlay]

theorem withFields_overlay (ht : WithFields tree) (hp : OfFragments part) : WithFields (tree.overlay part) := by
  intro key v hv
  rw [Members.overlay, Members.get?_merge hp.distinct] at hv
  cases hpart : Members.get? part key with
  | none => rw [hpart] at hv; exact ht key v hv
  | some w =>
    rw [hpart] at hv
    cases hv
    obtain ⟨columns, rfl, -, -⟩ := hp.fragment key w hpart
    cases htree : Members.get? tree key with
    | none => rw [Members.mergedAt_of_get?_none htree]; exact ⟨_, columns, rfl, by simp [Members.get?_cons]⟩
    | some v =>
      obtain ⟨m, fields, rfl, hf⟩ := ht key v htree
      rw [Members.mergedAt_of_get? htree, Value.overlay_object]
      exact ⟨_, _, rfl, overlay_fragment hf⟩

/-- Junctions laid over a tree leave everything of an entity alone but its fields and its mark. -/
theorem get?_entityIn_overlay (ht : WithFields tree) (hp : OfFragments part) (entity : Key) {key : Key}
    (hmark : key ≠ .text "skipRebuild") (hfields : key ≠ .text "fields") :
    Members.get? (entityIn (tree.overlay part) entity) key = Members.get? (entityIn tree entity) key := by
  have hget := Members.get?_overlay tree hp.distinct entity
  cases hpart : Members.get? part entity with
  | none =>
    rw [hpart] at hget
    simp only [entityIn, Members.value, hget]
  | some w =>
    rw [hpart] at hget
    obtain ⟨columns, rfl, -, -⟩ := hp.fragment entity w hpart
    cases htree : Members.get? tree entity with
    | none =>
      simp only [Members.mergedAt_of_get?_none htree] at hget
      rw [entityIn_of_get? hget, entityIn_of_get?_none htree]
      simp [Members.get?_cons, hmark, hfields]
    | some v =>
      obtain ⟨m, fields, rfl, -⟩ := ht entity v htree
      simp only [Members.mergedAt_of_get? htree, Value.overlay_object] at hget
      rw [entityIn_of_get? hget, entityIn_of_get? htree, Members.get?_merge_of_none]
      simp [Members.get?_cons, hmark, hfields]

/-- Junctions laid over a tree lay their columns over the fields of their entities. -/
theorem fieldsIn_overlay (ht : WithFields tree) (hp : OfFragments part) (entity : Key) :
    fieldsIn (tree.overlay part) entity = (fieldsIn tree entity).overlay (fieldsIn part entity) := by
  have hget := Members.get?_overlay tree hp.distinct entity
  cases hpart : Members.get? part entity with
  | none =>
    rw [hpart] at hget
    rw [fieldsIn_of_get?_none hpart]
    show _ = Members.merge .override (fieldsIn tree entity) []
    rw [Members.merge_nil]
    simp only [fieldsIn, entityIn, Members.value, hget]
  | some w =>
    rw [hpart] at hget
    obtain ⟨columns, rfl, hd, -⟩ := hp.fragment entity w hpart
    have hcolumns : fieldsIn part entity = columns := fieldsIn_of_fragment hpart
    rw [hcolumns]
    cases htree : Members.get? tree entity with
    | none =>
      simp only [Members.mergedAt_of_get?_none htree] at hget
      rw [fieldsIn_of_get?_none htree, Members.overlay_nil_left hd]
      exact fieldsIn_of_fragment hget
    | some v =>
      obtain ⟨m, fields, rfl, hf⟩ := ht entity v htree
      simp only [Members.mergedAt_of_get? htree, Value.overlay_object] at hget
      rw [fieldsIn_of_get? htree hf]
      exact fieldsIn_of_get? hget (overlay_fragment hf)

/-- Whatever stands in a tree, junctions laid over it give an entity their columns and take none of its fields. -/
theorem contains_fieldsIn_overlay (tree : Members Key Value) (hp : OfFragments part) (entity field : Key) :
    Members.contains (fieldsIn (tree.overlay part) entity) field =
      (Members.contains (fieldsIn tree entity) field || Members.contains (fieldsIn part entity) field) := by
  cases hpart : Members.get? part entity with
  | none =>
    have hsame : Members.get? (tree.overlay part) entity = Members.get? tree entity := Members.get?_merge_of_none hpart
    rw [fieldsIn, entityIn, Members.value_congr hsame, fieldsIn_of_get?_none hpart]
    exact (Bool.or_false _).symm
  | some w =>
    obtain ⟨columns, rfl, -, -⟩ := hp.fragment entity w hpart
    rw [fieldsIn_of_fragment hpart, fieldsIn, entityIn, Members.value_overlay tree hp.distinct hpart,
      Members.value_members_overlay _ (distinct_fragment _) (w := .object columns) (by simp [Members.get?_cons])]
    exact Members.contains_members_overlay

end

section
variable {tree : Members Key Value} {parts : List (Members Key Value)}

theorem withFields_withJunctions (ht : WithFields tree) (hp : ∀ part ∈ parts, OfFragments part) :
    WithFields (parts.foldl Members.overlay tree) :=
  List.foldlRecOn parts Members.overlay ht fun _ hb _ hpart => withFields_overlay hb (hp _ hpart)

theorem get?_entityIn_withJunctions (ht : WithFields tree) (hp : ∀ part ∈ parts, OfFragments part) (entity : Key) {key : Key}
    (hmark : key ≠ .text "skipRebuild") (hfields : key ≠ .text "fields") :
    Members.get? (entityIn (parts.foldl Members.overlay tree) entity) key = Members.get? (entityIn tree entity) key := by
  induction parts generalizing tree with
  | nil => rfl
  | cons part rest ih =>
    rw [List.foldl_cons, ih (withFields_overlay ht (hp _ List.mem_cons_self)) fun p h => hp p (List.mem_cons_of_mem _ h)]
    exact get?_entityIn_overlay ht (hp _ List.mem_cons_self) entity hmark hfields

/-- The fields of an entity once all junctions are laid over. -/
theorem fieldsIn_withJunctions (ht : WithFields tree) (hp : ∀ part ∈ parts, OfFragments part) (entity : Key) :
    fieldsIn (parts.foldl Members.overlay tree) entity =
      parts.foldl (fun fields part => fields.overlay (fieldsIn part entity)) (fieldsIn tree entity) := by
  induction parts generalizing tree with
  | nil => rfl
  | cons part rest ih =>
    rw [List.foldl_cons, ih (withFields_overlay ht (hp _ List.mem_cons_self)) fun p h => hp p (List.mem_cons_of_mem _ h),
      fieldsIn_overlay ht (hp _ List.mem_cons_self), List.foldl_cons]

/-- An entity has a field if it had it before or one of the junctions has it. -/
theorem contains_fieldsIn_withJunctions (tree : Members Key Value) (hp : ∀ part ∈ parts, OfFragments part)
    (entity field : Key) :
    Members.contains (fieldsIn (parts.foldl Members.overlay tree) entity) field = true ↔
      Members.contains (fieldsIn tree entity) field = true ∨
        ∃ part ∈ parts, Members.contains (fieldsIn part entity) field = true := by
  induction parts generalizing tree with
  | nil => simp
  | cons part rest ih =>
    rw [List.foldl_cons, ih _ fun p h => hp p (List.mem_cons_of_mem _ h),
      contains_fieldsIn_overlay tree (hp _ List.mem_cons_self), Bool.or_eq_true]
    simp [or_assoc]

end

/-! ## The schema -/

theorem ofTree_eq_ok {tree : Members Key Value} {schema : Schema} (h : ofTree (.object tree) = .ok schema) :
    Record.checkMembers Record.compiledEntity.check tree = .ok schema.entities := by
  unfold ofTree Record.Shape.accept at h
  obtain ⟨w, hw, rfl⟩ := map_eq_ok.1 h
  split at hw
  · rename_i w' hcheck
    cases hw
    obtain ⟨m, m', hm, hmembers, rfl⟩ := Record.mapOf_eq_ok.1 hcheck
    cases hm
    exact hmembers
  · cases hw

section
variable {tree : Members Key Value} {schema : Schema}

/-- An attribute of an entity in the schema is the canonical form of what the tree gives it as. -/
theorem rel_given (h : ofTree (.object tree) = .ok schema) (ht : WithFields tree) (entity : Key) {a : Record.Attribute}
    {s : Record.Shape} (ha : (a, s) ∈ Record.compiledEntity.attributes) :
    Option.Rel (fun v w => s.check v = .ok w) (a.given? (entityIn tree entity))
      (Members.get? (entityIn schema.entities entity) (.text a.key)) := by
  have hrel := Record.get?_checkMembers (ofTree_eq_ok h) entity
  generalize hbefore : Members.get? tree entity = before at hrel
  generalize hafter : Members.get? schema.entities entity = after at hrel
  cases hrel with
  | none => rw [entityIn_of_get?_none hbefore, entityIn_of_get?_none hafter]; exact .none
  | some hcheck =>
    obtain ⟨m, -, rfl, -⟩ := ht entity _ hbefore
    obtain ⟨_, _, -, -, rfl⟩ := Record.record_eq_ok Record.isRecord_compiledEntity hcheck
    rw [entityIn_of_get? hbefore, entityIn_of_get? hafter]
    exact Record.get?_record Record.isRecord_compiledEntity hcheck ha

/-- The members of a map of an entity in the schema are the canonical forms of those in the tree. -/
theorem checkMembers_under (h : ofTree (.object tree) = .ok schema) (ht : WithFields tree) (entity : Key)
    {a : Record.Attribute} {s : Record.Shape} (ha : (a, .mapOf s) ∈ Record.compiledEntity.attributes) (hname : a.name = a.key) :
    Record.checkMembers s.check ((entityIn tree entity).value (.text a.key)).members =
      .ok ((entityIn schema.entities entity).value (.text a.key)).members := by
  have hrel := rel_given h ht entity ha
  rw [Record.Attribute.given?_of_name_eq_key hname] at hrel
  unfold Members.value
  generalize Members.get? (entityIn tree entity) (.text a.key) = before at hrel ⊢
  generalize Members.get? (entityIn schema.entities entity) (.text a.key) = after at hrel ⊢
  cases hrel with
  | none => rfl
  | some hcheck =>
    obtain ⟨m, m', rfl, hmembers, rfl⟩ := Record.mapOf_eq_ok.1 hcheck
    exact hmembers

/-- The fields of an entity in the schema are the canonical forms of its fields in the tree. -/
theorem checkMembers_fields (h : ofTree (.object tree) = .ok schema) (ht : WithFields tree) (entity : Key) :
    Record.checkMembers Record.compiledField.check (fieldsIn tree entity) = .ok (schema.fields entity) :=
  checkMembers_under h ht entity (a := ⟨"fields", "fields", false⟩)
    (by simp [Record.compiledEntity, Record.Shape.attributes, Record.plain]) rfl

/-- The relations of an entity in the schema are the canonical forms of its relations in the tree. -/
theorem checkMembers_relations (h : ofTree (.object tree) = .ok schema) (ht : WithFields tree) (entity : Key) :
    Record.checkMembers Record.compiledRelation.check (relationsIn tree entity) = .ok (schema.relations entity) :=
  checkMembers_under h ht entity (a := ⟨"relations", "relations", false⟩)
    (by simp [Record.compiledEntity, Record.Shape.attributes, Record.plain]) rfl

theorem contains_fields (h : ofTree (.object tree) = .ok schema) (ht : WithFields tree) (entity field : Key) :
    Members.contains (schema.fields entity) field = Members.contains (fieldsIn tree entity) field := by
  have hrel := Record.get?_checkMembers (checkMembers_fields h ht entity) field
  unfold Members.contains
  generalize Members.get? (fieldsIn tree entity) field = before at hrel ⊢
  generalize Members.get? (schema.fields entity) field = after at hrel ⊢
  cases hrel <;> rfl

end

/-! ## Assembled schemas -/

/-- A schema, the tree of all entities that it was made from, and the junctions of each of them. -/
structure Assembled (c : Compiler) (s : Snapshot) (schema : Schema) (tree : Members Key Value)
    (parts : List (Members Key Value)) : Prop where
  entities : (entityTree c s).result = .ok tree
  junctions : List.Forall₂ (fun compiled part => (Junction.entities c.config compiled).result = .ok part) tree.values parts
  accepted : ofTree (.object (parts.foldl Members.overlay tree)) = .ok schema

theorem exists_assembled {c : Compiler} {s : Snapshot} {schema : Schema} (h : (compile c s).result = .ok schema) :
    ∃ tree parts, Assembled c s schema tree parts := by
  obtain ⟨tree, found, htree, hfound, hschema⟩ := compile_eq_ok.1 h
  obtain ⟨parts, hparts, hfull⟩ := withJunctions_eq_ok hfound
  exact ⟨tree, parts, htree, hparts, hfull ▸ hschema⟩

namespace Assembled

variable {c : Compiler} {s : Snapshot} {schema : Schema} {tree : Members Key Value} {parts : List (Members Key Value)}

theorem withFields (h : Assembled c s schema tree parts) : WithFields tree := by
  obtain ⟨compiled, -, hnormal⟩ := Run.result_bind_eq_ok.1 h.entities
  exact withFields_normalize hnormal

theorem ofFragments (h : Assembled c s schema tree parts) : ∀ part ∈ parts, OfFragments part := by
  intro part hpart
  obtain ⟨compiled, -, hcompiled⟩ := Members.forall₂_exists_right h.junctions hpart
  exact ofFragments_entities hcompiled

/-- The relations of the schema are the canonical forms of those of the entities: junctions have none. -/
theorem relations (h : Assembled c s schema tree parts) (entity : Key) :
    Record.checkMembers Record.compiledRelation.check (relationsIn tree entity) = .ok (schema.relations entity) := by
  have hsame : relationsIn (parts.foldl Members.overlay tree) entity = relationsIn tree entity := by
    have hget : Members.get? (entityIn (parts.foldl Members.overlay tree) entity) "relations" =
        Members.get? (entityIn tree entity) "relations" :=
      get?_entityIn_withJunctions h.withFields h.ofFragments entity (by simp) (by simp)
    rw [relationsIn, relationsIn, Members.value, Members.value, hget]
  rw [← hsame]
  exact checkMembers_relations h.accepted (withFields_withJunctions h.withFields h.ofFragments) entity

/-- An entity of the schema has the fields that it has as an entity or as a junction. -/
theorem contains_fields (h : Assembled c s schema tree parts) (entity field : Key) :
    Members.contains (schema.fields entity) field = true ↔
      Members.contains (fieldsIn tree entity) field = true ∨
        ∃ part ∈ parts, Members.contains (fieldsIn part entity) field = true := by
  rw [Schema.contains_fields h.accepted (withFields_withJunctions h.withFields h.ofFragments)]
  exact contains_fieldsIn_withJunctions tree h.ofFragments entity field

end Assembled

end EntitySchema.Schema
