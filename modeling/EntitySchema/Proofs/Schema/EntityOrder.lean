import EntitySchema.Proofs.Link.Agreement
import EntitySchema.Proofs.Record.Reordered
import EntitySchema.Proofs.Schema.Independence
import EntitySchema.Proofs.Schema.Isolation

/-!
# The order of entities

Entities are merged one after the other, the later ones over the earlier ones, and then the junctions of each are laid over the
tree, in the order of the entities again. Still the order decides nothing but the order of keys, unless two entities make a column
of one junction in different ways: each entity is compiled by itself, and what is under one name after all junctions were laid
over it depends on the columns they have, not on which of them came first.

* `JunctionsAgree`: no two entities make a column of one junction in different ways.

Results:
* `entityTree_perm`: the tree of the entities in another order.
* `junctions_perm`: the junctions of entities in another order.
* `get?_withJunctions_joined`: what all junctions leave under a name.
* `get?_fieldsIn_perm`: the fields that junctions leave in either order.
* `compile_perm`: the schema of entities in another order.
-/
namespace EntitySchema

/-! ## Junctions over entities -/

namespace Schema

/-- An entity that has become a junction, too: it is marked, and has the given fields. -/
def joined (own fields : Members Key Value) : Members Key Value :=
  (own.set "skipRebuild" (.bool true)).set "fields" (.object fields)

theorem get?_fields_joined (own fields : Members Key Value) : Members.get? (joined own fields) "fields" = some (.object fields) :=
  Members.get?_set_self _ _ _

/-- To join once more changes the fields only. -/
theorem joined_joined (own fields fields' : Members Key Value) : joined (joined own fields) fields' = joined own fields' := by
  have hmark : Members.get? (joined own fields) "skipRebuild" = some (.bool true) := by
    rw [joined, Members.get?_set, if_neg (by simp), Members.get?_set_self]
  rw [joined, Members.set_of_get? hmark, joined, Members.set_set_of_beq BEq.rfl, joined]

/-- What a junction makes of an entity. -/
theorem overlay_fragment_eq_joined {own fields : Members Key Value} (hf : Members.get? own "fields" = some (.object fields))
    (columns : Members Key Value) :
    own.overlay [("skipRebuild", .bool true), ("fields", .object columns)] = joined own (fields.overlay columns) := by
  have hmark : Members.mergedAt .override own "skipRebuild" (.bool true) = .bool true :=
    Members.mergedAt_of_not_object _ _ fun _ => Value.noConfusion
  have hfields : Members.get? (own.set "skipRebuild" (.bool true)) "fields" = some (.object fields) := by
    rw [Members.get?_set, if_neg (by simp), hf]
  rw [Members.overlay, Members.merge_cons, hmark, Members.merge_cons, Members.mergedAt_of_get? hfields, Value.overlay_object,
    Members.merge_nil]
  rfl

theorem entityIn_eq_of_get? {tree tree' : Members Key Value} {key : Key} (h : Members.get? tree key = Members.get? tree' key) :
    entityIn tree key = entityIn tree' key := by
  rw [entityIn, entityIn, Members.value_congr h]

/-- What junctions leave under a name: what was there, unless one of them has the name. -/
theorem get?_overlay_joined {tree part : Members Key Value} (ht : WithFields tree) (hp : OfFragments part) (key : Key) :
    Members.get? (tree.overlay part) key =
      if part.contains key then some (.object (joined (entityIn tree key) (fieldsIn (tree.overlay part) key)))
      else Members.get? tree key := by
  have hget := Members.get?_overlay tree hp.distinct key
  unfold Members.contains
  cases hpart : Members.get? part key with
  | none =>
    rw [hpart] at hget
    exact hget
  | some w =>
    rw [hpart] at hget
    obtain ⟨columns, rfl, hd, -⟩ := hp.fragment key w hpart
    simp only at hget
    rw [if_pos Option.isSome_some, hget, fieldsIn_overlay ht hp, fieldsIn_of_fragment hpart]
    cases htree : Members.get? tree key with
    | none =>
      rw [Members.mergedAt_of_get?_none htree, entityIn_of_get?_none htree, fieldsIn_of_get?_none htree,
        Members.overlay_nil_left hd]
      rfl
    | some v =>
      obtain ⟨own, fields, rfl, hf⟩ := ht key v htree
      rw [Members.mergedAt_of_get? htree, Value.overlay_object, entityIn_of_get? htree, fieldsIn_of_get? htree hf,
        ← overlay_fragment_eq_joined hf]
      rfl

/-- What all junctions leave under a name. -/
theorem get?_withJunctions_joined {tree : Members Key Value} {parts : List (Members Key Value)} (ht : WithFields tree)
    (hp : ∀ part ∈ parts, OfFragments part) (key : Key) :
    Members.get? (parts.foldl Members.overlay tree) key =
      if parts.any fun part => part.contains key then
        some (.object (joined (entityIn tree key) (fieldsIn (parts.foldl Members.overlay tree) key)))
      else Members.get? tree key := by
  induction parts generalizing tree with
  | nil => rfl
  | cons part rest ih =>
    obtain ⟨hpart, hrest⟩ := List.forall_mem_cons.1 hp
    have hone := get?_overlay_joined ht hpart key
    rw [List.foldl_cons, List.any_cons, ih (withFields_overlay ht hpart) hrest]
    by_cases hkey : part.contains key = true
    · rw [if_pos hkey] at hone
      rw [hkey, Bool.true_or, if_pos rfl, entityIn_of_get? hone, joined_joined]
      split
      · rfl
      · rename_i hnone
        -- no other junction has the name, so that the fields stay what they are
        have hlast := ih (withFields_overlay ht hpart) hrest
        rw [if_neg hnone] at hlast
        rw [hone, fieldsIn, fieldsIn, entityIn_eq_of_get? hlast]
    · rw [if_neg hkey] at hone
      rw [Bool.eq_false_iff.2 hkey, Bool.false_or, entityIn_eq_of_get? hone, hone]

/-! ## Trees and junctions in another order -/

section
variable {c : Compiler} {m : Metadata}

/-- The tree of all entities in another order. -/
theorem compileEntities_perm (hc : c.registry = {}) {entities entities' : Members Key Declared} (hd : Members.Distinct entities)
    (hperm : entities.Perm entities') {compiled : Members Key Value}
    (h : (compileEntities c m [] entities).result = .ok compiled) :
    ∃ compiled', (compileEntities c m [] entities').result = .ok compiled' ∧ compiled.Perm compiled' := by
  have hpasses := compileEntities_isOk_iff.1 ⟨compiled, h⟩
  obtain ⟨compiled', h'⟩ : ∃ compiled', (compileEntities c m [] entities').result = .ok compiled' :=
    compileEntities_isOk_iff.2 fun entry hentry => hpasses entry (hperm.mem_iff.2 hentry)
  refine ⟨compiled', h', ?_⟩
  obtain ⟨added, rfl, hadded⟩ := compileEntities_eq_append hc hd (fun _ _ => rfl) h
  obtain ⟨added', rfl, hadded'⟩ := compileEntities_eq_append hc (Members.distinct_of_perm hperm hd) (fun _ _ => rfl) h'
  -- an entity is compiled to one thing, wherever it stands
  refine perm_of_forall₂ (fun entry out out' hout hout' => ?_) hadded hadded' (hperm.filter _)
  obtain ⟨hname, one, own, hone, hown, -, hv⟩ := hout
  obtain ⟨hname', one', own', hone', hown', -, hv'⟩ := hout'
  cases hone.symm.trans hone'
  cases hown.symm.trans hown'
  exact Prod.ext (hname.trans hname'.symm) (hv.trans hv'.symm)

theorem normalize_perm {c : Config} {compiled compiled' tree : Members Key Value} (hperm : compiled.Perm compiled')
    (h : (normalize c compiled).result = .ok tree) :
    ∃ tree', (normalize c compiled').result = .ok tree' ∧ tree.Perm tree' := by
  have hall := normalize_isOk_iff.1 ⟨tree, h⟩
  obtain ⟨tree', h'⟩ : ∃ tree', (normalize c compiled').result = .ok tree' :=
    normalize_isOk_iff.2 fun out hout => hall out (hperm.mem_iff.2 hout)
  refine ⟨tree', h', perm_of_forall₂ (fun before after after' hafter hafter' => ?_) (normalize_eq_ok h) (normalize_eq_ok h') hperm⟩
  exact Prod.ext (hafter.1.symm.trans hafter'.1) (hafter.2.unique hafter'.2)

/-- The tree of all entities in normal form, of entities in another order. -/
theorem entityTree_perm (hc : c.registry = {}) {s : Snapshot} {entities : Members Key Declared}
    (hd : Members.Distinct s.entities) (hperm : s.entities.Perm entities) {tree : Members Key Value}
    (h : (entityTree c s).result = .ok tree) :
    ∃ tree', (entityTree c { s with entities }).result = .ok tree' ∧ tree.Perm tree' := by
  obtain ⟨compiled, hcompiled, hnormal⟩ := Run.result_bind_eq_ok.1 h
  obtain ⟨compiled', hcompiled', hperm⟩ := compileEntities_perm hc hd hperm hcompiled
  obtain ⟨tree', hnormal', hperm⟩ := normalize_perm hperm hnormal
  exact ⟨tree', Run.result_bind_eq_ok.2 ⟨compiled', hcompiled', hnormal'⟩, hperm⟩

/-- The junctions of entities in another order. -/
theorem junctions_perm {c : Config} {vs vs' : List Value} (hperm : vs.Perm vs') {parts : List (Members Key Value)}
    (h : List.Forall₂ (fun compiled part => (Junction.entities c compiled).result = .ok part) vs parts)
    (tree : Members Key Value) :
    ∃ found parts', (withJunctions c tree 0 vs').result = .ok found ∧ found.1 = parts'.foldl Members.overlay tree ∧
      parts.Perm parts' := by
  obtain ⟨found, hfound⟩ : ∃ found, (withJunctions c tree 0 vs').result = .ok found := by
    refine withJunctions_isOk_iff.2 fun v hv => ?_
    obtain ⟨part, -, hpart⟩ := Members.forall₂_exists_left h (hperm.mem_iff.2 hv)
    exact ⟨part, hpart⟩
  obtain ⟨parts', hparts', hfull⟩ := withJunctions_eq_ok hfound
  refine ⟨found, parts', hfound, hfull, perm_of_forall₂ (fun v part part' hpart hpart' => ?_) h hparts' hperm⟩
  exact Except.ok.inj (hpart.symm.trans hpart')

end

/-! ## Agreement -/

/-- No two entities make a column of one junction in different ways: columns of one name are the same value. -/
def JunctionsAgree (c : Compiler) (s : Snapshot) : Prop :=
  ∀ tree, (entityTree c s).result = .ok tree → ∀ a ∈ tree, ∀ b ∈ tree, a ≠ b →
    ∀ part other, (Junction.entities c.config a.2).result = .ok part → (Junction.entities c.config b.2).result = .ok other →
      ∀ junction column v w, Members.get? (fieldsIn part junction) column = some v →
        Members.get? (fieldsIn other junction) column = some w → v.same w = true

/-- Whether every column of the junctions of one entity is the same value in those of another one, if it has it. -/
def sameColumns (part other : Members Key Value) : Bool :=
  part.all fun junction => (fieldsIn part junction.1).all fun column =>
    (Members.get? (fieldsIn other junction.1) column.1).all column.2.same

/-- Entities agree if the columns of all of them are the same values. -/
theorem junctionsAgree_of_gives {c : Compiler} {s : Snapshot}
    (h : gives (entityTree c s).result (fun tree => tree.all fun a => tree.all fun b =>
      gives (Junction.entities c.config a.2).result fun part =>
        gives (Junction.entities c.config b.2).result fun other => sameColumns part other) = true) : JunctionsAgree c s := by
  intro tree htree a ha b hb _ part other hpart hother junction column v w hv hw
  obtain ⟨_, hsame, hall⟩ := gives_iff.1 h
  cases htree.symm.trans hsame
  obtain ⟨_, hpart', hgives⟩ := gives_iff.1 (List.all_eq_true.1 (List.all_eq_true.1 hall a ha) b hb)
  cases hpart.symm.trans hpart'
  obtain ⟨_, hother', htest⟩ := gives_iff.1 hgives
  cases hother.symm.trans hother'
  cases hjunction : Members.get? part junction with
  | none =>
    rw [fieldsIn_of_get?_none hjunction] at hv
    cases hv
  | some fragment =>
    obtain ⟨k, hk, hmem⟩ := Members.exists_of_get? hjunction
    have hcolumns := List.all_eq_true.1 htest _ hmem
    have hcongr : ∀ tree, fieldsIn tree k = fieldsIn tree junction := fun tree => by
      rw [fieldsIn, fieldsIn, entityIn_congr hk]
    simp only [hcongr] at hcolumns
    obtain ⟨k', hk', hmem'⟩ := Members.exists_of_get? hv
    have hcolumn := List.all_eq_true.1 hcolumns _ hmem'
    rwa [Members.get?_congr hk', hw, Option.all_some] at hcolumn

/-- The columns of the junctions of an entity are orderly. -/
theorem orderly_of_get? {c : Config} {compiled v : Value} {part : Members Key Value}
    (hpart : (Junction.entities c compiled).result = .ok part) {junction column : Key}
    (hv : Members.get? (fieldsIn part junction) column = some v) :
    ∃ attributes, v = .object attributes ∧ Junction.Orderly attributes := by
  cases hjunction : Members.get? part junction with
  | none =>
    rw [fieldsIn_of_get?_none hjunction] at hv
    cases hv
  | some w =>
    obtain ⟨k, -, hmem⟩ := Members.exists_of_get? hjunction
    have hfragment := Junction.fragmentWith_of_entities
      (Q := fun _ v => ∃ attributes, v = .object attributes ∧ Junction.Orderly attributes)
      (fun _ _ _ _ _ _ _ hdecl hw => Junction.orderly_of_declaration hdecl hw) hpart _ hmem
    obtain ⟨-, columns, rfl, -, hcolumns⟩ := hfragment
    rw [fieldsIn_of_fragment hjunction] at hv
    obtain ⟨k', -, hcolumn⟩ := Members.exists_of_get? hv
    exact hcolumns _ hcolumn

section
variable {c : Compiler} {s : Snapshot} {tree : Members Key Value} {parts : List (Members Key Value)}

/-- A column that is made more than once is the same everywhere. -/
theorem eq_of_junctionsAgree (hagree : JunctionsAgree c s) (htree : (entityTree c s).result = .ok tree)
    (hparts : List.Forall₂ (fun compiled part => (Junction.entities c.config compiled).result = .ok part) tree.values parts)
    {part other : Members Key Value} (hpart : part ∈ parts) (hother : other ∈ parts) {junction column : Key} {v w : Value}
    (hv : Members.get? (fieldsIn part junction) column = some v) (hw : Members.get? (fieldsIn other junction) column = some w) :
    v = w := by
  obtain ⟨_, ha, hmade⟩ := Members.forall₂_exists_right hparts hpart
  obtain ⟨_, hb, hmade'⟩ := Members.forall₂_exists_right hparts hother
  obtain ⟨a, hin, rfl⟩ := List.mem_map.1 ha
  obtain ⟨b, hin', rfl⟩ := List.mem_map.1 hb
  by_cases hab : a = b
  · subst hab
    cases hmade.symm.trans hmade'
    exact Option.some.inj (hv.symm.trans hw)
  · have hsame := hagree tree htree a hin b hin' hab part other hmade hmade' junction column v w hv hw
    have hsame' := hagree tree htree b hin' a hin (Ne.symm hab) other part hmade' hmade junction column w v hw hv
    obtain ⟨attributes, rfl, hordered⟩ := orderly_of_get? hmade hv
    obtain ⟨attributes', rfl, hordered'⟩ := orderly_of_get? hmade' hw
    rw [Junction.eq_of_same hordered hordered' hsame hsame']

end

/-- The tree of all entities has no entity and no field twice. -/
theorem treeWith_of_entityTree {c : Compiler} {s : Snapshot} (hc : c.registry = {}) {tree : Members Key Value}
    (h : (entityTree c s).result = .ok tree) :
    Members.Distinct tree ∧ WithFields tree ∧ ∀ entity, Members.Distinct (fieldsIn tree entity) := by
  obtain ⟨compiled, hcompiled, hnormal⟩ := Run.result_bind_eq_ok.1 h
  have hall := treeWith_of_compileEntities hc hcompiled
  refine ⟨Members.distinct_of_keys_eq (keys_normalize hnormal) hall.distinct, withFields_normalize hnormal, fun entity => ?_⟩
  obtain ⟨name, hfields⟩ := fieldsIn_normalize hnormal entity
  exact Field.distinct_normalizeAll (hall.fieldsIn entity).distinct hfields

section
variable {tree tree' : Members Key Value} {parts parts' : List (Members Key Value)}

theorem distinct_foldl_overlay {start : Members Key Value} (hd : Members.Distinct start) (uppers : List (Members Key Value)) :
    Members.Distinct (uppers.foldl Members.overlay start) :=
  List.foldlRecOn uppers Members.overlay hd fun _ hd upper _ => Members.distinct_merge upper hd

/-- The fields of an entity once the columns of all junctions are laid over, one list of columns after the other. -/
theorem fieldsIn_eq_foldl_map (ht : WithFields tree) (hp : ∀ part ∈ parts, OfFragments part) (entity : Key) :
    fieldsIn (parts.foldl Members.overlay tree) entity =
      (parts.map fun part => fieldsIn part entity).foldl Members.overlay (fieldsIn tree entity) := by
  rw [fieldsIn_withJunctions ht hp, List.foldl_map]

/-- The fields that junctions leave in either order, if a column that is made more than once is the same everywhere. -/
theorem get?_fieldsIn_perm (hd : Members.Distinct tree) (ht : WithFields tree) (ht' : WithFields tree')
    (hp : ∀ part ∈ parts, OfFragments part) (hperm : tree.Perm tree') (hparts : parts.Perm parts')
    (hagree : ∀ part ∈ parts, ∀ other ∈ parts, ∀ junction column v w, Members.get? (fieldsIn part junction) column = some v →
      Members.get? (fieldsIn other junction) column = some w → v = w) (entity column : Key) :
    Members.get? (fieldsIn (parts.foldl Members.overlay tree) entity) column =
      Members.get? (fieldsIn (parts'.foldl Members.overlay tree') entity) column := by
  have hp' : ∀ part ∈ parts', OfFragments part := fun part hpart => hp part (hparts.mem_iff.2 hpart)
  rw [fieldsIn_eq_foldl_map ht hp, fieldsIn_eq_foldl_map ht' hp']
  have hstart : fieldsIn tree entity = fieldsIn tree' entity := by
    rw [fieldsIn, fieldsIn, entityIn_eq_of_get? (Members.get?_of_perm hd hperm entity)]
  rw [hstart]
  refine Members.get?_foldl_overlay_perm (hparts.map _) (fun upper hupper => ?_) _ _ fun upper hupper other hother v w hv hw => ?_
  · obtain ⟨part, hpart, rfl⟩ := List.mem_map.1 hupper
    cases hget : Members.get? part entity with
    | none => rw [fieldsIn_of_get?_none hget]; exact Members.distinct_nil
    | some v =>
      obtain ⟨columns, rfl, hdcolumns, -⟩ := (hp part hpart).fragment entity v hget
      rw [fieldsIn_of_fragment hget]
      exact hdcolumns
  · obtain ⟨part, hpart, rfl⟩ := List.mem_map.1 hupper
    obtain ⟨part', hpart', rfl⟩ := List.mem_map.1 hother
    exact hagree part hpart part' hpart' entity column v w hv hw

end

/-! ## Schemas -/

/-- Joined entities that differ in the order of their fields are read alike. -/
theorem readsAlike_joined {own fields fields' : Members Key Value} (hd : Members.Distinct fields) (hd' : Members.Distinct fields')
    (h : ∀ column, Members.get? fields column = Members.get? fields' column) :
    Record.compiledEntity.ReadsAlike (.object (joined own fields)) (.object (joined own fields')) := by
  have hattribute : (⟨"fields", "fields", false⟩, Record.Shape.mapOf Record.compiledField) ∈ Record.compiledEntity.attributes := by
    simp [Record.compiledEntity, Record.Shape.attributes, Record.plain]
  have hset : joined own fields' = (joined own fields).set "fields" (.object fields') := by
    rw [joined, joined, Members.set_set_of_beq BEq.rfl]
  rw [hset]
  exact Record.readsAlike_set Record.isRecord_compiledEntity Record.namesApart_compiledEntity hattribute
    (get?_fields_joined own fields) (Record.readsAlike_mapOf_of_get? hd hd' h)

/-- A tree is accepted as a schema along with another one that is read alike. -/
theorem exists_ofTree {tree tree' : Members Key Value} {schema : Schema}
    (halike : (Record.Shape.mapOf Record.compiledEntity).ReadsAlike (.object tree) (.object tree'))
    (h : ofTree (.object tree) = .ok schema) :
    ∃ schema', ofTree (.object tree') = .ok schema' ∧ schema.toValue.Reordered schema'.toValue := by
  have hread := Record.mapOf_eq_ok.2 ⟨tree, schema.entities, rfl, ofTree_eq_ok h, rfl⟩
  obtain ⟨w, hw, hreordered⟩ := halike _ hread
  obtain ⟨_, entities, -, -, rfl⟩ := Record.mapOf_eq_ok.1 hw
  refine ⟨⟨entities⟩, ?_, hreordered⟩
  rw [ofTree, Record.Shape.accept, Record.compiledSchema, hw]
  rfl

section
variable {c : Compiler} {s : Snapshot} {entities : Members Key Declared}

/-- Entities that agree do so in any order. -/
theorem JunctionsAgree.perm (hc : c.registry = {}) (hd : Members.Distinct s.entities) (hperm : s.entities.Perm entities)
    (h : JunctionsAgree c s) : JunctionsAgree c { s with entities } := by
  intro tree htree a ha b hb
  obtain ⟨tree', htree', hsame⟩ := entityTree_perm (s := { s with entities }) hc (Members.distinct_of_perm hperm hd) hperm.symm htree
  exact h tree' htree' a (hsame.mem_iff.1 ha) b (hsame.mem_iff.1 hb)

/-- If the entities give a schema, they give one in another order, and it is the same up to the order of keys. -/
theorem exists_compile_perm (hc : c.registry = {}) (hd : Members.Distinct s.entities) (hperm : s.entities.Perm entities)
    (hagree : JunctionsAgree c s) {schema : Schema} (h : (compile c s).result = .ok schema) :
    ∃ schema', (compile c { s with entities }).result = .ok schema' ∧ schema.toValue.Reordered schema'.toValue := by
  obtain ⟨tree, parts, hassembled⟩ := exists_assembled h
  obtain ⟨tree', htree', hperm⟩ := entityTree_perm hc hd hperm hassembled.entities
  obtain ⟨found, parts', hfound, hfull, hpermParts⟩ := junctions_perm (hperm.map Prod.snd) hassembled.junctions tree'
  obtain ⟨hdtree, ht, hdfields⟩ := treeWith_of_entityTree hc hassembled.entities
  obtain ⟨hdtree', ht', hdfields'⟩ := treeWith_of_entityTree hc htree'
  have hp := hassembled.ofFragments
  have hp' : ∀ part ∈ parts', OfFragments part := fun part hpart => hp part (hpermParts.mem_iff.2 hpart)
  -- under every name stands the same, or a junction with the same fields in another order
  have halike : (Record.Shape.mapOf Record.compiledEntity).ReadsAlike (.object (parts.foldl Members.overlay tree))
      (.object (parts'.foldl Members.overlay tree')) := by
    refine Record.readsAlike_mapOf (distinct_foldl_overlay hdtree parts) (distinct_foldl_overlay hdtree' parts') fun key => ?_
    have hget := Members.get?_of_perm hdtree hperm key
    rw [get?_withJunctions_joined ht hp, get?_withJunctions_joined ht' hp', ← hpermParts.any_eq, ← entityIn_eq_of_get? hget,
      ← hget]
    split
    · refine .some (readsAlike_joined ?_ ?_ fun column => ?_)
      · rw [fieldsIn_eq_foldl_map ht hp]
        exact distinct_foldl_overlay (hdfields key) _
      · rw [fieldsIn_eq_foldl_map ht' hp']
        exact distinct_foldl_overlay (hdfields' key) _
      · exact get?_fieldsIn_perm hdtree ht ht' hp hperm hpermParts
          (fun part hpart other hother _ _ _ _ hv hw =>
            eq_of_junctionsAgree hagree hassembled.entities hassembled.junctions hpart hother hv hw) key column
    · cases Members.get? tree key with
      | none => exact .none
      | some v => exact .some (.refl _ v)
  obtain ⟨schema', hschema', hreordered⟩ := exists_ofTree halike hassembled.accepted
  exact ⟨schema', compile_eq_ok.2 ⟨tree', found, htree', hfound, hfull ▸ hschema'⟩, hreordered⟩

/-- In which order the entities come does not matter, if no two of them make a column of one junction in different ways: if they
give a schema in one order, they do so in the other, and the two schemas are the same up to the order of keys. -/
theorem compile_perm (hc : c.registry = {}) (hd : Members.Distinct s.entities) (hperm : s.entities.Perm entities)
    (hagree : JunctionsAgree c s) :
    ((∃ schema, (compile c s).result = .ok schema) ↔ ∃ schema', (compile c { s with entities }).result = .ok schema') ∧
      ∀ schema schema', (compile c s).result = .ok schema → (compile c { s with entities }).result = .ok schema' →
        schema.toValue.Reordered schema'.toValue := by
  refine ⟨⟨fun ⟨schema, h⟩ => ?_, fun ⟨schema', h'⟩ => ?_⟩, fun schema schema' h h' => ?_⟩
  · obtain ⟨schema', h', -⟩ := exists_compile_perm hc hd hperm hagree h
    exact ⟨schema', h'⟩
  · have hd' := Members.distinct_of_perm hperm hd
    obtain ⟨schema, h, -⟩ := exists_compile_perm (s := { s with entities }) hc hd' hperm.symm (hagree.perm hc hd hperm) h'
    exact ⟨schema, h⟩
  · obtain ⟨other, hother, hreordered⟩ := exists_compile_perm hc hd hperm hagree h
    cases h'.symm.trans hother
    exact hreordered

end

/-- A link to tags through labels with a note. -/
def labelLink : Value :=
  .object [("tags", .object [("type", .str LinkKind.manyMany.word), ("entity", .str "Tag"), ("relationName", .str "label"),
    ("additionalColumns", .object [("note", .object [("type", .str FieldKind.text.word)])])])]

/-- Accounts and contacts that have labels, which are declared with a rank themselves. -/
def labelled : Snapshot :=
  .ofWritten [("Account", .object [("links", labelLink)]), ("Contact", .object [("links", labelLink)]),
    ("Label", .object [("fields", .object [("rank", .object [("type", .str FieldKind.int.word)]),
      ("note", .object [("type", .str FieldKind.varchar.word)])])])] {}

theorem compile_perm_labelled :
    ∃ schema schema', (compile {} labelled).result = .ok schema ∧
      (compile {} { labelled with entities := labelled.entities.reverse }).result = .ok schema' ∧
        schema.toValue.Reordered schema'.toValue ∧
          (schema.fields "Label").keys.getLast? = some (.text "contactId") ∧
            (schema'.fields "Label").keys.getLast? = some (.text "accountId") := by
  have hd : Members.Distinct labelled.entities := by
    simp [Members.Distinct, Members.keys, labelled, Snapshot.ofWritten]; decide
  have hagree : JunctionsAgree {} labelled := junctionsAgree_of_gives (by decide +kernel)
  have hgives : gives (compile {} labelled).result (fun schema =>
    (schema.fields "Label").keys.getLast? = some (.text "contactId")) = true := by decide +kernel
  have hgives' : gives (compile {} { labelled with entities := labelled.entities.reverse }).result (fun schema =>
    (schema.fields "Label").keys.getLast? = some (.text "accountId")) = true := by decide +kernel
  obtain ⟨schema, h, hlast⟩ := gives_iff.1 hgives
  obtain ⟨schema', h', hlast'⟩ := gives_iff.1 hgives'
  obtain ⟨-, hreordered⟩ := compile_perm rfl hd (List.reverse_perm labelled.entities).symm hagree
  exact ⟨schema, schema', h, h', hreordered schema schema' h h', of_decide_eq_true hlast, of_decide_eq_true hlast'⟩

end Schema

end EntitySchema
