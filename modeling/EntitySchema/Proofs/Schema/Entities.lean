import EntitySchema.Proofs.Entity.Compile
import EntitySchema.Proofs.Schema.Tree

/-!
# Fields of a schema under a law

Entities are compiled one after the other and merged into one tree, normalized, and joined by junctions. A law of fields that
holds of what the definitions give as their own defaults holds of every field that comes out.

* `TreeWith`: a tree of entities whose fields are lawful.

Results:
* `TreeWith.addEntity`: one more entity.
* `compileEntities_treeWith`: all entities.
* `Assembled.fieldsWith`: all fields of a compiled schema, before they are brought into canonical form.
-/
namespace EntitySchema.Schema

/-! ## Trees under a law -/

/-- An object that has lawful fields. -/
def EntityWith (P : Key → Members Key Value → Prop) (v : Value) : Prop :=
  ∃ own fields : Members Key Value, v = .object own ∧ Members.Distinct own ∧
    Members.get? own "fields" = some (.object fields) ∧ Field.FieldsWith P fields

/-- An object that may have fields, which are lawful then. -/
def MayHaveFields (P : Key → Members Key Value → Prop) (v : Value) : Prop :=
  ∃ own : Members Key Value, v = .object own ∧ Members.Distinct own ∧
    ∀ w, Members.get? own "fields" = some w → ∃ fields, w = .object fields ∧ Field.FieldsWith P fields

/-- A tree of different entities with lawful fields. -/
structure TreeWith (P : Key → Key → Members Key Value → Prop) (tree : Members Key Value) : Prop where
  distinct : Members.Distinct tree
  each : ∀ entity v, Members.get? tree entity = some v → EntityWith (P entity) v

section
variable {c : Config} {P : Key → Members Key Value → Prop} {v w : Value}

theorem EntityWith.mayHaveFields (h : EntityWith P v) : MayHaveFields P v := by
  obtain ⟨own, fields, rfl, hd, hfields, hP⟩ := h
  refine ⟨own, rfl, hd, fun w hw => ?_⟩
  rw [hfields] at hw
  cases hw
  exact ⟨fields, rfl, hP⟩

theorem MayHaveFields.mark (h : MayHaveFields P v) :
    MayHaveFields P (Value.overlay .override v (.object [("skipRebuild", .bool true)])) := by
  obtain ⟨own, rfl, hd, hP⟩ := h
  rw [Value.overlay_object]
  refine ⟨_, rfl, Members.distinct_merge _ hd, fun w hw => ?_⟩
  rw [Members.get?_merge_of_none (by simp [Members.get?_cons])] at hw
  exact hP w hw

theorem MayHaveFields.overlay (hlaw : Field.FieldLaw c P) (h : MayHaveFields P v) (hw : EntityWith P w) :
    EntityWith P (Value.overlay .override v w) := by
  obtain ⟨own, rfl, hd, hP⟩ := h
  obtain ⟨own', fields', rfl, hd', hfields', hP'⟩ := hw
  rw [Value.overlay_object]
  have hget : Members.get? (own.overlay own') "fields" = some (Members.mergedAt .override own "fields" (.object fields')) :=
    Members.get?_merge_of_some hd' hfields'
  cases hfields : Members.get? own "fields" with
  | none =>
    rw [Members.mergedAt_of_get?_none hfields] at hget
    exact ⟨_, fields', rfl, Members.distinct_merge _ hd, hget, hP'⟩
  | some x =>
    obtain ⟨fields, rfl, hP⟩ := hP x hfields
    rw [Members.mergedAt_of_get? hfields, Value.overlay_object] at hget
    exact ⟨_, _, rfl, Members.distinct_merge _ hd, hget, hP.overlay hlaw.mergeLaw hP'⟩

end

section
variable {c : Compiler} {m : Metadata} {P : Key → Key → Members Key Value → Prop} {tree : Members Key Value}

/-- What stands in a tree over which one entity was laid. -/
theorem get?_overlay_singleton (tree : Members Key Value) (entity : Key) (v : Value) (key : Key) :
    Members.get? (tree.overlay [(entity, v)]) key =
      if entity == key then some (Members.mergedAt .override tree entity v) else Members.get? tree key := by
  rw [Members.overlay_singleton, Members.get?_set]

/-- The tree in which an entity is marked if its tables are left as they are. -/
def marked (tree : Members Key Value) (entity : Key) (skips : Bool) : Members Key Value :=
  if skips then tree.overlay [(entity, .object [("skipRebuild", .bool true)])] else tree

theorem distinct_marked (entity : Key) (skips : Bool) (hd : Members.Distinct tree) :
    Members.Distinct (marked tree entity skips) := by
  unfold marked
  split
  · exact Members.distinct_merge _ hd
  · exact hd

theorem get?_marked_of_ne {entity key : Key} (skips : Bool) (hkey : (entity == key) = false) :
    Members.get? (marked tree entity skips) key = Members.get? tree key := by
  unfold marked
  split
  · rw [get?_overlay_singleton, if_neg (by simp [hkey])]
  · rfl

theorem mayHaveFields_marked {P : Key → Members Key Value → Prop} {entity : Key} {skips : Bool}
    (h : ∀ v, Members.get? tree entity = some v → MayHaveFields P v) {v : Value}
    (hv : Members.get? (marked tree entity skips) entity = some v) : MayHaveFields P v := by
  unfold marked at hv
  split at hv
  · rw [get?_overlay_singleton, if_pos BEq.rfl] at hv
    cases hv
    cases hold : Members.get? tree entity with
    | none =>
      rw [Members.mergedAt_of_get?_none hold]
      exact ⟨_, rfl, Members.distinct_singleton _ _, by simp [Members.get?_cons]⟩
    | some v =>
      rw [Members.mergedAt_of_get? hold]
      exact (h v hold).mark
  · exact h v hv

theorem addEntity_eq {entity : Key} {compiled : Compiled} {own : Value} (h : compiled.tree = [(entity, own)]) :
    addEntity tree entity compiled = (marked tree entity compiled.skipsRebuild).overlay [(entity, own)] := by
  rw [addEntity, h]
  rfl

/-- One more entity keeps a tree lawful. -/
theorem TreeWith.addEntity (hlaw : ∀ entity, Field.FieldLaw c.config (P entity))
    (hcongr : ∀ {e e' f a}, (e == e') = true → P e f a → P e' f a) (h : TreeWith P tree) {entity : Key} {compiled : Compiled}
    (hcompiled : Entity.Lawful entity (P entity) compiled.tree) : TreeWith P (addEntity tree entity compiled) := by
  obtain ⟨own, fields, hown, hd, hfields, hP⟩ := hcompiled
  have hlawful : EntityWith (P entity)
      (Members.mergedAt .override (marked tree entity compiled.skipsRebuild) entity (.object own)) := by
    cases hold : Members.get? (marked tree entity compiled.skipsRebuild) entity with
    | none =>
      rw [Members.mergedAt_of_get?_none hold]
      exact ⟨own, fields, rfl, hd, hfields, hP⟩
    | some v =>
      rw [Members.mergedAt_of_get? hold]
      have hv := mayHaveFields_marked (fun v hv => (h.each entity v hv).mayHaveFields) hold
      exact hv.overlay (hlaw entity) ⟨own, fields, rfl, hd, hfields, hP⟩
  rw [addEntity_eq hown]
  refine ⟨Members.distinct_merge _ (distinct_marked _ _ h.distinct), fun key v hv => ?_⟩
  rw [get?_overlay_singleton] at hv
  split at hv
  · rename_i hkey
    cases hv
    obtain ⟨own, fields, hv, hd, hfields, hP⟩ := hlawful
    refine ⟨own, fields, hv, hd, hfields, hP.distinct, fun f w hw => ?_⟩
    obtain ⟨a, ha, hda, hPa⟩ := hP.each f w hw
    exact ⟨a, ha, hda, hcongr hkey hPa⟩
  · rename_i hkey
    rw [get?_marked_of_ne _ (by simpa using hkey)] at hv
    exact h.each key v hv

/-- An entity that is not given up was loaded and compiled. -/
theorem compileEntity_eq_ok {entity : Key} {declared : Declared} {compiled : Compiled}
    (h : (compileEntity c m entity declared).result = .ok compiled) :
    ∃ d, load entity declared = .ok d ∧ (Entity.compile c m entity d).result = .ok compiled.tree := by
  unfold compileEntity at h
  obtain ⟨d, hd, h⟩ := Run.result_bind_eq_ok.1 h
  obtain ⟨tree, htree, h⟩ := Run.result_bind_eq_ok.1 h
  obtain ⟨-, -, h⟩ := Run.result_bind_eq_ok.1 h
  cases h
  exact ⟨d, hd, htree⟩

/-- All entities that are not given up keep a tree lawful. -/
theorem compileEntities_treeWith (hc : c.registry = {}) (hlaw : ∀ entity, Field.FieldLaw c.config (P entity))
    (hcongr : ∀ {e e' f a}, (e == e') = true → P e f a → P e' f a) {entities : List (Key × Declared)}
    (hown : ∀ entry ∈ entities, ∀ d, load entry.1 entry.2 = .ok d → ∀ field v, d.ownDefault? field = some v →
      P entry.1 (.text field) [("default", v)])
    (htree : TreeWith P tree) {compiled : Members Key Value}
    (h : (compileEntities c m tree entities).result = .ok compiled) : TreeWith P compiled := by
  induction entities generalizing tree with
  | nil => cases h; exact htree
  | cons entry rest ih =>
    obtain ⟨entity, declared⟩ := entry
    rw [compileEntities] at h
    obtain ⟨found, hfound, h⟩ := Run.result_bind_eq_ok.1 h
    have hrest := fun entry he => hown entry (List.mem_cons_of_mem _ he)
    cases found with
    | none => exact ih hrest htree h
    | some one =>
      obtain ⟨d, hd, hone⟩ := compileEntity_eq_ok (Run.orGiveUp_eq_ok_some.1 hfound)
      refine ih hrest (htree.addEntity hlaw hcongr ?_) h
      exact Entity.lawful_compile (hlaw entity) hc (hown _ List.mem_cons_self d hd) hone

/-- Entities that are compiled from nothing are different ones, each with different fields. -/
theorem treeWith_of_compileEntities (hc : c.registry = {}) {entities : List (Key × Declared)} {compiled : Members Key Value}
    (h : (compileEntities c m [] entities).result = .ok compiled) : TreeWith (fun _ _ _ => True) compiled :=
  compileEntities_treeWith hc (fun _ => Field.fieldLaw_true c.config) (fun _ _ => trivial) (fun _ _ _ _ _ _ _ => trivial)
    ⟨Members.distinct_nil, by simp⟩ h

end

/-! ## Schemas -/

section
variable {c : Compiler} {s : Snapshot} {schema : Schema} {tree : Members Key Value} {parts : List (Members Key Value)}
  {P : Key → Key → Members Key Value → Prop}

theorem TreeWith.fieldsIn {P : Key → Key → Members Key Value → Prop} (h : TreeWith P tree) (entity : Key) :
    Field.FieldsWith (P entity) (fieldsIn tree entity) := by
  cases hget : Members.get? tree entity with
  | none => rw [fieldsIn_of_get?_none hget]; exact Field.FieldsWith.nil
  | some v =>
    obtain ⟨own, fields, rfl, -, hfields, hP⟩ := h.each entity v hget
    rw [fieldsIn_of_get? hget hfields]
    exact hP

theorem OfFragments.fieldsIn {part : Members Key Value} (h : OfFragments part)
    (hlaw : ∀ entity, Field.FieldLaw c.config (P entity))
    (entity : Key) : Field.FieldsWith (P entity) (fieldsIn part entity) := by
  cases hget : Members.get? part entity with
  | none => rw [fieldsIn_of_get?_none hget]; exact Field.FieldsWith.nil
  | some v =>
    obtain ⟨columns, rfl, hd, hcolumns⟩ := h.fragment entity v hget
    rw [fieldsIn_of_fragment hget]
    refine ⟨hd, fun f v hv => ?_⟩
    obtain ⟨attributes, rfl, hplain, -⟩ := hcolumns f v hv
    exact ⟨attributes, rfl, hplain.distinct, (hlaw entity).plain f hplain⟩

/-- Every field of a compiled schema obeys every law that the definitions' own defaults obey. -/
theorem Assembled.fieldsWith (h : Assembled c s schema tree parts) (hc : c.registry = {})
    (hlaw : ∀ entity, Field.FieldLaw c.config (P entity)) (hcongr : ∀ {e e' f a}, (e == e') = true → P e f a → P e' f a)
    (hown : ∀ entry ∈ s.entities, ∀ d, load entry.1 entry.2 = .ok d → ∀ field v, d.ownDefault? field = some v →
      P entry.1 (.text field) [("default", v)]) (entity : Key) :
    Field.FieldsWith (P entity) (Schema.fieldsIn (parts.foldl Members.overlay tree) entity) := by
  rw [fieldsIn_withJunctions h.withFields h.ofFragments]
  have htree : Field.FieldsWith (P entity) (Schema.fieldsIn tree entity) := by
    obtain ⟨compiled, hcompiled, hnormal⟩ := Run.result_bind_eq_ok.1 h.entities
    obtain ⟨name, hfields⟩ := fieldsIn_normalize hnormal entity
    have hall := compileEntities_treeWith hc hlaw hcongr hown ⟨Members.distinct_nil, by simp⟩ hcompiled
    exact (hall.fieldsIn entity).normalizeAll (hlaw entity) hfields
  exact List.foldlRecOn parts _ htree fun fields hfields part hpart =>
    hfields.overlay (hlaw entity).mergeLaw ((h.ofFragments part hpart).fieldsIn hlaw entity)

end

end EntitySchema.Schema
