import EntitySchema.Proofs.Entity.Frame
import EntitySchema.Proofs.Schema.FullText

/-!
# Orderings of collections

A collection may be ordered by a field of its entity, which has to be there when the entity is compiled. Fields that the storage
does not read are dropped only afterwards, so an ordering may be left without its field.

* `Definition.OrdersByField`: a definition that orders its collection by a field.
* `Schema.OrdersByFields`: every such collection is ordered by a field that is there, or not at all.

Results:
* `Entity.ordering_of_compile`: by what the collection of a compiled entity is ordered.
* `Assembled.orderedBy_iff`: by what the collection of an entity of a schema is ordered.
* `ordersByFields_iff`: when every ordering has its field.
* `exists_ordering_without_field`: an ordering by a field that is dropped.
-/
namespace EntitySchema

/-- A definition orders its collection by a field, and by no column. -/
structure Definition.OrdersByField (d : Definition) : Prop where
  field : (d.collection.value "orderBy").isNull = false
  column : (d.collection.value "orderByColumn").isNull = true

/-- What a compiled collection is ordered by. -/
def Record.orderBy : Record.Attribute := ⟨"order_by", "orderBy", false⟩

namespace Entity

/-! ## Orderings of entities -/

variable {c : Compiler} {m : Metadata} {entity : Key} {d : Definition} {fields schema : Members Key Value}

/-- A collection that is to be ordered by a field is so if the field is there, else it is left without. -/
theorem orderBy?_of_ordersByField (h : d.OrdersByField) (fields : Members Key Value) :
    ∃ found, orderBy? d.collection (.object fields) = .ok found ∧ ∀ name, found = some (.str name) ↔
      d.collection.value "orderBy" = .str name ∧ Members.contains fields name = true := by
  unfold orderBy?
  simp only [h.column, Bool.not_true, Bool.false_eq_true, if_false]
  cases d.collection.value "orderBy" with
  | str field =>
    have hholds : (Value.object fields).holds (.str field) = .ok (Members.contains fields field) := rfl
    simp only [hholds, ok_bind]
    refine ⟨_, rfl, fun name => ?_⟩
    by_cases hthere : Members.contains fields field = true
    · rw [if_pos hthere, Option.some.injEq]
      constructor
      · rintro ⟨⟩
        exact ⟨rfl, hthere⟩
      · exact And.left
    · rw [if_neg hthere]
      constructor
      · rintro ⟨⟩
      · rintro ⟨hname, hfield⟩
        cases hname
        exact absurd hfield hthere
  | _ =>
    refine ⟨none, rfl, fun name => ⟨?_, ?_⟩⟩
    · rintro ⟨⟩
    · rintro ⟨⟨⟩, -⟩

theorem collection?_of_ordersByField (h : d.OrdersByField) (fields : Members Key Value) :
    ∃ ordering, collection? d.collection (.object fields) = .ok (some ordering) ∧
      ∀ name, Record.orderBy.given? ordering = some (.str name) ↔
        d.collection.value "orderBy" = .str name ∧ Members.contains fields name = true := by
  have hoptions : d.collection.isEmpty = false := by
    cases hcollection : d.collection with
    | nil => have hfield := h.field; rw [hcollection] at hfield; cases hfield
    | cons => rfl
  obtain ⟨found, hfound, hname⟩ := orderBy?_of_ordersByField h fields
  unfold collection?
  simp only [hoptions, Bool.false_eq_true, if_false, hfound, ok_bind]
  cases found with
  | some v =>
    refine ⟨_, rfl, fun name => ?_⟩
    rw [← hname, Record.Attribute.given?_of_get? (v := v) rfl]
  | none =>
    refine ⟨_, rfl, fun name => ?_⟩
    rw [← hname]
    simp [Record.Attribute.given?, Record.Attribute.find?, Record.orderBy, Members.get?_cons]

/-- The collection of a compiled entity is ordered by the field that its definition says, if that is there. -/
theorem ordering_of_compile (hc : c.registry = {}) (h : d.OrdersByField) (hcompile : (compile c m entity d).result = .ok schema) :
    ∃ own fields ordering : Members Key Value, schema = [(entity, .object own)] ∧
      Members.get? own "fields" = some (.object fields) ∧ Members.get? own "collection" = some (.object ordering) ∧
        ∀ name, Record.orderBy.given? ordering = some (.str name) ↔
          d.collection.value "orderBy" = .str name ∧ Members.contains fields name = true := by
  obtain ⟨own, fields, rfl, -, hfields, -⟩ :=
    lawful_compile (Field.fieldLaw_true c.config) hc (fun _ _ _ => trivial) hcompile
  obtain ⟨_, _, _, _, _, _, _, -, -, -, -, -, -, -, hordered⟩ := compile_eq_ok hcompile
  obtain ⟨_, given, found, hown, hgiven, hfound, hschema⟩ := ordered_eq_ok hordered
  have hget : Members.get? [(entity, Value.object own)] entity = some (.object own) := Members.get?_singleton _ _
  rcases hschema with ⟨rfl, rfl⟩ | ⟨found, rfl, hschema⟩
  · cases hown.symm.trans hget
    cases hgiven.symm.trans hfields
    obtain ⟨ordering, hordering, -⟩ := collection?_of_ordersByField h fields
    cases hordering.symm.trans hfound
  · rw [hschema, Members.get?_set_self] at hget
    cases hget
    rw [Members.get?_set, if_neg (by simp)] at hfields
    cases hgiven.symm.trans hfields
    obtain ⟨ordering, hordering, hname⟩ := collection?_of_ordersByField h fields
    cases hordering.symm.trans hfound
    refine ⟨_, fields, found, rfl, ?_, Members.get?_set_self _ _ _, hname⟩
    rw [Members.get?_set, if_neg (by simp), hfields]

end Entity

namespace Record

theorem isRecord_compiledCollection : compiledCollection.IsRecord := ⟨_, rfl, by decide⟩

end Record

namespace Schema

/-! ## Orderings of a schema -/

/-- What the collection of an entity of a schema is ordered by. -/
def orderedBy (s : Schema) (entity : Key) : Value :=
  ((entityIn s.entities entity).value "collection").members.value "orderBy"

/-- Every collection that its definition orders by a field is ordered by a field of its entity, if it is ordered by anything. -/
def OrdersByFields (s : Snapshot) (schema : Schema) : Prop :=
  ∀ entry ∈ s.entities, ∀ d, load entry.1 entry.2 = .ok d → d.OrdersByField → ∀ field : String,
    schema.orderedBy entry.1 = .str field → Members.contains (schema.fields entry.1) (.text field) = true

/-- A compiled field that is kept, or a column that a junction supplies. -/
def Remains (c : Config) (tree fields : Members Key Value) (entity : Key) (field : String) : Prop :=
  (∃ a, Members.get? fields field = some (.object a) ∧ Field.isKept a = true) ∨ JunctionSupplies c tree entity field

section
variable {c : Compiler} {s : Snapshot} {schema : Schema} {tree : Members Key Value} {parts : List (Members Key Value)}

/-- Which fields an entity of a compiled schema has, in terms of those it was compiled with. -/
theorem contains_fields_iff_remains (h : Assembled c s schema tree parts) (hc : c.registry = {}) {compiled : Members Key Value}
    (hcompiled : (compileEntities c s.metadata [] s.entities).result = .ok compiled) (entity : Key) (field : String) :
    Members.contains (schema.fields entity) (.text field) = true ↔
      Remains c.config tree (fieldsIn compiled entity) entity field := by
  obtain ⟨_, hsame, hnormal⟩ := Run.result_bind_eq_ok.1 h.entities
  cases hcompiled.symm.trans hsame
  obtain ⟨name, hfields⟩ := fieldsIn_normalize hnormal entity
  have htree := treeWith_of_compileEntities hc hcompiled
  rw [contains_fields_iff h, Supplied, (Field.markIn_normalizeAll (htree.fieldsIn entity) hfields (.text field)).1, Remains]

/-- The collection of an entity of a schema is ordered by what the tree says. -/
theorem Assembled.orderedBy_iff (h : Assembled c s schema tree parts) {entity : Key} {ordering : Members Key Value}
    (hordering : Members.get? (entityIn tree entity) "collection" = some (.object ordering)) (name : String) :
    schema.orderedBy entity = .str name ↔ Record.orderBy.given? ordering = some (.str name) := by
  have hrel := rel_given h.accepted (withFields_withJunctions h.withFields h.ofFragments) entity
    (a := ⟨"collection", "collection", false⟩) (s := .nullable Record.compiledCollection)
    (by simp [Record.compiledEntity, Record.Shape.attributes, Record.plain, Record.maybe])
  rw [Record.Attribute.given?_of_name_eq_key rfl] at hrel
  simp only at hrel
  rw [get?_entityIn_withJunctions h.withFields h.ofFragments entity (by simp) (by simp), hordering] at hrel
  generalize hafter : Members.get? (entityIn schema.entities entity) (.text "collection") = after at hrel
  cases hrel with
  | some hcheck =>
    rcases Record.nullable_eq_ok.1 hcheck with ⟨hnull, -⟩ | ⟨-, hcheck⟩
    · cases hnull
    · rw [orderedBy, Members.value_of_get? hafter, Members.value_eq_str]
      exact Record.get?_record_eq_str Record.isRecord_compiledCollection hcheck (a := Record.orderBy)
        (by simp [Record.compiledCollection, Record.Shape.attributes, Record.maybe, Record.orderBy])
        (Record.takesText_nullable Record.takesText_text) name

/-- The collection of an entity that was compiled is ordered by the field that its definition says, if that was there by then. -/
theorem orderedBy_iff_of_compileEntity (h : Assembled c s schema tree parts) (hc : c.registry = {})
    (hd : Members.Distinct s.entities) {compiled : Members Key Value}
    (hcompiled : (compileEntities c s.metadata [] s.entities).result = .ok compiled) {entry : Key × Declared}
    (hentry : entry ∈ s.entities) {one : Compiled} (hone : (compileEntity c s.metadata entry.1 entry.2).result = .ok one)
    {d : Definition} (hload : load entry.1 entry.2 = .ok d) (horders : d.OrdersByField) (name : String) :
    fieldsIn compiled entry.1 = fieldsIn one.tree entry.1 ∧ (schema.orderedBy entry.1 = .str name ↔
      d.collection.value "orderBy" = .str name ∧ Members.contains (fieldsIn one.tree entry.1) (.text name) = true) := by
  obtain ⟨v, hv, hentryOf⟩ := exists_isEntryOf hc hd hcompiled hentry hone
  obtain ⟨_, hsame, hnormal⟩ := Run.result_bind_eq_ok.1 h.entities
  cases hcompiled.symm.trans hsame
  obtain ⟨d', hload', hcompile⟩ := compileEntity_eq_ok hone
  cases hload.symm.trans hload'
  obtain ⟨own, fields, ordering, htree, hfields, hcollection, hname⟩ := Entity.ordering_of_compile hc horders hcompile
  have hsingle : Members.get? one.tree entry.1 = some (.object own) := by rw [htree, Members.get?_singleton]
  have hordering : Members.get? (entityIn tree entry.1) "collection" = some (.object ordering) := by
    rw [get?_entityIn_normalize hnormal entry.1 (by simp), hentryOf.get?_entityIn hv (by simp), entityIn_of_get? hsingle,
      hcollection]
  refine ⟨hentryOf.fieldsIn_eq hv, ?_⟩
  rw [h.orderedBy_iff hordering, hname, fieldsIn_of_get? hsingle hfields]

/-- Every ordering by a field has its field exactly if each field by which a collection is ordered, and that was there when its
entity was compiled, is kept or supplied by a junction. -/
theorem ordersByFields_iff (hc : c.registry = {}) (hd : Members.Distinct s.entities) (h : (compile c s).result = .ok schema) :
    ∃ tree, (entityTree c s).result = .ok tree ∧ (OrdersByFields s schema ↔
      ∀ entry ∈ s.entities, ∀ d one, load entry.1 entry.2 = .ok d → d.OrdersByField →
        (compileEntity c s.metadata entry.1 entry.2).result = .ok one → ∀ field : String,
          d.collection.value "orderBy" = .str field → Members.contains (fieldsIn one.tree entry.1) (.text field) = true →
            Remains c.config tree (fieldsIn one.tree entry.1) entry.1 field) := by
  obtain ⟨tree, parts, hassembled⟩ := exists_assembled h
  refine ⟨tree, hassembled.entities, ?_⟩
  obtain ⟨compiled, hcompiled, -⟩ := Run.result_bind_eq_ok.1 hassembled.entities
  constructor
  · intro horders entry hentry d one hload hd' hone field hfield hthere
    obtain ⟨hfields, hname⟩ := orderedBy_iff_of_compileEntity hassembled hc hd hcompiled hentry hone hload hd' field
    rw [← hfields]
    exact (contains_fields_iff_remains hassembled hc hcompiled entry.1 field).1
      (horders entry hentry d hload hd' field (hname.2 ⟨hfield, hthere⟩))
  · intro hremains entry hentry d hload hd' field hordered
    -- only an entity that was compiled is ordered
    obtain ⟨one, hone⟩ : ∃ one, (compileEntity c s.metadata entry.1 entry.2).result = .ok one := by
      obtain ⟨v, hv⟩ : ∃ v, Members.get? compiled entry.1 = some v := by
        cases hcollection : Members.get? (entityIn schema.entities entry.1) "collection" with
        | some w =>
          exact exists_of_attribute hassembled hcompiled (a := ⟨"collection", "collection", false⟩)
            (t := .nullable Record.compiledCollection)
            (by simp [Record.compiledEntity, Record.Shape.attributes, Record.plain, Record.maybe]) (by simp) hcollection
        | none =>
          unfold orderedBy Members.value at hordered
          rw [hcollection] at hordered
          cases hordered
      obtain ⟨entry', hentry', hkey, one, hone, -⟩ := exists_entry_of_get? hc hd hcompiled hv
      obtain rfl : entry' = entry := Members.eq_of_mem_of_beq hd hentry' hentry hkey
      exact ⟨one, hone⟩
    obtain ⟨hfields, hname⟩ := orderedBy_iff_of_compileEntity hassembled hc hd hcompiled hentry hone hload hd' field
    obtain ⟨hfield, hthere⟩ := hname.1 hordered
    rw [contains_fields_iff_remains hassembled hc hcompiled, hfields]
    exact hremains entry hentry d one hload hd' hone field hfield hthere

end

/-! ## An ordering without its field -/

/-- Tags by which a collection is ordered. The field of many links gives way to two others, but a default that it gives to
itself brings it back without a type. -/
def orderedTags : Snapshot :=
  .ofWritten [("Account", .object [
    ("fields", .object [("tags", .object [("type", .str "linkMultiple"), ("defaultAttributes", .object [("tags", .int 1)])])]),
    ("collection", .object [("orderBy", .str "tags")])])] {}

theorem ordersByFields_iff_orderedTags :
    Members.Distinct orderedTags.entities ∧ ∃ schema, (compile {} orderedTags).result = .ok schema ∧
      ∃ tree, (entityTree {} orderedTags).result = .ok tree ∧ (OrdersByFields orderedTags schema ↔
        ∀ entry ∈ orderedTags.entities, ∀ d one, load entry.1 entry.2 = .ok d → d.OrdersByField →
          (compileEntity {} orderedTags.metadata entry.1 entry.2).result = .ok one → ∀ field : String,
            d.collection.value "orderBy" = .str field → Members.contains (fieldsIn one.tree entry.1) (.text field) = true →
              Remains {} tree (fieldsIn one.tree entry.1) entry.1 field) := by
  have hgives : gives (compile {} orderedTags).result (fun _ => true) = true := by decide +kernel
  obtain ⟨schema, hschema, -⟩ := gives_iff.1 hgives
  have hd : Members.Distinct orderedTags.entities := Members.distinct_singleton _ _
  exact ⟨hd, schema, hschema, ordersByFields_iff rfl hd hschema⟩

/-- The tags are there when the ordering is compiled, and they are dropped afterwards. -/
theorem exists_ordering_without_field :
    ∃ schema, (compile {} orderedTags).result = .ok schema ∧ ¬ OrdersByFields orderedTags schema := by
  have hgives : gives (compile {} orderedTags).result (fun schema =>
      (schema.orderedBy "Account").isText "tags" && !Members.contains (schema.fields "Account") "tags") = true := by
    decide +kernel
  obtain ⟨schema, hschema, htest⟩ := gives_iff.1 hgives
  rw [Bool.and_eq_true, Value.isText_iff, Bool.not_eq_true'] at htest
  refine ⟨schema, hschema, fun horders => ?_⟩
  have hload : ∃ entry ∈ orderedTags.entities, entry.1 = .text "Account" ∧ gives (load entry.1 entry.2) (fun d =>
      !(d.collection.value "orderBy").isNull && (d.collection.value "orderByColumn").isNull) = true :=
    ⟨_, List.mem_cons_self, rfl, by decide +kernel⟩
  obtain ⟨entry, hentry, hname, hload⟩ := hload
  obtain ⟨d, hd, hoptions⟩ := gives_iff.1 hload
  rw [Bool.and_eq_true, Bool.not_eq_true'] at hoptions
  have hfield := horders entry hentry d hd ⟨hoptions.1, hoptions.2⟩ "tags" (by rw [hname]; exact htest.1)
  rw [hname, htest.2] at hfield
  cases hfield

end Schema

end EntitySchema
