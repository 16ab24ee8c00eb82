import EntitySchema.Proofs.Schema.GivenUp
import EntitySchema.Proofs.Schema.Junctions

/-!
# Independence of entities

All entities are merged into one tree, and the junctions of all relations are laid over it. Still an entity that is the junction
of no relation is what its own definition makes it: two compilations that define it in the same way compile it in the same way,
whatever the other entities are, in which order they come and which of them are given up.

* `isJunction`: the entities that are the junction of a relation of a schema.

Results:
* `get?_addEntity_of_ne`, `get?_addEntity_congr`: an entity that is added changes no other, and sees no other.
* `get?_compileEntities_only`: what stands under a name depends on the entities of that name alone.
* `get?_withJunctions`: an entity that is no junction is left alone by all junctions.
* `entity?_eq_of_same_definition`: entities do not interfere.
-/
namespace EntitySchema

/-! ## Members under one key -/

namespace Members

variable {κ α : Type} [BEq κ]

/-- The members that stand under a key. -/
def only (m : Members κ α) (key : κ) : Members κ α :=
  m.filter fun entry => entry.1 == key

theorem only_cons_of_beq {entry : κ × α} {key : κ} (h : (entry.1 == key) = true) (rest : Members κ α) :
    only (entry :: rest) key = entry :: only rest key :=
  List.filter_cons_of_pos h

theorem only_cons_of_ne {entry : κ × α} {key : κ} (h : ¬(entry.1 == key) = true) (rest : Members κ α) :
    only (entry :: rest) key = only rest key :=
  List.filter_cons_of_neg h

/-- Of distinct members at most one stands under a name, as a look-up finds it. -/
theorem only_text {m : Members Key α} (hd : Distinct m) (name : String) :
    only m (.text name) = ((get? m (.text name)).map fun v => (Key.text name, v)).toList := by
  induction m with
  | nil => rfl
  | cons entry rest ih =>
    obtain ⟨key, v⟩ := entry
    obtain ⟨hne, hd⟩ := distinct_cons.1 hd
    rw [get?_cons]
    by_cases hkey : (key == .text name) = true
    · have hname : key = .text name := Key.beq_text.1 hkey
      subst hname
      have hrest : only rest (.text name) = [] := by
        refine List.filter_eq_nil_iff.2 fun entry hentry => ?_
        rw [BEq.comm, hne entry hentry]
        exact Bool.false_ne_true
      rw [only_cons_of_beq hkey, hrest, if_pos hkey]
      rfl
    · rw [only_cons_of_ne hkey, if_neg hkey, ih hd]

end Members

/-! ## Relations -/

/-- A relation of a schema has the junction that it has in the tree. -/
theorem Junction.isOf_of_check {relation w : Value} (h : Record.compiledRelation.check relation = .ok w) {junction : Key}
    (hof : isOf junction relation = true) : isOf junction w = true := by
  obtain ⟨m, _, rfl, -⟩ := Record.record_eq_ok Record.isRecord_compiledRelation h
  simp only [isOf, Bool.and_eq_true, Value.isText_iff, Value.members_object] at hof ⊢
  obtain ⟨hmany, hname⟩ := hof
  refine ⟨(Record.type_of_relation h).2 hmany, ?_⟩
  split at hname
  · rename_i name hwritten
    rw [Record.relationName_of_relation h hwritten]
    exact hname
  · cases hname

/-- The last relation of a name is one of the relations, and has that name. -/
theorem Junction.mem_of_lastOf? {relations : Members Key Value} {junction : Key} {relation : Value}
    (h : lastOf? relations junction = some relation) :
    ∃ link ∈ relations, link.2 = relation ∧ isOf junction relation = true := by
  unfold lastOf? at h
  obtain ⟨link, hfind, rfl⟩ := Option.map_eq_some_iff.1 h
  have hof := List.find?_some hfind
  exact ⟨link, List.mem_reverse.1 (List.mem_of_find?_eq_some hfind), rfl, hof⟩

/-- Every member that was read has a canonical form under its name. -/
theorem Record.exists_of_mem_checked {check : Value → Except (List Fault) Value} {m m' : Members Key Value}
    (h : checkMembers check m = .ok m') {entry : Key × Value} (hm : entry ∈ m) :
    ∃ w, check entry.2 = .ok w ∧ (entry.1, w) ∈ m' := by
  induction m generalizing m' with
  | nil => cases hm
  | cons head rest ih =>
    obtain ⟨key, v⟩ := head
    obtain ⟨name, w, rest', rfl, hw, hrest, rfl⟩ := checkMembers_cons_eq_ok.1 h
    rcases List.mem_cons.1 hm with rfl | hm
    · exact ⟨w, hw, List.mem_cons_self⟩
    · obtain ⟨w', hw', hmem⟩ := ih hrest hm
      exact ⟨w', hw', List.mem_cons_of_mem _ hmem⟩

namespace Schema

/-- Whether an entity is the junction of a many-to-many relation of a schema. -/
def isJunction (s : Schema) (entity : Key) : Bool :=
  s.entities.values.any fun compiled => (Junction.relationsOf compiled).values.any (Junction.isOf entity)

/-! ## Entities one after the other -/

section
variable {c : Compiler} {m : Metadata} {tree tree' : Members Key Value} {entity key : Key} {one : Compiled} {own : Value}

/-- An entity that is added changes no other. -/
theorem get?_addEntity_of_ne (hone : one.tree = [(entity, own)]) (hkey : (entity == key) = false) :
    Members.get? (addEntity tree entity one) key = Members.get? tree key := by
  rw [addEntity_eq hone, get?_overlay_singleton, if_neg (by simp [hkey]), get?_marked_of_ne _ hkey]

/-- What stands in the tree under the name of an entity that is added depends on what stood there. -/
theorem get?_addEntity_congr (hone : one.tree = [(entity, own)]) (h : Members.get? tree key = Members.get? tree' key) :
    Members.get? (addEntity tree entity one) key = Members.get? (addEntity tree' entity one) key := by
  by_cases hkey : (entity == key) = true
  · have hentity : Members.get? tree entity = Members.get? tree' entity := by
      rw [Members.get?_congr hkey, Members.get?_congr hkey, h]
    have hmarked : Members.get? (marked tree entity one.skipsRebuild) entity =
        Members.get? (marked tree' entity one.skipsRebuild) entity := by
      unfold marked
      split
      · rw [get?_overlay_singleton, get?_overlay_singleton, if_pos BEq.rfl, if_pos BEq.rfl, Members.mergedAt_congr hentity]
      · exact hentity
    rw [addEntity_eq hone, addEntity_eq hone, get?_overlay_singleton, get?_overlay_singleton, if_pos hkey, if_pos hkey,
      Members.mergedAt_congr hmarked]
  · have hne : (entity == key) = false := by simpa using hkey
    rw [get?_addEntity_of_ne hone hne, get?_addEntity_of_ne hone hne, h]

/-- What stands in the tree under a name depends on the entities of that name alone. -/
theorem get?_compileEntities_only (hc : c.registry = {}) (key : Key) {entities : Members Key Declared}
    {compiled : Members Key Value} (hkey : Members.get? tree key = Members.get? tree' key)
    (h : (compileEntities c m tree entities).result = .ok compiled) :
    ∃ compiled', (compileEntities c m tree' (entities.only key)).result = .ok compiled' ∧
      Members.get? compiled key = Members.get? compiled' key := by
  have hpasses := compileEntities_isOk_iff.1 ⟨compiled, h⟩
  induction entities generalizing tree tree' with
  | nil => cases h; exact ⟨tree', rfl, hkey⟩
  | cons entry rest ih =>
    obtain ⟨hentry, hrest⟩ := List.forall_mem_cons.1 hpasses
    cases hone : (compileEntity c m entry.1 entry.2).result with
    | ok one =>
      obtain ⟨own, -, hown, -⟩ := own_of_compileEntity hc hone
      rw [compileEntities_of_ok hone] at h
      by_cases hname : (entry.1 == key) = true
      · rw [Members.only_cons_of_beq hname, compileEntities_of_ok hone]
        exact ih (get?_addEntity_congr hown hkey) h hrest
      · rw [Members.only_cons_of_ne hname]
        refine ih ?_ h hrest
        rw [get?_addEntity_of_ne hown (by simpa using hname), hkey]
    | error e =>
      have hskips : e.skips = true := hentry e hone
      rw [compileEntities_of_skips hone hskips] at h
      by_cases hname : (entry.1 == key) = true
      · rw [Members.only_cons_of_beq hname, compileEntities_of_skips hone hskips]
        exact ih hkey h hrest
      · rw [Members.only_cons_of_ne hname]
        exact ih hkey h hrest

end

/-! ## Normal forms -/

section
variable {c : Config} {compiled compiled' tree tree' : Members Key Value} {key : Key}

/-- An entity has one normal form. -/
theorem IsNormalOf.unique {v w w' : Value} (h : IsNormalOf c v w) (h' : IsNormalOf c v w') : w = w' := by
  obtain ⟨name, m, fields, rfl, hfields, rfl⟩ := h
  obtain ⟨name', m', fields', hm, hfields', rfl⟩ := h'
  cases hm
  rw [Field.result_normalizeAll c name name', hfields'] at hfields
  cases hfields
  rfl

/-- The normal form under a name depends on what stands there alone. -/
theorem get?_normalize_congr (h : (normalize c compiled).result = .ok tree) (h' : (normalize c compiled').result = .ok tree')
    (hkey : Members.get? compiled key = Members.get? compiled' key) : Members.get? tree key = Members.get? tree' key := by
  have hrel := Members.rel_get? (normalize_eq_ok h) key
  have hrel' := Members.rel_get? (normalize_eq_ok h') key
  rw [hkey] at hrel
  generalize Members.get? compiled' key = before at hrel hrel'
  generalize Members.get? tree key = after at hrel ⊢
  generalize Members.get? tree' key = after' at hrel' ⊢
  cases hrel with
  | none => cases hrel'; rfl
  | some hnormal =>
    cases hrel' with
    | some hnormal' => rw [hnormal.unique hnormal']

theorem keys_normalize (h : (normalize c compiled).result = .ok tree) : tree.keys = compiled.keys := by
  have hall := normalize_eq_ok h
  clear h
  induction hall with
  | nil => rfl
  | cons hhead _ ih => exact congrArg₂ List.cons hhead.1.symm ih

end

/-! ## Junctions -/

section
variable {c : Compiler} {s : Snapshot} {schema : Schema} {tree : Members Key Value} {parts : List (Members Key Value)}

/-- Different entities stand in the tree. -/
theorem Assembled.distinct (hc : c.registry = {}) (h : Assembled c s schema tree parts) : Members.Distinct tree := by
  obtain ⟨compiled, hcompiled, hnormal⟩ := Run.result_bind_eq_ok.1 h.entities
  exact Members.distinct_of_keys_eq (keys_normalize hnormal) (treeWith_of_compileEntities hc hcompiled).distinct

/-- The junction of a relation of the tree is the junction of a relation of the schema. -/
theorem Assembled.isJunction_of_relation (h : Assembled c s schema tree parts) (hd : Members.Distinct tree) {compiled : Value}
    (hcompiled : compiled ∈ tree.values) {link : Key × Value} (hlink : link ∈ Junction.relationsOf compiled) {junction : Key}
    (hof : Junction.isOf junction link.2 = true) : schema.isJunction junction = true := by
  obtain ⟨⟨owner, _⟩, hmem, rfl⟩ := List.mem_map.1 hcompiled
  have hrelations := h.relations owner
  rw [relationsIn, entityIn, Members.value_of_get? (Members.get?_of_mem hd hmem)] at hrelations
  obtain ⟨w, hw, hrelation⟩ := Record.exists_of_mem_checked hrelations hlink
  cases howner : Members.get? schema.entities owner with
  | none =>
    rw [Schema.relations, relationsIn, entityIn_of_get?_none howner] at hrelation
    cases hrelation
  | some v =>
    obtain ⟨k, -, hv⟩ := Members.exists_of_get? howner
    rw [Schema.relations, relationsIn, entityIn, Members.value_of_get? howner] at hrelation
    refine List.any_eq_true.2 ⟨v, List.mem_map_of_mem (f := Prod.snd) hv, List.any_eq_true.2 ⟨w, ?_, ?_⟩⟩
    · exact List.mem_map_of_mem (f := Prod.snd) hrelation
    · exact Junction.isOf_of_check hw hof

/-- An entity that is no junction is left alone by all junctions. -/
theorem Assembled.get?_withJunctions (h : Assembled c s schema tree parts) (hd : Members.Distinct tree) {key : Key}
    (hkey : schema.isJunction key = false) : Members.get? (parts.foldl Members.overlay tree) key = Members.get? tree key := by
  have hparts : ∀ part ∈ parts, Members.get? part key = none := by
    intro part hpart
    obtain ⟨compiled, hcompiled, hentities⟩ := Members.forall₂_exists_right h.junctions hpart
    have hlast := Junction.get?_entities hentities key
    split at hlast
    · rename_i relation hrelation
      obtain ⟨link, hlink, rfl, hof⟩ := Junction.mem_of_lastOf? hrelation
      rw [h.isJunction_of_relation hd hcompiled hlink hof] at hkey
      cases hkey
    · exact hlast
  refine List.foldlRecOn (motive := fun built => Members.get? built key = Members.get? tree key) parts Members.overlay rfl ?_
  intro built hbuilt part hpart
  exact (Members.get?_merge_of_none (hparts part hpart)).trans hbuilt

end

/-! ## Two compilations -/

/-- What has the same form in two trees has it in their schemas. -/
theorem entity?_congr {tree tree' : Members Key Value} {schema schema' : Schema} {key : Key}
    (h : ofTree (.object tree) = .ok schema) (h' : ofTree (.object tree') = .ok schema')
    (hkey : Members.get? tree key = Members.get? tree' key) : schema.entity? key = schema'.entity? key := by
  have hrel := Record.get?_checkMembers (ofTree_eq_ok h) key
  have hrel' := Record.get?_checkMembers (ofTree_eq_ok h') key
  unfold entity?
  rw [hkey] at hrel
  generalize Members.get? tree' key = before at hrel hrel'
  generalize Members.get? schema.entities key = after at hrel ⊢
  generalize Members.get? schema'.entities key = after' at hrel' ⊢
  cases hrel with
  | none => cases hrel'; rfl
  | some hcheck =>
    cases hrel' with
    | some hcheck' => rw [Except.ok.inj (hcheck.symm.trans hcheck')]

/-- Two compilations that define an entity in the same way compile it in the same way, unless it is the junction of a relation:
in either schema it is absent, or it is the same in both. -/
theorem entity?_eq_of_same_definition {c : Compiler} {s s' : Snapshot} {schema schema' : Schema} (hc : c.registry = {})
    (hmetadata : s.metadata = s'.metadata) (hd : Members.Distinct s.entities) (hd' : Members.Distinct s'.entities)
    {entity : String} (hsame : Members.get? s.entities (.text entity) = Members.get? s'.entities (.text entity))
    (h : (compile c s).result = .ok schema) (h' : (compile c s').result = .ok schema')
    (hjunction : schema.isJunction (.text entity) = false) (hjunction' : schema'.isJunction (.text entity) = false) :
    schema.entity? (.text entity) = schema'.entity? (.text entity) := by
  obtain ⟨tree, parts, hassembled⟩ := exists_assembled h
  obtain ⟨tree', parts', hassembled'⟩ := exists_assembled h'
  refine entity?_congr hassembled.accepted hassembled'.accepted ?_
  rw [hassembled.get?_withJunctions (hassembled.distinct hc) hjunction,
    hassembled'.get?_withJunctions (hassembled'.distinct hc) hjunction']
  obtain ⟨compiled, hcompiled, hnormal⟩ := Run.result_bind_eq_ok.1 hassembled.entities
  obtain ⟨compiled', hcompiled', hnormal'⟩ := Run.result_bind_eq_ok.1 hassembled'.entities
  refine get?_normalize_congr hnormal hnormal' ?_
  -- both are what the definitions of that name are compiled to by themselves
  obtain ⟨alone, halone, hget⟩ := get?_compileEntities_only hc (.text entity) rfl hcompiled
  obtain ⟨alone', halone', hget'⟩ := get?_compileEntities_only hc (.text entity) rfl hcompiled'
  rw [Members.only_text hd, hsame, hmetadata] at halone
  rw [Members.only_text hd'] at halone'
  rw [hget, hget', Except.ok.inj (halone.symm.trans halone')]

/-! ## One entity in two surroundings -/

/-- A contact with a junction to tags. -/
def contact : Value :=
  .object [
    ("fields", .object [("code", .object [("type", .str "id")]), ("note", .object [("type", .str "unheard")])]),
    ("links", .object [("tags", .object [("type", .str LinkKind.manyMany.word), ("entity", .str "Tag")])])]

/-- The contact after an account with a junction of the same name as the contact's own. -/
def contactAfterAccount : Snapshot :=
  .ofWritten [
    ("Account", .object [("links", .object [("tags", .object [("type", .str LinkKind.manyMany.word), ("entity", .str "Tag"),
      ("relationName", .str "contactTag")])])]),
    ("Contact", contact)] {}

/-- The contact before a lead and an entity that cannot be read. -/
def contactBeforeLead : Snapshot :=
  .ofWritten [("Contact", contact), ("Broken", .null), ("Lead", .object [("skipRebuild", .bool true)])] {}

theorem entity?_eq_of_same_definition_contact :
    ∃ schema schema', (compile {} contactAfterAccount).result = .ok schema ∧
      (compile {} contactBeforeLead).result = .ok schema' ∧ (schema.entity? "Contact").isSome = true ∧
        schema.entity? "Contact" = schema'.entity? "Contact" := by
  have hgives : gives (compile {} contactAfterAccount).result (fun schema =>
      !schema.isJunction "Contact" && (schema.entity? "Contact").isSome) = true := by decide +kernel
  have hgives' : gives (compile {} contactBeforeLead).result (fun schema => !schema.isJunction "Contact") = true := by
    decide +kernel
  obtain ⟨schema, hschema, htest⟩ := gives_iff.1 hgives
  obtain ⟨schema', hschema', hjunction'⟩ := gives_iff.1 hgives'
  rw [Bool.and_eq_true, Bool.not_eq_true'] at htest
  rw [Bool.not_eq_true'] at hjunction'
  have hd : Members.Distinct contactAfterAccount.entities := by
    simp [Members.Distinct, Members.keys, contactAfterAccount, Snapshot.ofWritten]; decide
  have hd' : Members.Distinct contactBeforeLead.entities := by
    simp [Members.Distinct, Members.keys, contactBeforeLead, Snapshot.ofWritten]; decide
  have hmetadata : contactAfterAccount.metadata = contactBeforeLead.metadata := rfl
  have hsame : Members.get? contactAfterAccount.entities (.text "Contact") =
      Members.get? contactBeforeLead.entities (.text "Contact") := rfl
  exact ⟨schema, schema', hschema, hschema', htest.2,
    entity?_eq_of_same_definition rfl hmetadata hd hd' hsame hschema hschema' htest.1 hjunction'⟩

end Schema

end EntitySchema
