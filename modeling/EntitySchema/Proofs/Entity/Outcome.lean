import EntitySchema.Proofs.Entity.Layers
import EntitySchema.Proofs.Entity.Stages

/-!
# What becomes of an entity

An entity whose links keep their contract is compiled exactly if its indexes can be read: those that it declares, unless they
have keys, and those of its many-to-many links. If a link breaks its contract, nothing else of the entity is looked at.

* `ReadableIndexes`: the indexes of an entity can be read.
* `Compiled`: an entity that was compiled, with its relations.

Results:
* `compile_yields`, `compile_misuses`, `compile_of_broken`: what becomes of an entity.
-/
namespace EntitySchema

/-- The compiler with its own processors and constants, and a probe whose answers are known beforehand. -/
def Compiler.static (all : Bool) (tables : List Key) : Compiler :=
  { probe := .fixed all tables }

namespace Entity

variable {entity : String} {d : Definition} {links : Members String Params} {relations schema : Members Key Value}

/-! ## Relations of links -/

theorem distinct_declaredLinks (d : Definition) : Members.Distinct (declaredLinks d) :=
  distinct_layered Members.distinct_nil

/-- What is known of the relation of a link. -/
def RelationOf (kind : LinkKind) (params relation : Members Key Value) : Prop :=
  Link.IsRelation kind params relation ∧ (kind = .manyMany → Link.HasJunction relation ∧
    (relation.value "additionalColumns").members = (params.value "additionalColumns").members)

/-- Every relation is that of a link that is not left out. -/
theorem exists_link_of_mem (hfits : ParamsFit Record.linkDeclaration links) {entry : Key × Value}
    (he : entry ∈ relationsFor entity links) :
    ∃ link ∈ links, ∃ kind relation, Link.kind? {} (.str entity) (.str link.1) link.2 = .ok (some kind) ∧
      entry = (.text link.1, .object relation) ∧ RelationOf kind link.2 relation := by
  obtain ⟨link, hlink, hentry⟩ := List.mem_filterMap.1 he
  unfold relationFor? at hentry
  split at hentry
  · rename_i kind hkind
    obtain ⟨relation, hrelation, hknown⟩ := Link.relation_yields (hfits link hlink) hkind
    rw [hrelation] at hentry
    cases hentry
    exact ⟨link, hlink, kind, relation, hkind, rfl, hknown⟩
  · cases hentry

/-- Every link that is not left out has its relation. -/
theorem exists_relation_of_link (hfits : ParamsFit Record.linkDeclaration links) {link : String × Params} (hlink : link ∈ links)
    {kind : LinkKind} (hkind : Link.kind? {} (.str entity) (.str link.1) link.2 = .ok (some kind)) :
    ∃ relation, (Key.text link.1, Value.object relation) ∈ relationsFor entity links ∧ RelationOf kind link.2 relation := by
  obtain ⟨relation, hrelation, hknown⟩ := Link.relation_yields (hfits link hlink) hkind
  refine ⟨relation, List.mem_filterMap.2 ⟨link, hlink, ?_⟩, hknown⟩
  simp only [relationFor?, hkind, hrelation]

theorem distinct_relationsFor (hd : Members.Distinct links) : Members.Distinct (relationsFor entity links) := by
  unfold Members.Distinct Members.keys relationsFor
  rw [List.pairwise_map, List.pairwise_filterMap]
  unfold Members.Distinct Members.keys at hd
  rw [List.pairwise_map] at hd
  refine List.Pairwise.imp (fun {a b} hab entry hentry other hother => ?_) hd
  rw [name_of_relationFor? hentry, name_of_relationFor? hother, ← Bool.not_eq_true, Key.text_beq, Key.text.injEq]
  intro hsame
  rw [hsame, BEq.rfl] at hab
  cases hab

/-! ## Indexes -/

/-- The indexes of an entity can be read: those that it declares, unless they have keys, and those of its many-to-many links. -/
structure ReadableIndexes (entity : Key) (d : Definition) : Prop where
  own : ∀ index ∈ (d.body.value "indexes").members, Index.keyable index
  links : ∀ link ∈ declaredLinks d, Link.kind? {} (.ofKey entity) (.str link.1) link.2 = .ok (some .manyMany) →
    Index.readableIn link.2

theorem readableIn_relations_iff (hfits : ParamsFit Record.linkDeclaration links) :
    (∀ entry ∈ relationsFor entity links, Index.readableIn entry.2.members) ↔
      ∀ link ∈ links, Link.kind? {} (.str entity) (.str link.1) link.2 = .ok (some .manyMany) → Index.readableIn link.2 := by
  constructor
  · intro h link hlink hkind
    obtain ⟨relation, hrelation, hknown, -⟩ := exists_relation_of_link hfits hlink hkind
    have hreadable := h _ hrelation
    unfold Index.readableIn at hreadable ⊢
    rw [Value.members_object, hknown.indexes, if_pos rfl] at hreadable
    exact hreadable
  · intro h entry he
    obtain ⟨link, hlink, kind, relation, hkind, rfl, hknown, -⟩ := exists_link_of_mem hfits he
    unfold Index.readableIn
    rw [Value.members_object, hknown.indexes]
    split
    · rename_i hmany
      subst hmany
      exact h link hlink hkind
    · exact fun _ hindex => absurd hindex List.not_mem_nil

/-- A value and the same with other indexes. -/
def SameButIndexes (v w : Value) : Prop :=
  ∃ m m' : Members Key Value, v = .object m ∧ w = .object m' ∧
    ∀ key ≠ Key.text "indexes", Members.get? m' key = Members.get? m key

/-- The same relations, perhaps with other indexes. -/
structure Reindexed (relations relations' : Members Key Value) : Prop where
  distinct : Members.Distinct relations'
  each : ∀ key, Option.Rel SameButIndexes (Members.get? relations key) (Members.get? relations' key)

/-- An entity that was compiled, with the relations of its links. -/
def Compiled (entity : String) (relations schema : Members Key Value) : Prop :=
  ∃ own fields relations' : Members Key Value, schema = [(.text entity, .object own)] ∧
    Members.get? own "fields" = some (.object fields) ∧ fields.Objects ∧
      Members.get? own "relations" = some (.object relations') ∧ Reindexed relations relations'

/-- Indexes laid over relations change nothing else of them. -/
theorem reindexed_overlay {found : Members Key Value} (hd : Members.Distinct relations) (hobjects : relations.Objects)
    (hkeys : (Members.keys found).Sublist (Members.keys relations))
    (hentries : ∀ entry ∈ found, ∃ indexes, entry.2 = .object [("indexes", .object indexes)]) :
    Reindexed relations (relations.overlay found) := by
  refine ⟨Members.distinct_merge _ hd, fun key => ?_⟩
  rw [Members.get?_overlay relations (List.Pairwise.sublist hkeys hd)]
  have hsame : ∀ v, Members.get? relations key = some v → ∃ m, v = .object m := fun v hv => by
    obtain ⟨k, -, hm⟩ := Members.exists_of_get? hv
    exact (hobjects _ hm).2
  cases hfound : Members.get? found key with
  | none =>
    simp only
    cases hold : Members.get? relations key with
    | none => exact .none
    | some v =>
      obtain ⟨m, rfl⟩ := hsame v hold
      exact .some ⟨m, m, rfl, rfl, fun _ _ => rfl⟩
  | some w =>
    obtain ⟨k, hk, hm⟩ := Members.exists_of_get? hfound
    obtain ⟨indexes, hw⟩ := hentries _ hm
    simp only at hw
    subst hw
    obtain ⟨entry, hentry, hname⟩ := List.mem_map.1 (hkeys.subset (List.mem_map_of_mem (f := Prod.fst) hm))
    cases hold : Members.get? relations key with
    | none =>
      have hne := Members.get?_eq_none_iff.1 hold entry hentry
      rw [hname, hk] at hne
      cases hne
    | some v =>
      obtain ⟨m, rfl⟩ := hsame v hold
      simp only [Members.mergedAt_of_get? hold, Value.overlay_object]
      refine .some ⟨m, _, rfl, rfl, fun other hother => ?_⟩
      exact Members.get?_merge_of_none (by simp [Members.get?_cons, hother])

/-! ## Junctions -/

/-- No additional column of a many-to-many link has a list or an object for its type. -/
def ScalarColumns (entity : Key) (d : Definition) : Prop :=
  ∀ link ∈ declaredLinks d, Link.kind? {} (.ofKey entity) (.str link.1) link.2 = .ok (some .manyMany) →
    Junction.ScalarColumns link.2

theorem isText_word_iff {kind : LinkKind} : (Value.str kind.word).isText LinkKind.manyMany.word = true ↔ kind = .manyMany := by
  cases kind <;> decide

theorem scalarColumns_congr {params params' : Members Key Value}
    (h : (params.value "additionalColumns").members = (params'.value "additionalColumns").members) :
    Junction.ScalarColumns params ↔ Junction.ScalarColumns params' := by
  unfold Junction.ScalarColumns Junction.columns
  rw [h]

/-- A relation is that of a link, perhaps with other indexes. -/
theorem exists_link_of_reindexed (hfits : ParamsFit Record.linkDeclaration links) {relations' : Members Key Value}
    (h : Reindexed (relationsFor entity links) relations') {entry : Key × Value} (he : entry ∈ relations') :
    ∃ link ∈ links, ∃ (kind : LinkKind) (relation : Members Key Value),
      Link.kind? {} (.str entity) (.str link.1) link.2 = .ok (some kind) ∧ entry = (.text link.1, .object relation) ∧
        relation.value "type" = .str kind.word ∧ (kind = .manyMany → Link.HasJunction relation ∧
          (Junction.ScalarColumns relation ↔ Junction.ScalarColumns link.2)) := by
  have hrel := h.each entry.1
  rw [Members.get?_of_mem h.distinct he] at hrel
  generalize hbefore : Members.get? (relationsFor entity links) entry.1 = before at hrel
  cases hrel with
  | some hsame =>
    obtain ⟨m, m', rfl, hm', hget⟩ := hsame
    obtain ⟨k, hk, hmem⟩ := Members.exists_of_get? hbefore
    obtain ⟨link, hlink, kind, relation, hkind, hentry, hknown, hjunction⟩ := exists_link_of_mem hfits hmem
    cases hentry
    have hname : entry.1 = .text link.1 := Key.text_beq.1 hk
    have hvalue : ∀ key ≠ Key.text "indexes", Members.value m' key = Members.value m key := fun key hkey =>
      Members.value_congr (hget key hkey)
    refine ⟨link, hlink, kind, m', hkind, Prod.ext hname hm', ?_, fun hmany => ?_⟩
    · rw [hvalue _ (by simp), Members.value_of_get? hknown.type]
    · obtain ⟨hready, hcolumns⟩ := hjunction hmany
      obtain ⟨name, hname⟩ := hready.name
      refine ⟨⟨⟨name, by rw [hget _ (by simp), hname]⟩, ?_, ?_⟩, scalarColumns_congr ?_⟩
      · rw [hvalue _ (by simp)]; exact hready.keys
      · rw [hvalue _ (by simp)]; exact hready.columns
      · rw [hvalue _ (by simp), hcolumns]

/-- A link that is not left out has its relation, perhaps with other indexes. -/
theorem exists_reindexed_of_link (hfits : ParamsFit Record.linkDeclaration links) (hd : Members.Distinct links)
    {relations' : Members Key Value} (h : Reindexed (relationsFor entity links) relations') {link : String × Params}
    (hlink : link ∈ links) {kind : LinkKind} (hkind : Link.kind? {} (.str entity) (.str link.1) link.2 = .ok (some kind)) :
    ∃ entry ∈ relations', entry.1 = .text link.1 := by
  obtain ⟨relation, hrelation, -⟩ := exists_relation_of_link hfits hlink hkind
  have hrel := h.each (.text link.1)
  rw [Members.get?_of_mem (distinct_relationsFor hd) hrelation] at hrel
  generalize hafter : Members.get? relations' (.text link.1) = after at hrel
  cases hrel with
  | some =>
    obtain ⟨k, hk, hm⟩ := Members.exists_of_get? hafter
    exact ⟨_, hm, Key.beq_text.1 hk⟩

/-- The relations of an entity that was compiled have junctions exactly if no additional column of a many-to-many link has a
list or an object for its type. -/
theorem junctions_isOk_iff {c : Config} (hd : Record.entityDefinition.Fits (.object d.body)) {own relations' : Members Key Value}
    (hrelations : Members.get? own "relations" = some (.object relations'))
    (h : Reindexed (relationsFor entity (declaredLinks d)) relations') :
    (∃ junctions, (Junction.entities c (.object own)).result = .ok junctions) ↔ ScalarColumns (.text entity) d := by
  have hfits := paramsFit_declaredLinks hd
  have hready : Junction.ReadyForJunctions relations' := by
    intro entry he
    obtain ⟨link, -, kind, relation, -, rfl, htype, hjunction⟩ := exists_link_of_reindexed hfits h he
    refine ⟨relation, rfl, fun hmany => ?_⟩
    rw [htype, isText_word_iff] at hmany
    exact (hjunction hmany).1
  rw [Junction.entities_isOk_iff hrelations hready]
  constructor
  · intro hscalar link hlink hkind
    obtain ⟨entry, he, hname⟩ := exists_reindexed_of_link hfits (distinct_declaredLinks d) h hlink hkind
    obtain ⟨link', hlink', kind', relation, hkind', rfl, htype, hjunction⟩ := exists_link_of_reindexed hfits h he
    have hsame : link' = link :=
      Members.eq_of_mem_of_beq (distinct_declaredLinks d) hlink' hlink (by simpa using hname)
    subst hsame
    cases hkind'.symm.trans hkind
    exact (hjunction rfl).2.1 (hscalar _ he (by rw [Value.members_object, htype, isText_word_iff]))
  · intro hscalar entry he hmany
    obtain ⟨link, hlink, kind, relation, hkind, rfl, htype, hjunction⟩ := exists_link_of_reindexed hfits h he
    rw [Value.members_object] at hmany ⊢
    rw [htype, isText_word_iff] at hmany
    exact (hjunction hmany).2.2 (hscalar link hlink (hmany ▸ hkind))

theorem objects_relationsFor (hfits : ParamsFit Record.linkDeclaration links) : (relationsFor entity links).Objects := by
  intro entry he
  obtain ⟨link, -, kind, relation, -, rfl, -⟩ := exists_link_of_mem hfits he
  exact ⟨⟨link.1, rfl⟩, relation, rfl⟩

theorem fits_indexes (h : Record.entityDefinition.Fits (.object d.body)) :
    (Record.Shape.nullable Record.objects).Fits (d.body.value "indexes") :=
  Record.fits_value (a := ⟨"indexes", "indexes", false⟩) h (by simp [Record.maybe])

section
variable {c : Config}

theorem item_of_schema {own : Members Key Value} (h : schema = [(.text entity, .object own)]) :
    (Value.object schema).item (.text entity) = .ok (.object own) := by
  rw [h]
  exact Value.item_object (by simp [Members.get?_cons])

/-- The indexes of an entity are made exactly if they can be read. -/
theorem Stage.indexed_isOk_iff (hd : Record.entityDefinition.Fits (.object d.body))
    (h : Stage entity (d.body.value "indexes") (relationsFor entity (declaredLinks d)) schema) :
    (∃ s, indexed c (.text entity) schema = .ok s) ↔ ReadableIndexes (.text entity) d := by
  obtain ⟨own, fields, hschema, hfields, hobjects, hrelations, hindexes⟩ := h
  have hfits := paramsFit_declaredLinks hd
  have hdeclared : ∀ entry ∈ relationsFor entity (declaredLinks d), ∃ relation : Members Key Value,
      entry.2 = .object relation ∧ (Record.Shape.nullable Record.objects).Fits (relation.value "indexes") := by
    intro entry he
    obtain ⟨link, -, kind, relation, -, rfl, hknown, -⟩ := exists_link_of_mem hfits he
    exact ⟨relation, rfl, hknown.fits⟩
  have hown : (Record.Shape.nullable Record.objects).Fits (own.value "indexes") := by
    rw [hindexes]
    exact fits_indexes hd
  have hsynthesize := Index.synthesize_isOk_iff (c := c) hown hfields hobjects hrelations hdeclared
  rw [hindexes, readableIn_relations_iff hfits] at hsynthesize
  have hreadable : ReadableIndexes (.text entity) d ↔ ∃ found, Index.synthesize c (.object own) = .ok found := by
    rw [hsynthesize]
    exact ⟨fun h => ⟨h.own, h.links⟩, fun h => ⟨h.1, h.2⟩⟩
  rw [hreadable]
  unfold indexed
  rw [item_of_schema hschema, ok_bind]
  exact bind_isOk_of_total fun found => ⟨_, rfl⟩

/-- Of an entity that got its indexes the fields and the relations are as before. -/
theorem Stage.compiled_of_indexed {indexes : Value} (h : Stage entity indexes relations schema)
    (hd : Members.Distinct relations) (hobjects : relations.Objects) {s : Members Key Value}
    (hs : indexed c (.text entity) schema = .ok s) : Compiled entity relations s := by
  obtain ⟨own, fields, rfl, hfields, hfieldObjects, hrelations, -⟩ := h
  obtain ⟨compiled, found, hcompiled, hfound, rfl⟩ := indexed_eq_ok hs
  cases hcompiled.symm.trans (item_of_schema rfl)
  obtain ⟨hdfound, hnone⟩ := Index.apart_of_synthesize hfound
  obtain ⟨more, hmore, hlaid⟩ := Index.get?_relations_overlay hfound hrelations
  obtain ⟨hkeys, hentries⟩ := Index.allRelationIndexes_eq_ok hmore
  rw [overlay_own]
  refine ⟨_, fields, relations.overlay more, rfl, ?_, hfieldObjects, hlaid, reindexed_overlay hd hobjects hkeys hentries⟩
  rw [Members.get?_overlay own hdfound, hnone, hfields]

/-- The ordering of its collection joins an entity that got its indexes. -/
theorem Compiled.ordered_yields (h : Compiled entity relations schema) (d : Definition) :
    Yields (ordered (.text entity) d schema) (Compiled entity relations) := by
  obtain ⟨own, fields, relations', rfl, hfields, hobjects, hrelations, hreindexed⟩ := h
  have horder : ∃ column, orderBy? d.collection (.object fields) = .ok column := by
    unfold orderBy?
    simp only
    split
    · exact ⟨_, rfl⟩
    · split
      · rename_i name _
        have hholds : (Value.object fields).holds (.str name) = .ok (Members.contains fields name) := rfl
        rw [hholds, ok_bind]
        split <;> exact ⟨_, rfl⟩
      · exact ⟨_, rfl⟩
  have hcollection : ∃ ordering, collection? d.collection (.object fields) = .ok ordering := by
    obtain ⟨column, hcolumn⟩ := horder
    unfold collection?
    split
    · exact ⟨_, rfl⟩
    · simp only
      rw [hcolumn, ok_bind]
      cases column <;> exact ⟨_, rfl⟩
  obtain ⟨ordering, hordering⟩ := hcollection
  unfold ordered
  rw [item_of_schema rfl, ok_bind, Value.item_object hfields, ok_bind, hordering, ok_bind]
  cases ordering with
  | none => exact yields_ok ⟨own, fields, relations', rfl, hfields, hobjects, hrelations, hreindexed⟩
  | some ordering =>
    refine yields_ok ⟨own.set "collection" (.object ordering), fields, relations', ?_, ?_, hobjects, ?_, hreindexed⟩
    · rw [Members.set, if_pos BEq.rfl]
      rfl
    · rw [Members.get?_set, if_neg (by simp), hfields]
    · rw [Members.get?_set, if_neg (by simp), hrelations]

end

/-! ## The whole -/

section
variable {all : Bool} {tables : List Key}

/-- Without metadata no column is searched. -/
theorem search_empty {c : Compiler} {schema : Members Key Value} (hc : c = .static all tables) :
    (search c {} (.text entity) d schema).result = .ok schema := by
  have hcolumns : FullText.columns c.config {} d = [] := by
    unfold FullText.columns
    refine List.flatMap_eq_nil_iff.2 fun field _ => ?_
    unfold FullText.fieldColumns
    simp only
    split
    · rfl
    · rw [if_neg]
      rename_i type _
      simp only [Bool.and_eq_true, not_and]
      exact fun _ => Bool.noConfusion
  have hfragment : (FullText.fragment c.config {} c.probe (.text entity) d).result = .ok [] := by
    unfold FullText.fragment
    split
    · rfl
    · rw [hcolumns]
      refine Run.result_bind_eq_ok.2 ⟨entity, rfl, ?_⟩
      refine Run.result_bind_eq_ok.2 ⟨all || tables.contains (.text (Naming.underscored entity)), by rw [hc]; rfl, ?_⟩
      split <;> rfl
  unfold search
  exact Run.result_bind_eq_ok.2 ⟨[], hfragment, rfl⟩

theorem registry_static : (Compiler.static all tables).registry = {} := rfl

theorem config_static : (Compiler.static all tables).config = {} := rfl

/-- Up to its indexes an entity is compiled, if its links keep their contract. -/
theorem compile_eq (all : Bool) (tables : List Key) (hd : Record.entityDefinition.Fits (.object d.body))
    (hkeeps : KeepsContract (.text entity) d) :
    ∃ schema, Stage entity (d.body.value "indexes") (relationsFor entity (declaredLinks d)) schema ∧
      (compile (.static all tables) {} (.text entity) d).result =
        (liftM (indexed {} (.text entity) schema) : Except Error _) >>= fun s => liftM (ordered (.text entity) d s) := by
  obtain ⟨declared, hdeclared, hfits⟩ := fields_yields (c := {}) hd hkeeps
  obtain ⟨resolved, hresolved, htypes⟩ := resolveAll_yields (c := {}) (textTypes_seeds hd) hfits
  obtain ⟨corrected, hcorrected, hstage⟩ := (stage_base entity d resolved).correct_yields d htypes
  obtain ⟨related, hrelated, hstage⟩ := hstage.relate_yields (paramsFit_declaredLinks hd) hkeeps (distinct_declaredLinks d)
    fun _ _ => rfl
  refine ⟨related, hstage, ?_⟩
  unfold compile
  rw [registry_static, config_static, Run.bind_of_ok (Run.lift_eq_ok.2 (links_empty hd)), Run.bind_of_ok hdeclared,
    Run.bind_of_ok hresolved]
  simp only
  rw [Run.bind_of_ok (Run.lift_eq_ok.2 hcorrected), Run.bind_of_ok hrelated, Run.bind_of_ok (search_empty rfl), Run.result_bind]
  rfl

/-- An entity whose links keep their contract and whose indexes can be read is compiled. -/
theorem compile_yields (all : Bool) (tables : List Key) (hd : Record.entityDefinition.Fits (.object d.body))
    (hkeeps : KeepsContract (.text entity) d)
    (hreadable : ReadableIndexes (.text entity) d) :
    Yields (compile (.static all tables) {} (.text entity) d).result
      (Compiled entity (relationsFor entity (declaredLinks d))) := by
  obtain ⟨schema, hstage, hcompile⟩ := compile_eq all tables hd hkeeps
  obtain ⟨s, hs⟩ := (hstage.indexed_isOk_iff (c := {}) hd).2 hreadable
  have hcompiled := hstage.compiled_of_indexed (distinct_relationsFor (distinct_declaredLinks d))
    (objects_relationsFor (paramsFit_declaredLinks hd)) hs
  rw [hcompile, hs]
  exact (hcompiled.ordered_yields d).lift

/-- An entity whose links keep their contract but whose indexes cannot be read misuses a value. -/
theorem compile_misuses (all : Bool) (tables : List Key) (hd : Record.entityDefinition.Fits (.object d.body))
    (hkeeps : KeepsContract (.text entity) d)
    (hreadable : ¬ReadableIndexes (.text entity) d) :
    ∃ cause, (compile (.static all tables) {} (.text entity) d).result = .error (.misused cause) := by
  obtain ⟨schema, hstage, hcompile⟩ := compile_eq all tables hd hkeeps
  rw [← hstage.indexed_isOk_iff (c := {}) hd] at hreadable
  rw [hcompile]
  cases hs : indexed {} (.text entity) schema with
  | ok s => exact absurd ⟨s, hs⟩ hreadable
  | error cause => exact ⟨cause, rfl⟩

/-- A link that breaks its contract stops the compilation. -/
theorem compile_of_broken (all : Bool) (tables : List Key) (hd : Record.entityDefinition.Fits (.object d.body))
    (hbroken : ¬KeepsContract (.text entity) d) :
    ∃ e, (compile (.static all tables) {} (.text entity) d).result = .error e ∧ e.isConfiguration = true := by
  obtain ⟨e, he, hconfiguration⟩ := fields_of_broken (c := {}) hbroken
  refine ⟨e, ?_, hconfiguration⟩
  unfold compile
  rw [config_static, Run.bind_of_ok (Run.lift_eq_ok.2 (links_empty hd)), he, Run.result_bind]
  rfl

end

end Entity

end EntitySchema
