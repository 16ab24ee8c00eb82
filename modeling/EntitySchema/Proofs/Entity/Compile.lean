import EntitySchema.Entity.Compile
import EntitySchema.Proofs.Entity.Fields
import EntitySchema.Proofs.Index.Fragment
import EntitySchema.Proofs.Link.Template

/-!
# Compiled entities under a law

After its fields are corrected, an entity gets relations, full-text search, indexes and an ordering. Of these only relations
touch fields, and they add fields of the compiler's own making.

Results:
* `attributeFields_eq_ok`, `plain_attributeFields`: the fields that show columns of a junction.
* `relate_one_eq_ok`, `search_eq_ok`, `indexed_eq_ok`, `ordered_eq_ok`: what the stages after the fields do, one by one.
* `relate_invariant`: what is kept by all links if each keeps it.
* `compile_eq_ok`: the stages of a compiled entity.
* `lawful_compile`: the fields of a compiled entity are lawful.
-/
namespace EntitySchema

namespace Link

/-- The fields that show columns of a junction have a type, which may be null, and a mark. -/
theorem attributeFields_eq_ok {params : Params} {fields : Value} {shown : Members Key Value}
    (h : attributeFields params fields = .ok shown) : Members.Distinct shown ∧
      ∀ entry ∈ shown, ∃ type, entry.2 = .object [("type", type), ("notStorable", .bool true)] := by
  unfold attributeFields at h
  obtain ⟨map, -, h⟩ := bind_eq_ok.1 h
  refine foldlM_invariant (fun m : Members Key Value => Members.Distinct m ∧
    ∀ entry ∈ m, ∃ type, entry.2 = .object [("type", type), ("notStorable", .bool true)])
    (fun m entry m' _ hm hstep => ?_) ⟨Members.distinct_nil, by simp⟩ h
  obtain ⟨holds, -, hstep⟩ := bind_eq_ok.1 hstep
  cases holds with
  | true => cases hstep; exact hm
  | false =>
    obtain ⟨type, -, hstep⟩ := bind_eq_ok.1 hstep
    obtain ⟨key, -, hstep⟩ := bind_eq_ok.1 hstep
    cases hstep
    refine ⟨Members.distinct_set _ _ hm.1, fun entry he => ?_⟩
    rcases Members.mem_set he with he | ⟨-, he⟩
    · exact hm.2 entry he
    · exact ⟨type, he⟩

theorem distinct_shown (type : Value) : Members.Distinct [(Key.text "type", type), (Key.text "notStorable", .bool true)] :=
  Members.distinct_pair (by decide) _ _

/-- The fields that show columns of a junction are of the compiler's own making. -/
theorem plain_attributeFields {params : Params} {fields : Value} {shown : Members Key Value}
    (h : attributeFields params fields = .ok shown) : Field.FieldsWith (fun _ => Field.Plain) shown := by
  obtain ⟨hd, hshown⟩ := attributeFields_eq_ok h
  refine Entity.plain_of_forall hd fun entry he => ?_
  obtain ⟨type, htype⟩ := hshown entry he
  exact ⟨_, htype, distinct_shown type, by simp [Members.get?_cons], by simp [Members.get?_cons]⟩

end Link

/-- What full-text search adds to an entity that has it. -/
def FullText.found (c : Config) (columns : List String) : Members Key Value :=
  [("fullTextSearchColumnList", .ofTexts columns), ("indexes", .object [(c.fullTextIndexName, index columns)])]

/-- Full-text search adds nothing, or a list of columns, of which there are some, and an index. -/
theorem FullText.fragment_eq_ok {c : Config} {m : Metadata} {p : Probe} {entity : Key} {d : Definition}
    {found : Members Key Value} (h : (fragment c m p entity d).result = .ok found) :
    found = [] ∨ columns c m d ≠ [] ∧ found = FullText.found c (columns c m d) := by
  unfold fragment at h
  split at h
  · cases h; exact .inl rfl
  · obtain ⟨name, -, h⟩ := Run.result_bind_eq_ok.1 h
    obtain ⟨supported, -, h⟩ := Run.result_bind_eq_ok.1 h
    split at h
    · obtain ⟨-, -, h⟩ := Run.result_bind_eq_ok.1 h
      cases h; exact .inl rfl
    · simp only at h
      split at h
      · cases h; exact .inl rfl
      · rename_i hcolumns
        cases h
        exact .inr ⟨by simpa using hcolumns, rfl⟩

namespace Entity

/-! ## The stages -/

section
variable {c : Compiler} {m : Metadata} {entity : Key} {d : Definition} {schema schema' : Members Key Value}

/-- What one link does to a schema. -/
theorem exists_of_relate_one {one : String × Params}
    (h : (do
      let compiled ← (Value.object schema).item entity
      return Members.overlay schema (← Link.resolve m (.ofKey entity) (.str one.1) one.2 compiled) : Run _).result = .ok schema') :
    ∃ compiled added, (Value.object schema).item entity = .ok compiled ∧
      (Link.resolve m (.ofKey entity) (.str one.1) one.2 compiled).result = .ok added ∧ schema' = schema.overlay added := by
  obtain ⟨compiled, hcompiled, h⟩ := Run.result_bind_eq_ok.1 h
  obtain ⟨added, hadded, h⟩ := Run.result_bind_eq_ok.1 h
  cases h
  exact ⟨compiled, added, Run.lift_eq_ok.1 hcompiled, hadded, rfl⟩

theorem relate_one_eq_ok {one : String × Params} (h : (relate m entity [one] schema).result = .ok schema') :
    ∃ compiled added, (Value.object schema).item entity = .ok compiled ∧
      (Link.resolve m (.ofKey entity) (.str one.1) one.2 compiled).result = .ok added ∧ schema' = schema.overlay added := by
  unfold relate at h
  rw [List.foldlM_cons] at h
  obtain ⟨next, hnext, h⟩ := Run.result_bind_eq_ok.1 h
  cases h
  exact exists_of_relate_one hnext

/-- What a link lays over its entity: its relation, and fields that show columns of a junction, if there are any. -/
structure LinkMembers (shown more : Members Key Value) : Prop where
  distinct : Members.Distinct more
  fields : ∀ v, Members.get? more "fields" = some v → v = .object shown
  other : ∀ key, key ≠ Key.text "relations" → key ≠ Key.text "fields" → Members.get? more key = none

theorem exists_linkMembers (entity : Key) (link : String) (found shown : Members Key Value) :
    ∃ more, Link.fragment entity link found shown = [(entity, .object more)] ∧ LinkMembers shown more := by
  refine ⟨_, rfl, Link.distinct_fragment link found shown, fun v hv => ?_, fun key hrelations hfields => ?_⟩
  · split at hv
    · simp [Members.get?_cons] at hv
    · simp [Members.get?_cons] at hv
      exact hv.symm
  · split <;> simp [Members.get?_cons, hrelations, hfields]

/-- What is kept when a link lays its members over the entity, all links keep. -/
theorem relate_invariant (P : Members Key Value → Prop)
    (hlink : ∀ s compiled params fields shown more, P s → (Value.object s).item entity = .ok compiled →
      Link.fieldsIn compiled = .ok fields → Link.attributeFields params fields = .ok shown → LinkMembers shown more →
        P (s.overlay [(entity, .object more)]))
    {links : Members String Params} (h : P schema) (hrelate : (relate m entity links schema).result = .ok schema') : P schema' := by
  refine Run.foldlM_invariant P (fun s link s' _ hs hstep => ?_) h hrelate
  obtain ⟨compiled, added, hitem, hadded, rfl⟩ := exists_of_relate_one hstep
  rcases Link.resolve_cases entity hadded with ⟨-, rfl⟩ | ⟨_, found, fields, shown, -, -, hfields, hshown, rfl⟩
  · rw [Members.overlay, Members.merge_nil]
    exact hs
  · obtain ⟨more, hfragment, hmore⟩ := exists_linkMembers entity link.1 found shown
    rw [hfragment]
    exact hlink s compiled link.2 fields shown more hs hitem hfields hshown hmore

theorem relate_append (before after : Members String Params) (schema : Members Key Value) :
    (relate m entity (before ++ after) schema).result =
      (relate m entity before schema).result >>= fun next => (relate m entity after next).result := by
  unfold relate
  simp only [Run.result_foldlM, List.foldlM_append]

theorem search_eq_ok (h : (search c m entity d schema).result = .ok schema') :
    schema' = schema ∨ FullText.columns c.config m d ≠ [] ∧
      schema' = schema.overlay [(entity, .object (FullText.found c.config (FullText.columns c.config m d)))] := by
  unfold search at h
  obtain ⟨found, hfound, h⟩ := Run.result_bind_eq_ok.1 h
  cases h
  rcases FullText.fragment_eq_ok hfound with rfl | ⟨hcolumns, rfl⟩
  · exact .inl rfl
  · exact .inr ⟨hcolumns, rfl⟩

theorem indexed_eq_ok {c : Config} (h : indexed c entity schema = .ok schema') :
    ∃ compiled found, (Value.object schema).item entity = .ok compiled ∧ Index.synthesize c compiled = .ok found ∧
      schema' = schema.overlay [(entity, .object found)] := by
  unfold indexed at h
  obtain ⟨compiled, hcompiled, h⟩ := bind_eq_ok.1 h
  obtain ⟨found, hfound, h⟩ := bind_eq_ok.1 h
  cases h
  exact ⟨compiled, found, hcompiled, hfound, rfl⟩

theorem ordered_eq_ok (h : ordered entity d schema = .ok schema') :
    ∃ (own : Members Key Value) (fields : Value) (found : Option (Members Key Value)),
      Members.get? schema entity = some (.object own) ∧ Members.get? own "fields" = some fields ∧
        collection? d.collection fields = .ok found ∧ (found = none ∧ schema' = schema ∨ ∃ ordering, found = some ordering ∧
          schema' = schema.set entity (.object (own.set "collection" (.object ordering)))) := by
  unfold ordered at h
  obtain ⟨compiled, hcompiled, h⟩ := bind_eq_ok.1 h
  obtain ⟨fields, hfields, h⟩ := bind_eq_ok.1 h
  obtain ⟨found, hfound, h⟩ := bind_eq_ok.1 h
  obtain ⟨own, rfl, hown⟩ := Value.item_eq_ok hfields
  obtain ⟨_, hobject, hget⟩ := Value.item_eq_ok hcompiled
  cases hobject
  refine ⟨own, fields, found, hget, hown, hfound, ?_⟩
  cases found with
  | none => cases h; exact .inl ⟨rfl, rfl⟩
  | some ordering => cases h; exact .inr ⟨ordering, rfl, rfl⟩

/-- The ordering of its collection leaves all other members of an entity as they are. -/
theorem ordered_own {own : Members Key Value} (h : ordered entity d [(entity, .object own)] = .ok schema') :
    ∃ own' : Members Key Value, schema' = [(entity, .object own')] ∧
      ∀ key ≠ Key.text "collection", Members.get? own' key = Members.get? own key := by
  obtain ⟨_, _, _, hown, -, -, ⟨-, rfl⟩ | ⟨ordering, -, rfl⟩⟩ := ordered_eq_ok h
  · exact ⟨own, rfl, fun _ _ => rfl⟩
  · rw [Members.get?_cons, if_pos BEq.rfl] at hown
    cases hown
    refine ⟨own.set "collection" (.object ordering), by rw [Members.set, if_pos BEq.rfl], fun key hkey => ?_⟩
    rw [Members.get?_set, if_neg (by simpa using hkey)]

/-- The stages of an entity: its links, its fields, their corrections, the relations and what follows them. -/
theorem compile_eq_ok (h : (compile c m entity d).result = .ok schema) :
    ∃ links declared resolved corrected related searched withIndexes, Entity.links m d = .ok links ∧
      fields c.config m entity d links = .ok declared ∧
      (resolveAll c.config m (seeds d) declared).result = .ok resolved ∧
      correct c.registry d entity resolved
        [(entity, .object ((base c.config d).set "fields" (.object (Params.toObjects resolved))))] = .ok corrected ∧
      (relate m entity links corrected).result = .ok related ∧
      (search c m entity d related).result = .ok searched ∧
      indexed c.config entity searched = .ok withIndexes ∧ ordered entity d withIndexes = .ok schema := by
  unfold compile at h
  obtain ⟨links, hlinks, h⟩ := Run.result_bind_eq_ok.1 h
  obtain ⟨declared, hdeclared, h⟩ := Run.result_bind_eq_ok.1 h
  obtain ⟨resolved, hresolved, h⟩ := Run.result_bind_eq_ok.1 h
  obtain ⟨corrected, hcorrected, h⟩ := Run.result_bind_eq_ok.1 h
  obtain ⟨related, hrelated, h⟩ := Run.result_bind_eq_ok.1 h
  obtain ⟨searched, hsearched, h⟩ := Run.result_bind_eq_ok.1 h
  obtain ⟨withIndexes, hindexed, h⟩ := Run.result_bind_eq_ok.1 h
  rw [Run.lift_eq_ok] at hlinks hcorrected hindexed h
  exact ⟨links, declared, resolved, corrected, related, searched, withIndexes, hlinks, hdeclared, hresolved, hcorrected,
    hrelated, hsearched, hindexed, h⟩

end

/-! ## Fields under a law -/

variable {c : Compiler} {P : Key → Members Key Value → Prop} {entity : Key} {schema schema' : Members Key Value}

theorem Lawful.relate (hlaw : Field.FieldLaw c.config P) {m : Metadata} {links : Members String Params}
    (h : Lawful entity P schema) (hrelate : (relate m entity links schema).result = .ok schema') :
    Lawful entity P schema' := by
  refine relate_invariant (Lawful entity P) (fun _ _ _ _ shown _ hs _ _ hshown hmore => ?_) h hrelate
  exact hs.overlay hlaw hmore.distinct fun v hv =>
    ⟨shown, hmore.fields v hv, fieldsWith_plain hlaw (Link.plain_attributeFields hshown)⟩

theorem Lawful.search (hlaw : Field.FieldLaw c.config P) {m : Metadata} {d : Definition} (h : Lawful entity P schema)
    (hsearch : (search c m entity d schema).result = .ok schema') : Lawful entity P schema' := by
  rcases search_eq_ok hsearch with rfl | ⟨-, rfl⟩
  · exact h
  · exact h.overlay hlaw (Members.distinct_pair (by decide) _ _) (by
      simp [Members.get?_cons, FullText.found])

theorem Lawful.indexed (hlaw : Field.FieldLaw c.config P) (h : Lawful entity P schema)
    (hindexed : indexed c.config entity schema = .ok schema') : Lawful entity P schema' := by
  obtain ⟨compiled, found, -, hfound, rfl⟩ := indexed_eq_ok hindexed
  obtain ⟨hd, hnone⟩ := Index.apart_of_synthesize hfound
  exact h.overlay hlaw hd (by simp [hnone])

theorem Lawful.ordered {d : Definition} (h : Lawful entity P schema) (hordered : ordered entity d schema = .ok schema') :
    Lawful entity P schema' := by
  obtain ⟨own, _, _, hown, -, -, ⟨-, rfl⟩ | ⟨ordering, -, rfl⟩⟩ := ordered_eq_ok hordered
  · exact h
  · exact h.set (by simp) hown

theorem distinct_base (config : Config) (d : Definition) : Members.Distinct (base config d) := by
  unfold base
  refine List.foldlRecOn config.permittedEntityOptions _ (by simp [Members.Distinct, Members.keys]; decide) ?_
  intro acc hacc option _
  simp only
  split
  · exact hacc
  · exact Members.distinct_set _ _ hacc

/-- With the processors of the compiler, the fields of a compiled entity obey every law that its own defaults obey. -/
theorem lawful_compile (hlaw : Field.FieldLaw c.config P) (hc : c.registry = {}) {m : Metadata} {d : Definition}
    (hown : ∀ field v, d.ownDefault? field = some v → P (.text field) [("default", v)])
    (h : (compile c m entity d).result = .ok schema) : Lawful entity P schema := by
  obtain ⟨_, _, resolved, _, _, _, _, -, -, hresolved, hcorrected, hrelated, hsearched, hindexed, hordered⟩ := compile_eq_ok h
  rw [hc] at hcorrected
  have hbase : Lawful entity P [(entity, .object ((base c.config d).set "fields" (.object (Params.toObjects resolved))))] :=
    ⟨_, _, rfl, Members.distinct_set _ _ (distinct_base c.config d), Members.get?_set_self _ _ _,
      fieldsWith_toObjects hlaw (resolveAll_paramsWith hlaw hresolved (paramsWith_seeds hlaw d))⟩
  exact ((((hbase.correct hlaw hown hcorrected).relate hlaw hrelated).search hlaw hsearched).indexed hlaw hindexed).ordered hordered

end Entity

end EntitySchema
