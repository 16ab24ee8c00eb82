import EntitySchema.Proofs.Link.Total

/-!
# Junctions that can be made

The fields of a junction are its own and its key columns, whose types are known, and the additional columns, whose types are
what the link declares. A junction can be made exactly if no additional column has a list or an object for its type.

* `columns`: the additional columns of a link or a relation, the last one of each name.
* `ScalarColumns`: none of them has a list or an object for its type.

Results:
* `ofRelation_isOk_iff`: when a many-to-many relation has a junction.
* `entities_isOk_iff`: when the relations of an entity have junctions.
-/
namespace EntitySchema.Junction

variable {c : Config}

/-- The additional columns of a link or a relation, the last one of each name. -/
def columns (params : Members Key Value) : Members Key Value :=
  Members.ofEntries (params.value "additionalColumns").members

/-- No additional column has a list or an object for its type. -/
def ScalarColumns (params : Members Key Value) : Prop :=
  ∀ column ∈ columns params, (column.2.members.value "type").isScalar = true

/-- The field of an additional column. -/
def ofColumn (defs : Value) : Value :=
  .object [("type", (Members.get? defs.members "type").getD (.str FieldKind.varchar.word))]

/-- An object whose type is no list and no object. -/
def IsTyped (v : Value) : Prop :=
  ∃ attributes : Members Key Value, v = .object attributes ∧ (attributes.value "type").isScalar = true

theorem isTyped_ofColumn {defs : Value} : IsTyped (ofColumn defs) ↔ (defs.members.value "type").isScalar = true := by
  have hsame : (((Members.get? defs.members "type").getD (.str FieldKind.varchar.word)).isScalar = true) ↔
      (defs.members.value "type").isScalar = true := by
    unfold Members.value
    cases Members.get? defs.members "type" <;> rfl
  rw [← hsame]
  unfold IsTyped ofColumn
  constructor
  · intro htyped
    obtain ⟨attributes, h, htype⟩ := htyped
    cases h
    exact htype
  · exact fun htype => ⟨_, rfl, htype⟩

theorem givenParts_of_fits {keys : Value} (h : (Record.Shape.nullable Record.texts).Fits keys) :
    ∃ names : List String, keys.givenParts = .ok (names.map .str) := by
  rw [Record.Shape.Fits, Record.texts, Record.Shape.Fits] at h
  rcases h with rfl | ⟨xs, rfl, hxs⟩
  · exact ⟨[], rfl⟩
  · have hnames : ∃ names : List String, xs = names.map .str := by
      induction xs with
      | nil => exact ⟨[], rfl⟩
      | cons x rest ih =>
        obtain ⟨names, hnames⟩ := ih fun x hx => hxs x (List.mem_cons_of_mem _ hx)
        have hx := hxs x List.mem_cons_self
        rw [Record.Shape.Fits] at hx
        obtain ⟨s, rfl⟩ := hx
        exact ⟨s :: names, by rw [hnames, List.map_cons]⟩
    obtain ⟨names, rfl⟩ := hnames
    refine ⟨names, ?_⟩
    cases names <;> rfl

/-- The declarations of a junction: the additional columns put into fields whose types are known. -/
theorem fields_yields {relation : Members Key Value} (h : Link.HasJunction relation) :
    Yields (fields c relation) fun declared => ∃ base : Members Key Value, (∀ entry ∈ base, IsTyped entry.2) ∧
      declared = (relation.value "additionalColumns").members.foldl
        (fun acc column => Members.set acc column.1 (ofColumn column.2)) base := by
  obtain ⟨names, hnames⟩ := givenParts_of_fits h.keys
  obtain ⟨hgiven, hcolumns⟩ := Record.objects_of_fits h.columns
  let Typed (m : Members Key Value) : Prop := ∀ entry ∈ m, IsTyped entry.2
  unfold fields
  simp only
  rw [hnames, ok_bind]
  refine Yields.bind (P := Typed) (yields_foldlM (fun acc key hkey hacc => ?_) ?_) fun base hbase => ?_
  · obtain ⟨name, -, rfl⟩ := List.mem_map.1 hkey
    have hkey : (Value.str name).key = .ok (.text name) := rfl
    rw [hkey, ok_bind]
    refine yields_ok fun entry he => ?_
    rcases Members.mem_set he with he | ⟨-, he⟩
    · exact hacc entry he
    · exact ⟨_, he, rfl⟩
  · intro entry he
    rcases List.mem_cons.1 he with rfl | he
    · exact ⟨_, rfl, rfl⟩
    · rw [List.mem_singleton] at he
      subst he
      exact ⟨_, rfl, rfl⟩
  · rw [hgiven, ok_bind]
    refine ⟨_, foldlM_eq_foldl (g := fun acc column => Members.set acc column.1 (ofColumn column.2)) ?_, base, hbase, rfl⟩
    intro acc column hcolumn
    obtain ⟨-, below, hbelow⟩ := hcolumns column hcolumn
    have hdefs : column.2.givenMembers = .ok below := by rw [hbelow, Value.givenMembers_object]
    rw [hdefs, ok_bind, ofColumn, hbelow]
    rfl

/-- A junction has normal forms exactly if no additional column has a list or an object for its type. -/
theorem isTyped_of_columns (relation : Members Key Value) {base : Members Key Value} (hbase : ∀ entry ∈ base, IsTyped entry.2)
    (hd : Members.Distinct ((relation.value "additionalColumns").members.foldl
      (fun acc column => Members.set acc column.1 (ofColumn column.2)) base)) :
    (∀ entry ∈ (relation.value "additionalColumns").members.foldl
      (fun acc column => Members.set acc column.1 (ofColumn column.2)) base, IsTyped entry.2) ↔ ScalarColumns relation := by
  have hget := Members.get?_foldl_set ofColumn (relation.value "additionalColumns").members base
  generalize (relation.value "additionalColumns").members.foldl
    (fun acc column => Members.set acc column.1 (ofColumn column.2)) base = declared at hd hget ⊢
  constructor
  · intro h column hcolumn
    have hfound : Members.get? (columns relation) column.1 = some column.2 :=
      Members.get?_of_mem (Members.distinct_ofEntries _) hcolumn
    have hdeclared : Members.get? declared column.1 = some (ofColumn column.2) := by
      rw [hget, ← columns, hfound]
      rfl
    obtain ⟨k, -, hm⟩ := Members.exists_of_get? hdeclared
    exact isTyped_ofColumn.1 (h _ hm)
  · intro h entry he
    have hdeclared := Members.get?_of_mem hd he
    rw [hget, ← columns] at hdeclared
    cases hfound : Members.get? (columns relation) entry.1 with
    | some defs =>
      rw [hfound] at hdeclared
      have hentry : ofColumn defs = entry.2 := Option.some.inj hdeclared
      obtain ⟨k, -, hm⟩ := Members.exists_of_get? hfound
      exact hentry ▸ isTyped_ofColumn.2 (h _ hm)
    | none =>
      rw [hfound] at hdeclared
      obtain ⟨k, -, hm⟩ := Members.exists_of_get? (m := base) hdeclared
      exact hbase (k, entry.2) hm

/-- A many-to-many relation has a junction exactly if no additional column has a list or an object for its type. -/
theorem ofRelation_isOk_iff {relation : Members Key Value}
    (hmany : (relation.value "type").isText LinkKind.manyMany.word = true) (h : Link.HasJunction relation) :
    (∃ found, (ofRelation c (.object relation)).result = .ok found) ↔ ScalarColumns relation := by
  obtain ⟨declared, hdeclared, base, hbase, hfold⟩ := fields_yields (c := c) h
  have hiff := isTyped_of_columns relation hbase (hfold ▸ (declaration_of_fields hdeclared).1)
  rw [← hiff, ← hfold]
  constructor
  · intro hgiven
    obtain ⟨found, hfound⟩ := hgiven
    rcases ofRelation_eq_ok hfound with ⟨hnot, -⟩ | ⟨-, name, declared', normal, -, hdeclared', hnormal, -⟩
    · rw [Value.members_object, hmany] at hnot; cases hnot
    · rw [Value.members_object, hdeclared] at hdeclared'
      cases hdeclared'
      exact (Field.normalizeAll_isOk_iff _ _).1 ⟨normal, hnormal⟩
  · intro htyped
    obtain ⟨name, hname⟩ := h.name
    obtain ⟨normal, hnormal⟩ := (Field.normalizeAll_isOk_iff c (.text (Naming.junctionEntity name))).2 htyped
    refine ⟨some (.text (Naming.junctionEntity name), .object [("skipRebuild", .bool true), ("fields", .object normal)]), ?_⟩
    unfold ofRelation
    refine Run.result_bind_eq_ok.2 ⟨relation, rfl, ?_⟩
    rw [if_pos hmany]
    refine Run.result_bind_eq_ok.2 ⟨.str name, Run.lift_eq_ok.2 (Value.item_object hname), ?_⟩
    refine Run.result_bind_eq_ok.2 ⟨name, rfl, ?_⟩
    refine Run.result_bind_eq_ok.2 ⟨declared, Run.lift_eq_ok.2 hdeclared, ?_⟩
    exact Run.result_bind_eq_ok.2 ⟨normal, hnormal, rfl⟩

/-- A relation of another kind has no junction, and nothing can go wrong with it. -/
theorem ofRelation_of_plain {relation : Members Key Value}
    (hmany : (relation.value "type").isText LinkKind.manyMany.word = false) :
    (ofRelation c (.object relation)).result = .ok none := by
  unfold ofRelation
  refine Run.result_bind_eq_ok.2 ⟨relation, rfl, ?_⟩
  rw [hmany]
  rfl

/-! ## All relations of an entity -/

/-- What the relations of an entity need to have junctions, apart from the types of additional columns. -/
def ReadyForJunctions (relations : Members Key Value) : Prop :=
  ∀ entry ∈ relations, ∃ relation : Members Key Value, entry.2 = .object relation ∧
    ((relation.value "type").isText LinkKind.manyMany.word = true → Link.HasJunction relation)

/-- The relations of an entity have junctions exactly if no additional column has a list or an object for its type. -/
theorem entities_isOk_iff {own relations : Members Key Value}
    (hrelations : Members.get? own "relations" = some (.object relations)) (h : ReadyForJunctions relations) :
    (∃ junctions, (entities c (.object own)).result = .ok junctions) ↔
      ∀ entry ∈ relations, (entry.2.members.value "type").isText LinkKind.manyMany.word = true →
        ScalarColumns entry.2.members := by
  have hgiven := Members.givenMembers_of_get? hrelations
  have hof : relationsOf (.object own) = relations := by
    rw [relationsOf, Value.members_object, Members.value_of_get? hrelations]
    rfl
  constructor
  · intro hgivenJunctions entry hentry hmany
    obtain ⟨junctions, hjunctions⟩ := hgivenJunctions
    obtain ⟨found, hfound, -⟩ := entities_eq_ok hjunctions
    rw [hof] at hfound
    obtain ⟨junction, -, hjunction⟩ := Members.forall₂_exists_left hfound hentry
    obtain ⟨relation, hrelation, hready⟩ := h entry hentry
    rw [hrelation] at hjunction hmany ⊢
    exact (ofRelation_isOk_iff hmany (hready hmany)).1 ⟨_, hjunction⟩
  · intro hscalar
    have hyields : Yields (entities c (.object own)).result fun _ => True := by
      unfold entities
      rw [Run.result_bind]
      refine Yields.bind (P := fun members => members = own) ⟨own, rfl, rfl⟩ fun members hmembers => ?_
      rw [hmembers, hgiven, Run.result_bind]
      refine Yields.bind (P := fun given => given = relations) ⟨relations, rfl, rfl⟩ fun given hgivenEq => ?_
      rw [hgivenEq]
      refine Run.yields_foldlM (fun acc entry hentry _ => ?_) trivial
      obtain ⟨relation, hrelation, hready⟩ := h entry hentry
      have hfound : ∃ found, (ofRelation c entry.2).result = .ok found := by
        rw [hrelation]
        cases hmany : (relation.value "type").isText LinkKind.manyMany.word with
        | true =>
          refine (ofRelation_isOk_iff hmany (hready hmany)).2 ?_
          have hcolumns := hscalar entry hentry
          rw [hrelation] at hcolumns
          exact hcolumns hmany
        | false => exact ⟨none, ofRelation_of_plain hmany⟩
      obtain ⟨found, hfound⟩ := hfound
      rw [Run.result_bind]
      refine Yields.bind (P := fun _ => True) ⟨found, hfound, trivial⟩ fun found _ => ?_
      cases found <;> exact ⟨_, rfl, trivial⟩
    obtain ⟨junctions, hjunctions, -⟩ := hyields
    exact ⟨junctions, hjunctions⟩

theorem onlyMisuses_ofRelation (c : Config) (relation : Value) : OnlyMisuses (ofRelation c relation).result := by
  unfold ofRelation
  rw [Run.result_bind]
  refine onlyMisuses_lift.bind fun members => ?_
  split
  · simp only [Run.result_bind]
    refine onlyMisuses_lift.bind fun named => onlyMisuses_lift.bind fun name => onlyMisuses_lift.bind fun declared => ?_
    exact (Field.onlyMisuses_normalizeAll _ _ _).bind fun _ => onlyMisuses_ok
  · exact onlyMisuses_ok

/-- Junctions can only fail to be made by a misuse. -/
theorem onlyMisuses_entities (c : Config) (compiled : Value) : OnlyMisuses (entities c compiled).result := by
  unfold entities
  simp only [Run.result_bind, Run.result_foldlM]
  refine onlyMisuses_lift.bind fun members => onlyMisuses_lift.bind fun relations => ?_
  refine onlyMisuses_foldlM (fun acc relation => ?_) relations []
  refine (onlyMisuses_ofRelation c relation.2).bind fun found => ?_
  cases found <;> exact onlyMisuses_ok

end EntitySchema.Junction
