import EntitySchema.Proofs.Schema.Tree

/-!
# Columns of junctions

Every many-to-many relation of a schema needs columns of its junction. Several relations may share a junction. Junctions of
different entities are laid over each other, but of the relations of one entity that share a junction only the last one has a
say, so a column that no other entity and no such relation declares is lost.

Results:
* `contains_fields_iff`: which fields an entity of a compiled schema has.
* `keepsJunctionColumns_iff`: no column is lost exactly if each is supplied by an entity or by a last relation.
* `exists_lost_column`: two links of one entity that share a junction, of which the second hides a column of the first.
-/
namespace EntitySchema.Schema

/-! ## What relations need -/

/-- Whether a relation of a schema needs a column of its junction: an identifier, the mark for deleted rows, a key, or an
additional column whose type is not null. -/
def needs (relation : Value) (column : String) : Bool :=
  column == "id" || column == "deleted" || (relation.members.value "midKeys").texts.contains column ||
    (Members.get? (relation.members.value "additionalColumns").members column).any fun defs =>
      !((Members.get? defs.members (.text "type")).any Value.isNull)

/-- Whether a relation of a schema is a many-to-many one with a junction of the given name. -/
def joinsBy (relation : Value) (name : String) : Prop :=
  relation.members.value "type" = .str LinkKind.manyMany.word ∧ relation.members.value "relationName" = .str name

/-- The junction of every many-to-many relation of a schema is there, with all columns that the relation needs. -/
def KeepsJunctionColumns (s : Schema) : Prop :=
  ∀ entity, ∀ relation ∈ (s.relations entity).values, relation.members.value "type" = .str LinkKind.manyMany.word →
    ∃ name, joinsBy relation name ∧ ∀ column : String, needs relation column = true →
      Members.contains (s.fields (.text (Naming.junctionEntity name))) (.text column) = true

/-! ## What supplies columns -/

/-- The last relation by which some entity has a junction declares a column. -/
def JunctionSupplies (c : Config) (tree : Members Key Value) (junction column : Key) : Prop :=
  ∃ compiled ∈ tree.values, ∃ relation, Junction.lastOf? (Junction.relationsOf compiled) junction = some relation ∧
    Junction.declares c relation.members column = true

/-- A column of a junction is supplied if an entity of that name has it as a field, or if a junction supplies it. -/
def Supplied (c : Config) (tree : Members Key Value) (junction column : Key) : Prop :=
  Members.contains (fieldsIn tree junction) column = true ∨ JunctionSupplies c tree junction column

/-- Every column that a many-to-many relation of a schema needs is supplied. -/
def AllSupplied (c : Config) (tree : Members Key Value) (s : Schema) : Prop :=
  ∀ entity, ∀ relation ∈ (s.relations entity).values, ∀ name, joinsBy relation name →
    ∀ column : String, needs relation column = true → Supplied c tree (.text (Naming.junctionEntity name)) (.text column)

/-- A junction of one entity has the columns that the last relation of the name declares. -/
theorem contains_fieldsIn_entities {c : Config} {compiled : Value} {part : Members Key Value}
    (h : (Junction.entities c compiled).result = .ok part) (junction column : Key) :
    Members.contains (fieldsIn part junction) column = true ↔
      ∃ relation, Junction.lastOf? (Junction.relationsOf compiled) junction = some relation ∧
        Junction.declares c relation.members column = true := by
  have hlast := Junction.get?_entities h junction
  split at hlast
  · rename_i relation hrelation
    obtain ⟨entry, hentry, hget⟩ := hlast
    have hfields : fieldsIn part junction = (entry.2.members.value "fields").members := by
      rw [fieldsIn, entityIn, Members.value_of_get? hget]
    rw [hfields, Junction.contains_columnsOf hentry, hrelation]
    simp
  · rename_i hrelation
    rw [fieldsIn_of_get?_none hlast, hrelation]
    simp [Members.contains]

section
variable {c : Compiler} {s : Snapshot} {schema : Schema} {tree : Members Key Value} {parts : List (Members Key Value)}

/-- Every relation of the tree was asked for its junction. -/
theorem ofRelation_of_mem (h : Assembled c s schema tree parts) {entity : Key} {link : Key × Value}
    (hlink : link ∈ relationsIn tree entity) : ∃ junction, (Junction.ofRelation c.config link.2).result = .ok junction := by
  cases htree : Members.get? tree entity with
  | none =>
    rw [relationsIn, entityIn_of_get?_none htree] at hlink
    cases hlink
  | some compiled =>
    obtain ⟨key, -, hm⟩ := Members.exists_of_get? htree
    obtain ⟨part, -, hpart⟩ := Members.forall₂_exists_left h.junctions (List.mem_map_of_mem (f := Prod.snd) hm)
    obtain ⟨junctions, hjunctions, -⟩ := Junction.entities_eq_ok hpart
    have hrelations : relationsIn tree entity = Junction.relationsOf compiled := by
      rw [relationsIn, entityIn, Members.value_of_get? htree, Junction.relationsOf]
    rw [hrelations] at hlink
    obtain ⟨junction, -, hjunction⟩ := Members.forall₂_exists_left hjunctions hlink
    exact ⟨junction, hjunction⟩

/-- Every many-to-many relation of a compiled schema says the name of its junction. -/
theorem exists_joinsBy (h : Assembled c s schema tree parts) {entity : Key} {relation : Value}
    (hrelation : relation ∈ (schema.relations entity).values)
    (hmany : relation.members.value "type" = .str LinkKind.manyMany.word) : ∃ name, joinsBy relation name := by
  obtain ⟨link, hlink, rfl⟩ := List.mem_map.1 hrelation
  obtain ⟨name, raw, -, hraw, hcheck⟩ := Record.mem_checkMembers (h.relations entity) hlink
  obtain ⟨junction, hjunction⟩ := ofRelation_of_mem h hraw
  obtain ⟨m, _, rfl, -⟩ := Record.record_eq_ok Record.isRecord_compiledRelation hcheck
  -- a relation that joins by a name was written with that name
  rcases Junction.ofRelation_eq_ok hjunction with ⟨hnot, -⟩ | ⟨-, written, -, -, hwritten, -, -, -⟩
  · rw [Value.members_object, (Record.type_of_relation hcheck).1 hmany] at hnot
    simp [Value.isText] at hnot
  · exact ⟨written, hmany, Record.relationName_of_relation hcheck hwritten⟩

/-- Which fields an entity of a compiled schema has. -/
theorem contains_fields_iff (h : Assembled c s schema tree parts) (junction column : Key) :
    Members.contains (schema.fields junction) column = true ↔ Supplied c.config tree junction column := by
  rw [h.contains_fields, Supplied]
  refine or_congr_right ⟨?_, ?_⟩
  · intro hhas
    obtain ⟨part, hpart, hcolumn⟩ := hhas
    obtain ⟨compiled, hcompiled, hentities⟩ := Members.forall₂_exists_right h.junctions hpart
    exact ⟨compiled, hcompiled, (contains_fieldsIn_entities hentities junction column).1 hcolumn⟩
  · intro hdeclares
    obtain ⟨compiled, hcompiled, hlast⟩ := hdeclares
    obtain ⟨part, hpart, hentities⟩ := Members.forall₂_exists_left h.junctions hcompiled
    exact ⟨part, hpart, (contains_fieldsIn_entities hentities junction column).2 hlast⟩

/-- No column of a junction is lost exactly if each column that is needed is supplied. -/
theorem keepsJunctionColumns_iff (h : (compile c s).result = .ok schema) :
    ∃ tree, (entityTree c s).result = .ok tree ∧ (schema.KeepsJunctionColumns ↔ AllSupplied c.config tree schema) := by
  obtain ⟨tree, parts, hassembled⟩ := exists_assembled h
  refine ⟨tree, hassembled.entities, ?_, ?_⟩
  · intro hkeeps entity relation hrelation name hname column hneeds
    obtain ⟨name', hname', hcolumns⟩ := hkeeps entity relation hrelation hname.1
    obtain rfl : name' = name := by
      have := hname'.2.symm.trans hname.2
      injection this
    exact (contains_fields_iff hassembled _ _).1 (hcolumns column hneeds)
  · intro hsupplied entity relation hrelation hmany
    obtain ⟨name, hname⟩ := exists_joinsBy hassembled hrelation hmany
    refine ⟨name, hname, fun column hneeds => ?_⟩
    exact (contains_fields_iff hassembled _ _).2 (hsupplied entity relation hrelation name hname column hneeds)

end

/-! ## A column that is lost -/

/-- A link whose junction keeps a column of its own. -/
def memberLink (column : String) (kind : FieldKind) : Value :=
  .object [("type", .str LinkKind.manyMany.word), ("entity", .str "Contact"), ("relationName", .str "member"),
    ("additionalColumns", .object [(column, .object [("type", .str kind.word)])])]

/-- An entity with two links that share a junction. -/
def twoMemberLinks : Snapshot :=
  .ofWritten [("Account", .object [
    ("links", .object [("a", memberLink "role" .varchar), ("b", memberLink "level" .int)])])] {}

theorem keepsJunctionColumns_iff_twoMemberLinks :
    ∃ schema, (compile {} twoMemberLinks).result = .ok schema ∧
      ∃ tree, (entityTree {} twoMemberLinks).result = .ok tree ∧
        (schema.KeepsJunctionColumns ↔ AllSupplied {} tree schema) := by
  have hgives : gives (compile {} twoMemberLinks).result (fun _ => true) = true := by decide +kernel
  obtain ⟨schema, hschema, -⟩ := gives_iff.1 hgives
  exact ⟨schema, hschema, keepsJunctionColumns_iff hschema⟩

/-- The second link declares no role, so the role that the first one needs is lost. -/
theorem exists_lost_column :
    ∃ schema, (compile {} twoMemberLinks).result = .ok schema ∧ ¬ schema.KeepsJunctionColumns := by
  have hgives : gives (compile {} twoMemberLinks).result (fun schema =>
      (schema.relations "Account").values.any fun relation =>
        (relation.members.value "type").isText LinkKind.manyMany.word &&
          (relation.members.value "relationName").isText "member" && needs relation "role" &&
          !Members.contains (schema.fields (.text (Naming.junctionEntity "member"))) "role") = true := by
    decide +kernel
  obtain ⟨schema, hschema, hlost⟩ := gives_iff.1 hgives
  refine ⟨schema, hschema, fun hkeeps => ?_⟩
  obtain ⟨relation, hrelation, htest⟩ := List.any_eq_true.1 hlost
  simp only [Bool.and_eq_true, Bool.not_eq_true', Value.isText_iff] at htest
  obtain ⟨⟨⟨hmany, hmember⟩, hneeds⟩, hlacks⟩ := htest
  obtain ⟨name, hname, hcolumns⟩ := hkeeps "Account" relation hrelation hmany
  have hsame : Value.str name = .str "member" := hname.2.symm.trans hmember
  injection hsame with hsame
  have hcolumn := hcolumns "role" hneeds
  rw [hsame, hlacks] at hcolumn
  cases hcolumn

end EntitySchema.Schema
