import EntitySchema.Proofs.Entity.Errors
import EntitySchema.Proofs.Entity.Outcome
import EntitySchema.Proofs.Schema.GivenUp

/-!
# Isolation of failures

What becomes of entities as they are written, without metadata of types. An entity that cannot be read, or that compiles to a
wrong shape, is given up with a message. One whose links break their contract stops the compilation with a configuration error.
There are two more ways to stop it: an entity whose indexes cannot be read or whose fields have no normal form misuses a value
while it is compiled, and an additional column without a usable type misuses one when the junctions are made.

* `Isolates`: nothing but a broken contract stops the compilation, and what is given up does no harm.
* `BreaksContract`, `Undigested`: the entities that stop the compilation.

Results:
* `entityTree_yields`: the tree of entities that do not stop the compilation.
* `isolates_iff`: which entities are compiled in isolation.
-/
namespace EntitySchema.Schema

/-! ## Fields of an entity in normal form -/

/-- No field has a list or an object for its type. -/
def ScalarTypes (fields : Members Key Value) : Prop :=
  ∀ field ∈ fields, (field.2.members.value "type").isScalar = true

section
variable {c : Config} {entity : Key} {own fields : Members Key Value}

theorem result_normalizeEntity (hfields : Members.get? own "fields" = some (.object fields)) :
    (normalizeEntity c entity (.object own)).result =
      (Field.normalizeAll c entity fields).result.map fun normal => own.set "fields" (.object normal) := by
  unfold normalizeEntity
  rw [Run.bind_of_ok (a := own) rfl, Run.bind_of_ok (Run.lift_eq_ok.2 (Members.givenMembers_of_get? hfields)), Run.result_bind]
  cases (Field.normalizeAll c entity fields).result <;> rfl

/-- An entity has a normal form exactly if no field has a list or an object for its type. -/
theorem normalizeEntity_isOk_iff (c : Config) (entity : Key) (hfields : Members.get? own "fields" = some (.object fields))
    (hobjects : fields.Objects) :
    (∃ members, (normalizeEntity c entity (.object own)).result = .ok members) ↔ ScalarTypes fields := by
  rw [result_normalizeEntity hfields]
  simp only [map_eq_ok, exists_comm (α := Members Key Value), exists_and_left, exists_eq', and_true]
  rw [Field.normalizeAll_isOk_iff]
  constructor
  · intro h field hfield
    obtain ⟨attributes, hattributes, htype⟩ := h field hfield
    rwa [hattributes]
  · intro h field hfield
    obtain ⟨-, attributes, hattributes⟩ := hobjects field hfield
    have htype := h field hfield
    rw [hattributes] at htype
    exact ⟨attributes, hattributes, htype⟩

theorem checkEntity_misuses (c : Config) (entity : Key) (hfields : Members.get? own "fields" = some (.object fields))
    (hobjects : fields.Objects) (htypes : ¬ScalarTypes fields) :
    ∃ cause, (checkEntity c entity (.object own)).result = .error (.misused cause) := by
  rw [← normalizeEntity_isOk_iff c entity hfields hobjects] at htypes
  unfold checkEntity
  rw [Run.result_bind]
  cases hmembers : (normalizeEntity c entity (.object own)).result with
  | ok members => exact absurd ⟨members, hmembers⟩ htypes
  | error e =>
    obtain ⟨cause, rfl⟩ := onlyMisuses_normalizeEntity c entity (.object own) e hmembers
    exact ⟨cause, rfl⟩

/-- An entity with a normal form is at most given up. -/
theorem skips_of_checkEntity (hfields : Members.get? own "fields" = some (.object fields)) (hobjects : fields.Objects)
    (htypes : ScalarTypes fields) {e : Error} (h : (checkEntity c entity (.object own)).result = .error e) : e.skips = true := by
  obtain ⟨members, hmembers⟩ := (normalizeEntity_isOk_iff c entity hfields hobjects).2 htypes
  unfold checkEntity at h
  rw [Run.bind_of_ok hmembers] at h
  split at h
  · cases h
  · cases h; rfl

end

/-! ## One entity -/

/-- An entity as it is written, under its name. -/
def written (entry : String × Value) : Key × Declared :=
  (.text entry.1, .written entry.2)

/-- The definition of an entity can be read, but its links break their contract. -/
def BreaksContract (entry : String × Value) : Prop :=
  ∃ d, load (.text entry.1) (.written entry.2) = .ok d ∧ ¬Entity.KeepsContract (.text entry.1) d

/-- The indexes of an entity can be read, and no field that it compiles to has a list or an object for its type. -/
structure Digestible (all : Bool) (tables : List Key) (entity : String) (d : Definition) : Prop where
  indexes : Entity.ReadableIndexes (.text entity) d
  types : ∀ schema, (Entity.compile (.static all tables) {} (.text entity) d).result = .ok schema →
    ScalarTypes (fieldsIn schema (.text entity))

/-- The definition of an entity can be read and its links keep their contract, but it is not digestible. -/
def Undigested (all : Bool) (tables : List Key) (entry : String × Value) : Prop :=
  ∃ d, load (.text entry.1) (.written entry.2) = .ok d ∧ Entity.KeepsContract (.text entry.1) d ∧
    ¬Digestible all tables entry.1 d

section
variable {c : Compiler} {m : Metadata} {entity : Key} {declared : Declared} {d : Definition} {own : Members Key Value}
  {e : Error}

/-- A definition that cannot be read concerns one entity only. -/
theorem skips_of_load (h : load entity declared = .error e) : e.skips = true := by
  obtain ⟨reason, rfl⟩ := malformed_of_load h
  rfl

/-- What an entity compiles to is checked. -/
theorem result_compileEntity_of_ok {fields : Members Key Value} (hload : load entity declared = .ok d)
    (hcompile : (Entity.compile c m entity d).result = .ok [(entity, .object own)])
    (hfields : Members.get? own "fields" = some (.object fields)) :
    (compileEntity c m entity declared).result = (checkEntity c.config entity (.object own)).result >>= fun _ =>
      .ok { skipsRebuild := d.skipsRebuild, tree := [(entity, .object own)] } := by
  rw [result_compileEntity hload, hcompile, ok_bind, own_of_singleton hfields]

end

section
variable {all : Bool} {tables : List Key} {entry : String × Value} {d : Definition} {one : Compiled}

/-- What an entity with readable indexes compiles to. -/
theorem compile_eq_singleton (all : Bool) (tables : List Key) (hload : load (.text entry.1) (.written entry.2) = .ok d)
    (hkeeps : Entity.KeepsContract (.text entry.1) d) (hreadable : Entity.ReadableIndexes (.text entry.1) d) :
    ∃ own fields relations : Members Key Value,
      (Entity.compile (.static all tables) {} (.text entry.1) d).result = .ok [(.text entry.1, .object own)] ∧
        Members.get? own "fields" = some (.object fields) ∧ fields.Objects ∧
          Members.get? own "relations" = some (.object relations) ∧
            Entity.Reindexed (Entity.relationsFor entry.1 (Entity.declaredLinks d)) relations ∧
              fieldsIn [(.text entry.1, .object own)] (.text entry.1) = fields := by
  obtain ⟨schema, hschema, own, fields, relations, rfl, hfields, hobjects, hrelations, hreindexed⟩ :=
    Entity.compile_yields all tables (Definition.fits_of_load hload) hkeeps hreadable
  refine ⟨own, fields, relations, hschema, hfields, hobjects, hrelations, hreindexed, ?_⟩
  exact fieldsIn_of_get? (Members.get?_singleton _ _) hfields

/-- An entity whose links break their contract stops the compilation for that. -/
theorem compileEntity_of_broken (all : Bool) (tables : List Key) (h : BreaksContract entry) :
    ∃ e, (compileEntity (.static all tables) {} (.text entry.1) (.written entry.2)).result = .error e ∧
      e.isConfiguration = true := by
  obtain ⟨d, hload, hbroken⟩ := h
  obtain ⟨e, he, hconfiguration⟩ := Entity.compile_of_broken all tables (Definition.fits_of_load hload) hbroken
  refine ⟨e, ?_, hconfiguration⟩
  rw [result_compileEntity hload, he]
  rfl

/-- An entity that is not digested misuses a value. -/
theorem compileEntity_of_undigested (h : Undigested all tables entry) :
    ∃ cause, (compileEntity (.static all tables) {} (.text entry.1) (.written entry.2)).result = .error (.misused cause) := by
  obtain ⟨d, hload, hkeeps, hundigested⟩ := h
  by_cases hreadable : Entity.ReadableIndexes (.text entry.1) d
  · obtain ⟨own, fields, -, hcompile, hfields, hobjects, -, -, hown⟩ :=
      compile_eq_singleton all tables hload hkeeps hreadable
    have htypes : ¬ScalarTypes fields := by
      intro htypes
      refine hundigested ⟨hreadable, fun schema hschema => ?_⟩
      rw [hcompile] at hschema
      cases hschema
      rwa [hown]
    obtain ⟨cause, hcause⟩ := checkEntity_misuses {} (.text entry.1) hfields hobjects htypes
    refine ⟨cause, ?_⟩
    rw [result_compileEntity_of_ok hload hcompile hfields, Entity.config_static, hcause]
    rfl
  · obtain ⟨cause, hcause⟩ :=
      Entity.compile_misuses all tables (Definition.fits_of_load hload) hkeeps hreadable
    refine ⟨cause, ?_⟩
    rw [result_compileEntity hload, hcause]
    rfl

theorem digestible_of_load (hkeeps : ¬BreaksContract entry) (hdigested : ¬Undigested all tables entry)
    (hload : load (.text entry.1) (.written entry.2) = .ok d) :
    Entity.KeepsContract (.text entry.1) d ∧ Digestible all tables entry.1 d := by
  have hcontract : Entity.KeepsContract (.text entry.1) d := by
    by_contra hbroken
    exact hkeeps ⟨d, hload, hbroken⟩
  refine ⟨hcontract, ?_⟩
  by_contra hnot
  exact hdigested ⟨d, hload, hcontract, hnot⟩

/-- Every other entity is compiled or given up. -/
theorem passes_of_digested (hkeeps : ¬BreaksContract entry) (hdigested : ¬Undigested all tables entry) :
    Passes (.static all tables) {} (written entry) := by
  intro e he
  cases hload : load (.text entry.1) (.written entry.2) with
  | error e' =>
    cases (result_compileEntity_of_error hload).symm.trans he
    exact skips_of_load hload
  | ok d =>
    obtain ⟨hcontract, hdigestible⟩ := digestible_of_load hkeeps hdigested hload
    obtain ⟨own, fields, -, hcompile, hfields, hobjects, -, -, hown⟩ :=
      compile_eq_singleton all tables hload hcontract hdigestible.indexes
    have htypes := hdigestible.types _ hcompile
    rw [hown] at htypes
    have hresult := result_compileEntity_of_ok hload hcompile hfields
    cases hcheck : (checkEntity {} (.text entry.1) (.object own)).result with
    | ok =>
      rw [Entity.config_static, hcheck] at hresult
      cases hresult.symm.trans he
    | error e' =>
      rw [Entity.config_static, hcheck] at hresult
      cases hresult.symm.trans he
      exact skips_of_checkEntity hfields hobjects htypes hcheck

/-- An entity that was compiled, with fields that have a normal form and the relations of its links. -/
theorem exists_of_compileEntity
    (h : (compileEntity (.static all tables) {} (.text entry.1) (.written entry.2)).result = .ok one) :
    ∃ d, load (.text entry.1) (.written entry.2) = .ok d ∧ ∃ own fields relations : Members Key Value,
      one.tree = [(.text entry.1, .object own)] ∧ Members.get? own "fields" = some (.object fields) ∧ fields.Objects ∧
        ScalarTypes fields ∧ Members.get? own "relations" = some (.object relations) ∧
          Entity.Reindexed (Entity.relationsFor entry.1 (Entity.declaredLinks d)) relations := by
  obtain ⟨d, hload, hone⟩ := compileEntity_eq_ok h
  have hkeeps : ¬BreaksContract entry := by
    intro hbroken
    obtain ⟨e, he, -⟩ := compileEntity_of_broken all tables hbroken
    cases he.symm.trans h
  have hdigested : ¬Undigested all tables entry := by
    intro hundigested
    obtain ⟨cause, hcause⟩ := compileEntity_of_undigested hundigested
    cases hcause.symm.trans h
  obtain ⟨hcontract, hdigestible⟩ := digestible_of_load hkeeps hdigested hload
  obtain ⟨own, fields, relations, hcompile, hfields, hobjects, hrelations, hreindexed, hown⟩ :=
    compile_eq_singleton all tables hload hcontract hdigestible.indexes
  have htypes := hdigestible.types _ hcompile
  rw [hown] at htypes
  exact ⟨d, hload, own, fields, relations, Except.ok.inj (hone.symm.trans hcompile), hfields, hobjects, htypes, hrelations,
    hreindexed⟩

end

/-! ## The stages after the entities -/

section
variable {c : Config} {compiled : Members Key Value}

/-- A tree has a normal form exactly if every entity has one. -/
theorem normalize_isOk_iff :
    (∃ tree, (normalize c compiled).result = .ok tree) ↔
      ∀ out ∈ compiled, ∃ members, (normalizeEntity c out.1 out.2).result = .ok members := by
  induction compiled with
  | nil => exact ⟨fun _ _ hout => absurd hout List.not_mem_nil, fun _ => ⟨[], rfl⟩⟩
  | cons out rest ih =>
    obtain ⟨entity, v⟩ := out
    rw [List.forall_mem_cons, ← ih, normalize, Run.result_bind, bind_isOk_iff, ← exists_and_right]
    refine exists_congr fun members => and_congr_right fun _ => ?_
    rw [Run.result_bind]
    exact bind_isOk_of_total fun tree => ⟨_, rfl⟩

/-- The junctions of all entities are made exactly if those of each entity are. -/
theorem withJunctions_isOk_iff {tree : Members Key Value} {count : Nat} {vs : List Value} :
    (∃ found, (withJunctions c tree count vs).result = .ok found) ↔
      ∀ v ∈ vs, ∃ part, (Junction.entities c v).result = .ok part := by
  constructor
  · intro hfound v hv
    obtain ⟨found, h⟩ := hfound
    obtain ⟨parts, hparts, -⟩ := withJunctions_eq_ok h
    obtain ⟨part, -, hpart⟩ := Members.forall₂_exists_left hparts hv
    exact ⟨part, hpart⟩
  · intro h
    induction vs generalizing tree count with
    | nil => exact ⟨_, rfl⟩
    | cons v rest ih =>
      obtain ⟨⟨part, hpart⟩, hrest⟩ := List.forall_mem_cons.1 h
      rw [withJunctions, Run.bind_of_ok hpart]
      exact ih hrest

theorem onlyMisuses_withJunctions (c : Config) (tree : Members Key Value) (count : Nat) (vs : List Value) :
    OnlyMisuses (withJunctions c tree count vs).result := by
  induction vs generalizing tree count with
  | nil => exact onlyMisuses_ok
  | cons v rest ih =>
    rw [withJunctions, Run.result_bind]
    exact (Junction.onlyMisuses_entities c v).bind fun part => ih _ _

end

section
variable {all : Bool} {tables : List Key} {entry : String × Value} {defs : Members String Value}

/-- What stands in the tree for an entity, as far as junctions are concerned. -/
def StandsFor (entry : String × Value) (v : Value) : Prop :=
  ∃ d, load (.text entry.1) (.written entry.2) = .ok d ∧ ∃ own relations : Members Key Value, v = .object own ∧
    Members.get? own "relations" = some (.object relations) ∧
      Entity.Reindexed (Entity.relationsFor entry.1 (Entity.declaredLinks d)) relations

theorem StandsFor.junctions_isOk_iff {c : Config} {v : Value} (h : StandsFor entry v) :
    (∃ junctions, (Junction.entities c v).result = .ok junctions) ↔
      ∀ d, load (.text entry.1) (.written entry.2) = .ok d → Entity.ScalarColumns (.text entry.1) d := by
  obtain ⟨d, hload, own, relations, rfl, hrelations, hreindexed⟩ := h
  rw [Entity.junctions_isOk_iff (Definition.fits_of_load hload) hrelations hreindexed]
  constructor
  · intro hscalar d' hload'
    cases hload.symm.trans hload'
    exact hscalar
  · intro hscalar
    exact hscalar d hload

/-- What an entity was compiled to stands for it and has a normal form. -/
theorem standsFor_of_isEntryOf {one : Compiled} {v : Value}
    (hone : (compileEntity (.static all tables) {} (.text entry.1) (.written entry.2)).result = .ok one)
    (h : IsEntryOf (.text entry.1) one v) :
    StandsFor entry v ∧ ∃ members, (normalizeEntity {} (.text entry.1) v).result = .ok members := by
  obtain ⟨d, hload, own, fields, relations, htree, hfields, hobjects, htypes, hrelations, hreindexed⟩ :=
    exists_of_compileEntity hone
  obtain ⟨own₁, own', htree', rfl, hget⟩ := h
  have hown : own₁ = own := by
    have hsame := htree'.symm.trans htree
    injection hsame with hsame
    injection hsame with _ hsame
    injection hsame
  subst hown
  refine ⟨⟨d, hload, own', relations, rfl, ?_, hreindexed⟩, ?_⟩
  · rw [hget _ (by simp), hrelations]
  · exact (normalizeEntity_isOk_iff _ _ (by rw [hget _ (by simp), hfields]) hobjects).2 htypes

/-- The normal form of an entity stands for it as well. -/
theorem StandsFor.normal {c : Config} {v w : Value} (h : StandsFor entry v) (hnormal : IsNormalOf c v w) :
    StandsFor entry w := by
  obtain ⟨d, hload, own, relations, rfl, hrelations, hreindexed⟩ := h
  obtain ⟨-, m, fields, hm, -, rfl⟩ := hnormal
  cases hm
  refine ⟨d, hload, _, relations, rfl, ?_, hreindexed⟩
  rw [Members.get?_set, if_neg (by simp), hrelations]

theorem entities_ofWritten (defs : Members String Value) (m : Metadata) :
    (Snapshot.ofWritten (Members.keyed defs) m).entities = defs.map written := by
  simp only [Snapshot.ofWritten, Members.keyed, List.map_map]
  rfl

theorem distinct_written (hd : Members.Distinct defs) : Members.Distinct (defs.map written) := by
  unfold Members.Distinct Members.keys at hd ⊢
  rw [List.map_map, List.pairwise_map]
  rw [List.pairwise_map] at hd
  refine hd.imp fun {a b} hab => ?_
  rw [← Bool.not_eq_true] at hab ⊢
  intro hsame
  refine hab ?_
  have htext : a.1 = b.1 := (Key.text.inj (Key.text_beq.1 hsame)).symm
  rw [htext, BEq.rfl]

/-- If no entity stops the compilation, each that is not given up is compiled to what stands for it and has a normal form. -/
theorem compileEntities_yields (hd : Members.Distinct defs)
    (hpasses : ∀ entry ∈ defs, Passes (.static all tables) {} (written entry)) :
    Yields (compileEntities (.static all tables) {} [] (defs.map written)).result fun compiled =>
      (∀ out ∈ compiled, ∃ entry ∈ defs, compiles (.static all tables) {} (written entry) = true ∧
        StandsFor entry out.2 ∧ ∃ members, (normalizeEntity {} out.1 out.2).result = .ok members) ∧
      ∀ entry ∈ defs, compiles (.static all tables) {} (written entry) = true → ∃ out ∈ compiled, StandsFor entry out.2 := by
  have hall : ∀ entry ∈ defs.map written, Passes (.static all tables) {} entry := by
    intro entry hentry
    obtain ⟨entry, hmem, rfl⟩ := List.mem_map.1 hentry
    exact hpasses entry hmem
  have hcompiled : ∃ compiled, (compileEntities (.static all tables) {} [] (defs.map written)).result = .ok compiled :=
    compileEntities_isOk_iff.2 hall
  obtain ⟨compiled, hcompiled⟩ := hcompiled
  obtain ⟨added, hadded, hrel⟩ := compileEntities_eq_ok Entity.registry_static (distinct_written hd) (fun _ _ => rfl) hcompiled
  rw [List.nil_append] at hadded
  subst hadded
  refine ⟨compiled, hcompiled, ?_, ?_⟩
  · intro out hout
    obtain ⟨_, hmem, hname, one, hone, hout⟩ := Members.forall₂_exists_right hrel hout
    obtain ⟨hmem, hcompiles⟩ := List.mem_filter.1 hmem
    obtain ⟨entry, hentry, rfl⟩ := List.mem_map.1 hmem
    rw [hname]
    exact ⟨entry, hentry, hcompiles, standsFor_of_isEntryOf hone hout⟩
  · intro entry hentry hcompiles
    have hmem := List.mem_filter.2 ⟨List.mem_map_of_mem (f := written) hentry, hcompiles⟩
    obtain ⟨out, hout, -, one, hone, hentryOf⟩ := Members.forall₂_exists_left hrel hmem
    exact ⟨out, hout, (standsFor_of_isEntryOf hone hentryOf).1⟩

/-- If no entity stops the compilation, then in the tree stand those that are not given up. -/
theorem entityTree_yields (hd : Members.Distinct defs)
    (hpasses : ∀ entry ∈ defs, Passes (.static all tables) {} (written entry)) :
    Yields (entityTree (.static all tables) (.ofWritten (Members.keyed defs) {})).result fun tree =>
      (∀ v ∈ tree.values, ∃ entry ∈ defs, compiles (.static all tables) {} (written entry) = true ∧ StandsFor entry v) ∧
      ∀ entry ∈ defs, compiles (.static all tables) {} (written entry) = true → ∃ v ∈ tree.values, StandsFor entry v := by
  unfold entityTree
  rw [entities_ofWritten, Run.result_bind]
  refine (compileEntities_yields hd hpasses).bind fun compiled hcompiled => ?_
  obtain ⟨hback, hforth⟩ := hcompiled
  have htree : ∃ tree, (normalize {} compiled).result = .ok tree := by
    refine normalize_isOk_iff.2 fun out hout => ?_
    obtain ⟨-, -, -, -, hmembers⟩ := hback out hout
    exact hmembers
  obtain ⟨tree, htree⟩ := htree
  have hnormal := normalize_eq_ok htree
  refine ⟨tree, htree, ?_, ?_⟩
  · intro v hv
    obtain ⟨out', hout', rfl⟩ := List.mem_map.1 hv
    obtain ⟨out, hout, -, hnormal⟩ := Members.forall₂_exists_right hnormal hout'
    obtain ⟨entry, hentry, hcompiles, hstands, -⟩ := hback out hout
    exact ⟨entry, hentry, hcompiles, hstands.normal hnormal⟩
  · intro entry hentry hcompiles
    obtain ⟨out, hout, hstands⟩ := hforth entry hentry hcompiles
    obtain ⟨out', hout', -, hnormal⟩ := Members.forall₂_exists_left hnormal hout
    exact ⟨out'.2, List.mem_map_of_mem hout', hstands.normal hnormal⟩

/-- An entity that is not digested stops the compilation, unless a broken contract has stopped it before. -/
theorem compileEntities_misuses {tree : Members Key Value} {before after : Members String Value}
    (hbefore : ∀ b ∈ before, ¬BreaksContract b) (h : Undigested all tables entry) :
    ∃ cause, (compileEntities (.static all tables) {} tree ((before ++ entry :: after).map written)).result =
      .error (.misused cause) := by
  induction before generalizing tree with
  | nil =>
    obtain ⟨cause, hcause⟩ := compileEntity_of_undigested h
    exact ⟨cause, compileEntities_of_stops hcause rfl⟩
  | cons b rest ih =>
    obtain ⟨hb, hrest⟩ := List.forall_mem_cons.1 hbefore
    rw [List.cons_append, List.map_cons]
    by_cases hundigested : Undigested all tables b
    · obtain ⟨cause, hcause⟩ := compileEntity_of_undigested hundigested
      exact ⟨cause, compileEntities_of_stops hcause rfl⟩
    · have hpasses := passes_of_digested hb hundigested
      cases hone : (compileEntity (.static all tables) {} (written b).1 (written b).2).result with
      | ok one =>
        rw [compileEntities_of_ok hone]
        exact ih hrest
      | error e =>
        rw [compileEntities_of_skips hone (hpasses e hone)]
        exact ih hrest

/-- If no entity stops the compilation, it can only break off when the junctions are made. -/
theorem forall_isConfiguration_iff (hd : Members.Distinct defs)
    (hpasses : ∀ entry ∈ defs, Passes (.static all tables) {} (written entry)) :
    (∀ e, (compile (.static all tables) (.ofWritten (Members.keyed defs) {})).result = .error e → e.isConfiguration = true) ↔
      ∀ entry ∈ defs, compiles (.static all tables) {} (written entry) = true →
        ∀ d, load (.text entry.1) (.written entry.2) = .ok d → Entity.ScalarColumns (.text entry.1) d := by
  obtain ⟨tree, htree, hback, hforth⟩ := entityTree_yields hd hpasses
  rw [result_compile, htree, ok_bind]
  constructor
  · intro h entry hentry hcompiles
    obtain ⟨v, hv, hstands⟩ := hforth entry hentry hcompiles
    rw [← hstands.junctions_isOk_iff (c := (Compiler.static all tables).config)]
    cases hfound : (withJunctions (Compiler.static all tables).config tree 0 tree.values).result with
    | ok found => exact withJunctions_isOk_iff.1 ⟨found, hfound⟩ v hv
    | error e =>
      obtain ⟨cause, rfl⟩ := onlyMisuses_withJunctions _ _ _ _ e hfound
      have hconfiguration := h (.misused cause) (by rw [hfound]; rfl)
      cases hconfiguration
  · intro hscalar e he
    have hjunctions : ∃ found, (withJunctions (Compiler.static all tables).config tree 0 tree.values).result = .ok found := by
      refine withJunctions_isOk_iff.2 fun v hv => ?_
      obtain ⟨entry, hentry, hcompiles, hstands⟩ := hback v hv
      exact hstands.junctions_isOk_iff.2 (hscalar entry hentry hcompiles)
    obtain ⟨found, hfound⟩ := hjunctions
    rw [hfound, ok_bind] at he
    cases hschema : ofTree (.object found.1) with
    | ok schema => rw [hschema] at he; cases he
    | error report => rw [hschema] at he; cases he; rfl

end

/-! ## Isolation -/

/-- A compilation makes a schema or reports that the definitions break a contract. If it makes one, every entity that could not
be compiled has left a message, and the schema is that of the others. -/
structure Isolates (c : Compiler) (s : Snapshot) : Prop where
  result : ∀ e, (compile c s).result = .error e → e.isConfiguration = true
  reported : ∀ schema, (compile c s).result = .ok schema → ∀ entry ∈ s.entities, ∀ e,
    (compileEntity c s.metadata entry.1 entry.2).result = .error e → e.message ∈ (compile c s).diagnostics
  skipped : ∀ schema, (compile c s).result = .ok schema →
    (compile c { s with entities := s.entities.filter (compiles c s.metadata) }).result = .ok schema

/-- Nothing but a broken contract stops the compilation of entities as they are written. -/
structure OnlyBreaksContracts (all : Bool) (tables : List Key) (defs : Members String Value) : Prop where
  digested : ∀ before entry after, defs = before ++ entry :: after → Undigested all tables entry →
    ∃ b ∈ before, BreaksContract b
  joined : (∀ entry ∈ defs, ¬BreaksContract entry) →
    ∀ entry ∈ defs, compiles (.static all tables) {} (written entry) = true →
      ∀ d, load (.text entry.1) (.written entry.2) = .ok d → Entity.ScalarColumns (.text entry.1) d

section
variable {c : Compiler} {s : Snapshot} {schema : Schema} {e : Error}

theorem passes_of_compile (h : (compile c s).result = .ok schema) : ∀ entry ∈ s.entities, Passes c s.metadata entry := by
  obtain ⟨tree, -, htree, -⟩ := compile_eq_ok.1 h
  obtain ⟨compiled, hcompiled, -⟩ := Run.result_bind_eq_ok.1 htree
  exact compileEntities_isOk_iff.1 ⟨compiled, hcompiled⟩

theorem compile_of_stops (h : (compileEntities c s.metadata [] s.entities).result = .error e) :
    (compile c s).result = .error e := by
  rw [result_compile, entityTree, Run.result_bind, h]
  rfl

/-- Every entity that is given up on the way to a schema leaves a message. -/
theorem mem_diagnostics_compile (h : (compile c s).result = .ok schema) {entry : Key × Declared} (hentry : entry ∈ s.entities)
    (he : (compileEntity c s.metadata entry.1 entry.2).result = .error e) : e.message ∈ (compile c s).diagnostics := by
  have hmessage : e.message ∈ (compileEntities c s.metadata [] s.entities).diagnostics :=
    mem_diagnostics_compileEntities (passes_of_compile h) hentry he
  unfold compile compileTree
  exact Run.mem_diagnostics_bind_left (Run.mem_diagnostics_bind_left hmessage)

/-- The schema is that of the entities that are not given up. -/
theorem compile_filter (h : (compile c s).result = .ok schema) :
    (compile c { s with entities := s.entities.filter (compiles c s.metadata) }).result = .ok schema := by
  rw [← h, result_compile, result_compile, entityTree, entityTree, Run.result_bind, Run.result_bind]
  simp only [compileEntities_filter (passes_of_compile h)]

end

theorem skips_of_isConfiguration {e : Error} (h : e.isConfiguration = true) : e.skips = false := by
  cases e <;> first | rfl | cases h

section
variable {all : Bool} {tables : List Key} {defs : Members String Value}

theorem not_passes_of_broken {entry : String × Value} (h : BreaksContract entry) :
    ¬Passes (.static all tables) {} (written entry) := by
  intro hpasses
  obtain ⟨e, he, hconfiguration⟩ := compileEntity_of_broken all tables h
  have hskips := hpasses e he
  rw [skips_of_isConfiguration hconfiguration] at hskips
  cases hskips

/-- The first entity that stops the compilation breaks its contract. -/
theorem OnlyBreaksContracts.isConfiguration (h : OnlyBreaksContracts all tables defs) {e : Error}
    (he : (compileEntities (.static all tables) {} [] (defs.map written)).result = .error e) : e.isConfiguration = true := by
  obtain ⟨before, entry, after, hdefs, hbefore, hentry, hskips⟩ := exists_of_compileEntities_eq_error he
  obtain ⟨before, rest, rfl, rfl, hrest⟩ := List.map_eq_append_iff.1 hdefs
  obtain ⟨entry, after, rfl, rfl, rfl⟩ := List.map_eq_cons_iff.1 hrest
  by_cases hbroken : BreaksContract entry
  · obtain ⟨e', he', hconfiguration⟩ := compileEntity_of_broken all tables hbroken
    cases he'.symm.trans hentry
    exact hconfiguration
  · by_cases hundigested : Undigested all tables entry
    · obtain ⟨b, hb, hbroken⟩ := h.digested before entry after rfl hundigested
      have hpasses : Passes (.static all tables) {} (written b) := hbefore _ (List.mem_map_of_mem hb)
      exact absurd hpasses (not_passes_of_broken hbroken)
    · have hgivenUp := passes_of_digested hbroken hundigested e hentry
      rw [hskips] at hgivenUp
      cases hgivenUp

theorem compile_ofWritten_of_stops {e : Error}
    (he : (compileEntities (.static all tables) {} [] (defs.map written)).result = .error e) :
    (compile (.static all tables) (.ofWritten (Members.keyed defs) {})).result = .error e := by
  refine compile_of_stops ?_
  rw [entities_ofWritten]
  exact he

/-- Entities are compiled in isolation exactly if nothing but a broken contract stops their compilation. -/
theorem isolates_iff (hd : Members.Distinct defs) :
    Isolates (.static all tables) (.ofWritten (Members.keyed defs) {}) ↔ OnlyBreaksContracts all tables defs := by
  constructor
  · intro h
    have hdigested : ∀ before entry after, defs = before ++ entry :: after → Undigested all tables entry →
        ∃ b ∈ before, BreaksContract b := by
      intro before entry after hdefs hundigested
      subst hdefs
      by_contra hnone
      have hbefore : ∀ b ∈ before, ¬BreaksContract b := fun b hb hbroken => hnone ⟨b, hb, hbroken⟩
      obtain ⟨cause, hcause⟩ := compileEntities_misuses hbefore hundigested
      have hconfiguration := h.result _ (compile_ofWritten_of_stops hcause)
      cases hconfiguration
    refine ⟨hdigested, fun hkeeps => ?_⟩
    have hpasses : ∀ entry ∈ defs, Passes (.static all tables) {} (written entry) := by
      intro entry hentry
      refine passes_of_digested (hkeeps entry hentry) fun hundigested => ?_
      obtain ⟨before, after, rfl⟩ := List.append_of_mem hentry
      obtain ⟨b, hb, hbroken⟩ := hdigested before entry after rfl hundigested
      exact hkeeps b (List.mem_append_left _ hb) hbroken
    exact (forall_isConfiguration_iff hd hpasses).1 h.result
  · intro h
    refine ⟨fun e he => ?_, fun schema hschema entry hentry e he => mem_diagnostics_compile hschema hentry he,
      fun schema hschema => compile_filter hschema⟩
    cases hcompiled : (compileEntities (.static all tables) {} [] (defs.map written)).result with
    | error e' =>
      cases (compile_ofWritten_of_stops hcompiled).symm.trans he
      exact h.isConfiguration hcompiled
    | ok compiled =>
      have hpasses : ∀ entry ∈ defs, Passes (.static all tables) {} (written entry) := fun entry hentry =>
        compileEntities_isOk_iff.1 ⟨compiled, hcompiled⟩ (written entry) (List.mem_map_of_mem hentry)
      have hkeeps : ∀ entry ∈ defs, ¬BreaksContract entry := fun entry hentry hbroken =>
        not_passes_of_broken hbroken (hpasses entry hentry)
      exact (forall_isConfiguration_iff hd hpasses).2 (h.joined hkeeps) e he

end

/-! ## A failure that is not isolated -/

/-- An entity with an index whose flags are a number. -/
def numberedFlags : Members String Value :=
  [("Account", .object [
    ("fields", .object [("name", .object [("type", .str FieldKind.varchar.word)])]),
    ("indexes", .object [("byName", .object [("columns", .list [.str "name"]), ("flags", .int 5)])])])]

theorem isolates_iff_numberedFlags :
    Members.Distinct numberedFlags ∧
      (Isolates (.static false []) (.ofWritten (Members.keyed numberedFlags) {}) ↔ OnlyBreaksContracts false [] numberedFlags) :=
  ⟨Members.distinct_singleton _ _, isolates_iff (Members.distinct_singleton _ _)⟩

/-- Such flags cannot be searched for the kind of the index, and the compilation breaks off. -/
theorem not_isolates_numberedFlags : ¬Isolates (.static false []) (.ofWritten (Members.keyed numberedFlags) {}) := by
  intro h
  have hresult : (match (compile (.static false []) (.ofWritten (Members.keyed numberedFlags) {})).result with
      | .ok _ => true
      | .error e => e.isConfiguration) = false := by
    decide +kernel
  split at hresult
  · cases hresult
  · rename_i e he
    rw [h.result e he] at hresult
    cases hresult

end EntitySchema.Schema
