import EntitySchema.Proofs.Field.Total
import EntitySchema.Schema.Compile

/-!
# Why an entity is not compiled

Once the definition of an entity is read, three things can go wrong while it is compiled, whatever the metadata, the storage and
the processors are: a link breaks its contract, the storage cannot be asked, or a value is misused. Then its shape may be wrong.

* `Cause`: the errors of an entity that was read.

Results:
* `failsBy_compile`: an entity that was read is compiled, or there is a cause.
* `Schema.exists_of_compileEntity_eq_error`: an entity is not read, not compiled, or of a wrong shape.
-/
namespace EntitySchema

/-! ## Errors of an entity -/

namespace Entity

/-- What goes wrong while an entity is compiled. -/
inductive Cause (c : Compiler) (m : Metadata) (entity : Key) (d : Definition) : Error → Prop where
  /-- A value is misused. -/
  | misused (cause : Misuse) : Cause c m entity d (.misused cause)
  /-- One of its links breaks its contract. -/
  | link {all : Members String Params} {link : String × Params} {e : Error} (hlinks : links m d = .ok all) (hlink : link ∈ all)
      (h : Link.kind? m (.ofKey entity) (.str link.1) link.2 = .error e) : Cause c m entity d e
  /-- The storage has no answer for its table. -/
  | probe {name : String} {e : Error} (hname : entity = .text name)
      (h : c.probe.ask (.text (Naming.underscored name)) = .error e) : Cause c m entity d e

variable {c : Compiler} {m : Metadata} {entity : Key} {d : Definition} {all : Members String Params}

theorem failsBy_misuse {α : Type} {x : Except Misuse α} : FailsBy (Cause c m entity d) (liftM x : Except Error α) :=
  failsBy_lift Cause.misused

theorem failsBy_fields (hlinks : links m d = .ok all) :
    FailsBy (Cause c m entity d) (fields c.config m entity d all) := by
  have himplied : FailsBy (Cause c m entity d) (impliedFields c.config m entity all) := by
    refine failsBy_foldlM (fun acc link hlink => ?_) []
    refine FailsBy.bind (FailsBy.map fun e he => ?_) fun _ _ => failsBy_ok
    exact .link hlinks hlink he
  refine himplied.bind fun implied _ => FailsBy.bind ?_ fun _ _ => failsBy_ok
  exact failsBy_foldlM (fun _ _ _ => failsBy_misuse.bind fun _ _ => failsBy_ok) implied

theorem failsBy_resolveAll {declared : List (String × Params)} {fields : Members String Params} :
    FailsBy (Cause c m entity d) (resolveAll c.config m fields declared).result := by
  induction declared generalizing fields with
  | nil => exact failsBy_ok
  | cons field rest ih =>
    obtain ⟨name, params⟩ := field
    rw [resolveAll]
    split
    · refine Run.failsBy_bind failsBy_misuse fun t _ => Run.failsBy_bind ?_ fun resolved _ => ?_
      · unfold Field.resolve
        simp only
        split
        · exact failsBy_ok
        · exact Run.failsBy_bind failsBy_misuse fun _ _ => failsBy_ok
      · cases resolved with
        | some resolved => exact ih
        | none => exact ih
    · exact ih

theorem failsBy_relate (hlinks : links m d = .ok all) {schema : Members Key Value} :
    FailsBy (Cause c m entity d) (relate m entity all schema).result := by
  refine Run.failsBy_foldlM (fun acc link hlink => ?_) schema
  refine Run.failsBy_bind failsBy_misuse fun compiled _ => Run.failsBy_bind ?_ fun _ _ => failsBy_ok
  unfold Link.resolve
  refine Run.failsBy_bind (fun e he => .link hlinks hlink he) fun kind _ => ?_
  cases kind with
  | none => exact failsBy_ok
  | some kind =>
    exact Run.failsBy_bind failsBy_misuse fun _ _ => Run.failsBy_bind failsBy_misuse fun _ _ =>
      Run.failsBy_bind failsBy_misuse fun _ _ => Run.failsBy_bind failsBy_misuse fun _ _ =>
        Run.failsBy_bind failsBy_misuse fun _ _ => failsBy_ok

theorem failsBy_search {schema : Members Key Value} :
    FailsBy (Cause c m entity d) (search c m entity d schema).result := by
  refine Run.failsBy_bind ?_ fun _ _ => failsBy_ok
  unfold FullText.fragment
  split
  · exact failsBy_ok
  · refine Run.failsBy_bind failsBy_misuse fun name hname => Run.failsBy_bind (fun e he => ?_) fun supported _ => ?_
    · have hentity : entity = .text name := by
        cases entity with
        | text s => cases Run.lift_eq_ok.1 hname; rfl
        | _ => cases Run.lift_eq_ok.1 hname
      exact .probe hentity he
    · split
      · exact failsBy_ok
      · simp only
        split
        · exact failsBy_ok
        · exact failsBy_ok

/-- An entity that was read is compiled, or a value is misused, a link breaks its contract, or the storage has no answer. -/
theorem failsBy_compile : FailsBy (Cause c m entity d) (compile c m entity d).result := by
  unfold compile
  refine Run.failsBy_bind failsBy_misuse fun all hall => ?_
  have hlinks : links m d = .ok all := Run.lift_eq_ok.1 hall
  refine Run.failsBy_bind (failsBy_fields hlinks) fun declared _ => Run.failsBy_bind failsBy_resolveAll fun compiled _ => ?_
  refine Run.failsBy_bind failsBy_misuse fun _ _ => Run.failsBy_bind (failsBy_relate hlinks) fun _ _ => ?_
  exact Run.failsBy_bind failsBy_search fun _ _ => Run.failsBy_bind failsBy_misuse fun _ _ => failsBy_misuse

end Entity

/-! ## The way to the tree -/

namespace Schema

variable {c : Compiler} {m : Metadata} {entity : Key} {declared : Declared} {e : Error}

theorem onlyMisuses_normalizeEntity (c : Config) (entity : Key) (compiled : Value) :
    OnlyMisuses (normalizeEntity c entity compiled).result := by
  unfold normalizeEntity
  simp only [Run.result_bind]
  refine onlyMisuses_lift.bind fun members => onlyMisuses_lift.bind fun given => ?_
  exact (Field.onlyMisuses_normalizeAll c entity given).bind fun _ => onlyMisuses_ok

/-- What an entity compiles to has its shape, a value is misused, or the entity counts as malformed. -/
theorem failsBy_checkEntity (c : Config) (entity : Key) (compiled : Value) :
    FailsBy (fun e => (∃ cause, e = .misused cause) ∨ ∃ reason, e = .malformed (.ofKey entity) reason)
      (checkEntity c entity compiled).result := by
  unfold checkEntity
  refine Run.failsBy_bind (fun e he => ?_) fun members _ => ?_
  · exact .inl (onlyMisuses_normalizeEntity c entity compiled e he)
  · split
    · exact failsBy_ok
    · intro e he
      cases he
      exact .inr ⟨_, rfl⟩

/-- A definition that cannot be read counts as malformed. -/
theorem malformed_of_load (h : load entity declared = .error e) : ∃ reason, e = .malformed (.ofKey entity) reason := by
  unfold load at h
  split at h
  · cases h
  · split at h
    · split at h
      · cases h
      · cases h; exact ⟨_, rfl⟩
    · cases h; exact ⟨_, rfl⟩

theorem result_compileEntity {d : Definition} (hload : load entity declared = .ok d) :
    (compileEntity c m entity declared).result = (Entity.compile c m entity d).result >>= fun tree =>
      (checkEntity c.config entity (if (tree.value entity).truthy then tree.value entity else .object [])).result >>= fun _ =>
        .ok { skipsRebuild := d.skipsRebuild, tree } := by
  unfold compileEntity
  rw [Run.bind_of_ok (a := d) hload]
  simp only [Run.result_bind]
  rfl

/-- What an entity compiles to stands in its tree, and is not empty. -/
theorem own_of_singleton {own : Members Key Value} {v : Value} (hfields : Members.get? own "fields" = some v) :
    (if (Members.value [(entity, Value.object own)] entity).truthy then Members.value [(entity, .object own)] entity
      else .object []) = .object own := by
  have hown : Members.value [(entity, Value.object own)] entity = .object own :=
    Members.value_of_get? (Members.get?_singleton _ _)
  have htruthy : (Value.object own).truthy = true := by
    cases own with
    | nil => cases hfields
    | cons => rfl
  rw [hown, if_pos htruthy]

theorem result_compileEntity_of_error (hload : load entity declared = .error e) :
    (compileEntity c m entity declared).result = .error e := by
  unfold compileEntity
  rw [Run.result_bind, hload]
  rfl

/-- An entity is not read, not compiled, or of a wrong shape. -/
theorem exists_of_compileEntity_eq_error (h : (compileEntity c m entity declared).result = .error e) :
    load entity declared = .error e ∨ ∃ d, load entity declared = .ok d ∧
      (Entity.Cause c m entity d e ∨ ∃ compiled, (checkEntity c.config entity compiled).result = .error e) := by
  cases hload : load entity declared with
  | error e' =>
    rw [result_compileEntity_of_error hload] at h
    cases h
    exact .inl rfl
  | ok d =>
    rw [result_compileEntity hload] at h
    refine .inr ⟨d, rfl, ?_⟩
    cases hcompile : (Entity.compile c m entity d).result with
    | error e' =>
      rw [hcompile] at h
      cases h
      exact .inl (Entity.failsBy_compile e hcompile)
    | ok tree =>
      rw [hcompile, ok_bind] at h
      generalize (if (tree.value entity).truthy then tree.value entity else .object []) = compiled at h
      refine .inr ⟨compiled, ?_⟩
      cases hcheck : (checkEntity c.config entity compiled).result with
      | error e' =>
        rw [hcheck] at h
        cases h
        rfl
      | ok =>
        rw [hcheck] at h
        cases h

end Schema

end EntitySchema
