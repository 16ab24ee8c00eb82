import EntitySchema.Proofs.Schema.Isolation
import EntitySchema.Proofs.Silence

/-!
# Entities that are left out

An entity that cannot be read, that compiles to a wrong shape or about whose table the storage gives no answer is given up with
one message. That is all it does: without it the others compile to the same schema, and there is no message left.

* `message?`: the message of an entity that is given up.
* `withoutGivenUp`: the snapshot of the others.

Results:
* `exists_error_of_message?`: why entities are given up.
* `diagnostics_compile`: the messages of a compilation, in the order of the entities.
* `compile_withoutGivenUp`: giving entities up is the same as taking them out.
-/
namespace EntitySchema.Schema

/-- The message that an entity leaves if it is given up; nothing if it is compiled or stops the compilation. -/
def message? (c : Compiler) (m : Metadata) (entry : Key × Declared) : Option String :=
  match (compileEntity c m entry.1 entry.2).result with
  | .ok _ => none
  | .error e => if e.skips then some e.message else none

/-- The snapshot without the entities that are given up. -/
def withoutGivenUp (c : Compiler) (s : Snapshot) : Snapshot :=
  { s with entities := s.entities.filter fun entry => (message? c s.metadata entry).isNone }

variable {c : Compiler} {m : Metadata} {s : Snapshot} {schema : Schema} {tree : Members Key Value}
  {entities : List (Key × Declared)} {entry : Key × Declared} {e : Error}

/-! ## Why entities are given up -/

theorem message?_of_ok {one : Compiled} (h : (compileEntity c m entry.1 entry.2).result = .ok one) :
    message? c m entry = none := by
  rw [message?, h]

theorem message?_of_skips (h : (compileEntity c m entry.1 entry.2).result = .error e) (he : e.skips = true) :
    message? c m entry = some e.message := by
  simp only [message?, h, he, if_true]

/-- An entity is given up because it cannot be read, because the storage has no answer for its table, or because it compiles to
a wrong shape; its message is that of the error. -/
theorem exists_error_of_message? {text : String} (h : message? c m entry = some text) :
    ∃ e, (compileEntity c m entry.1 entry.2).result = .error e ∧ text = e.message ∧
      (load entry.1 entry.2 = .error e ∨
        (∃ name, entry.1 = .text name ∧ c.probe.ask (.text (Naming.underscored name)) = .error e) ∨
        ∃ compiled, (checkEntity c.config entry.1 compiled).result = .error e) := by
  cases hone : (compileEntity c m entry.1 entry.2).result with
  | ok one => rw [message?_of_ok hone] at h; cases h
  | error e =>
    simp only [message?, hone] at h
    split at h
    · rename_i hskips
      refine ⟨e, rfl, (Option.some.inj h).symm, ?_⟩
      rcases exists_of_compileEntity_eq_error hone with hload | ⟨d, -, hcause | hcheck⟩
      · exact .inl hload
      · cases hcause with
        | misused cause => cases hskips
        | link hlinks hlink hkind =>
          rw [skips_of_isConfiguration (Link.isConfiguration_of_kind? hkind)] at hskips
          cases hskips
        | probe hname hask => exact .inr (.inl ⟨_, hname, hask⟩)
      · exact .inr (.inr hcheck)
    · cases h

/-- Of the entities that pass, those that are compiled leave no message. -/
theorem compiles_eq_isNone (h : Passes c m entry) : compiles c m entry = (message? c m entry).isNone := by
  cases hone : (compileEntity c m entry.1 entry.2).result with
  | ok one => rw [compiles, hone, message?_of_ok hone]; rfl
  | error e => rw [compiles, hone, message?_of_skips hone (h e hone)]; rfl

/-! ## Messages -/

/-- Every entity that is given up leaves one message, in the order of the entities. -/
theorem diagnostics_compileEntities (h : ∀ entry ∈ entities, Passes c m entry) :
    (compileEntities c m tree entities).diagnostics = entities.filterMap (message? c m) := by
  induction entities generalizing tree with
  | nil => rfl
  | cons first rest ih =>
    obtain ⟨hfirst, hrest⟩ := List.forall_mem_cons.1 h
    obtain ⟨entity, declared⟩ := first
    have hsilent : (compileEntity c m entity declared).Silent := silent_compileEntity c m entity declared
    rw [compileEntities]
    cases hone : (compileEntity c m entity declared).result with
    | ok one =>
      rw [List.filterMap_cons_none (message?_of_ok hone), Run.diagnostics_bind_of_ok (Run.orGiveUp_eq_ok_some.2 hone),
        Run.diagnostics_orGiveUp hsilent, hone]
      exact ih hrest
    | error e =>
      have hskips : e.skips = true := hfirst e hone
      rw [List.filterMap_cons_some (message?_of_skips hone hskips),
        Run.diagnostics_bind_of_ok (Run.orGiveUp_eq_ok_none.2 ⟨e, hone, hskips⟩), Run.diagnostics_orGiveUp hsilent, hone]
      simp only [hskips, if_true, List.singleton_append]
      exact congrArg _ (ih hrest)

/-- The stages after the entities leave no message. -/
theorem diagnostics_compile (h : (compile c s).result = .ok schema) :
    (compile c s).diagnostics = s.entities.filterMap (message? c s.metadata) := by
  have htree : (compileTree c s).diagnostics = (compileEntities c s.metadata [] s.entities).diagnostics := by
    unfold compileTree
    exact Run.diagnostics_bind_of_silent fun compiled => (silent_normalize _ _).bind fun normal =>
      (silent_withJunctions _ _ _ _).bind fun found => (Run.silent_info _ _).bind fun _ => Run.silent_pure _
  have hschema : (compile c s).diagnostics = (compileTree c s).diagnostics := by
    unfold compile
    refine Run.diagnostics_bind_of_silent fun tree => ?_
    split
    · exact Run.silent_pure _
    · exact Run.silent_fail _
  rw [hschema, htree, diagnostics_compileEntities (passes_of_compile h)]

/-- Without the entities that are given up the compilation makes the same schema and leaves no message; with them it leaves the
message of each, in their order. -/
theorem compile_withoutGivenUp (h : (compile c s).result = .ok schema) :
    (compile c (withoutGivenUp c s)).result = .ok schema ∧ (compile c (withoutGivenUp c s)).diagnostics = [] ∧
      (compile c s).diagnostics = s.entities.filterMap (message? c s.metadata) := by
  have hothers : withoutGivenUp c s = { s with entities := s.entities.filter (compiles c s.metadata) } := by
    unfold withoutGivenUp
    congr 1
    refine List.filter_congr fun entry hentry => ?_
    exact (compiles_eq_isNone (passes_of_compile h entry hentry)).symm
  have hsame : (compile c (withoutGivenUp c s)).result = .ok schema := by
    rw [hothers]
    exact compile_filter h
  refine ⟨hsame, ?_, diagnostics_compile h⟩
  rw [diagnostics_compile hsame, List.filterMap_eq_nil_iff]
  intro entry hentry
  exact Option.isNone_iff_eq_none.1 (List.mem_filter.1 hentry).2

/-- A storage that knows nothing of contacts, with a processor of its own. -/
def withoutContacts : Compiler :=
  { probe := Probe.always.failing (.object [("contact", .str "timeout")])
    registry := .ofCustom [("personName", .fixed {})] true }

/-- An entity, one that cannot be read, one of a wrong shape and one that cannot be searched. -/
def threeGivenUp : Snapshot :=
  .ofWritten [
    ("Empty", .null),
    ("Account", .object [("fields", .object [("owner", .object [("type", .str "personName")])])]),
    ("Odd", .object [("indexes", .object [("byName", .object [("columns", .int 5)])])]),
    ("Contact", .object [("collection", .object [("fullTextSearch", .bool true)])])] {}

theorem compile_withoutGivenUp_three :
    (withoutGivenUp withoutContacts threeGivenUp).entities.keys = ["Account"] ∧
    ∃ schema, (compile withoutContacts threeGivenUp).result = .ok schema ∧
      (compile withoutContacts (withoutGivenUp withoutContacts threeGivenUp)).result = .ok schema ∧
      (compile withoutContacts (withoutGivenUp withoutContacts threeGivenUp)).diagnostics = [] ∧
      (compile withoutContacts threeGivenUp).diagnostics =
        threeGivenUp.entities.filterMap (message? withoutContacts threeGivenUp.metadata) := by
  have hothers : (withoutGivenUp withoutContacts threeGivenUp).entities.keys = ["Account"] := by decide +kernel
  have hgives : gives (compile withoutContacts threeGivenUp).result (fun _ => true) = true := by decide +kernel
  obtain ⟨schema, hschema, -⟩ := gives_iff.1 hgives
  exact ⟨hothers, schema, hschema, compile_withoutGivenUp hschema⟩

end EntitySchema.Schema
