import EntitySchema.Error

/-!
# Runs with a journal

A stage of the compiler gives a result or an error, and in either case the journal of what it noted on the way.

Results:
* `result_bind`: the results of a run do not depend on journals.
* `result_bind_eq_ok`: a run of two steps gives a result exactly if both do.
* `journal_bind`: journals of successive steps are joined.
-/
namespace EntitySchema

/-- Who notes an entry. -/
inductive Channel where
  | fields
  | relations
  | fullText
  | schema
deriving DecidableEq, Repr

inductive Entry where
  /-- A detail of the work. -/
  | debug (channel : Channel) (text : String)
  /-- The outcome of the work. -/
  | info (channel : Channel) (text : String)
  /-- An entity that was given up. -/
  | critical (text : String)
deriving DecidableEq, Repr

/-- What a diagnostics sink receives of an entry.
mirrors src/entityforge/sources/diagnostics:11-15 (`DiagnosticsSink`) -/
def Entry.diagnostic? : Entry → Option String
  | critical text => some text
  | _ => none

/-- A result or an error, with the entries noted on the way. -/
structure Run (α : Type) where
  journal : List Entry
  result : Except Error α

namespace Run

variable {α β : Type}

def bind (x : Run α) (f : α → Run β) : Run β :=
  match x.result with
  | .ok a =>
    let next := f a
    ⟨x.journal ++ next.journal, next.result⟩
  | .error e => ⟨x.journal, .error e⟩

instance : Monad Run where
  pure a := ⟨[], .ok a⟩
  bind := bind

/-- A run that notes one entry. -/
def note (entry : Entry) : Run Unit :=
  ⟨[entry], .ok ()⟩

def ofExcept (x : Except Error α) : Run α :=
  ⟨[], x⟩

/-- A run that stops with an error. -/
def fail (e : Error) : Run α :=
  ⟨[], .error e⟩

/-- The result, or nothing with a message for the diagnostics if the error concerns one entity only.
mirrors src/entityforge/compiler/schema:87-89 (`SchemaCompiler.compile`) -/
def orGiveUp (x : Run α) : Run (Option α) :=
  match x.result with
  | .ok a => ⟨x.journal, .ok (some a)⟩
  | .error e => if e.skips then ⟨x.journal ++ [.critical e.message], .ok none⟩ else ⟨x.journal, .error e⟩

instance : MonadLift (Except Error) Run := ⟨ofExcept⟩

instance : MonadLift (Except Misuse) Run := ⟨fun x => ofExcept (liftM x)⟩

/-- The messages for the diagnostics sink, in order.
mirrors src/entityforge/sources/diagnostics:28-35 (`CollectingDiagnostics`) -/
def diagnostics (x : Run α) : List String :=
  x.journal.filterMap Entry.diagnostic?

@[simp] theorem result_pure (a : α) : (pure a : Run α).result = .ok a := rfl

@[simp] theorem journal_pure (a : α) : (pure a : Run α).journal = [] := rfl

@[simp] theorem result_bind (x : Run α) (f : α → Run β) :
    (x >>= f).result = x.result >>= fun a => (f a).result := by
  show (Run.bind x f).result = _
  unfold Run.bind
  cases x.result <;> rfl

/-- A run of two steps gives a result exactly if both do. -/
theorem result_bind_eq_ok {x : Run α} {f : α → Run β} {b : β} :
    (x >>= f).result = .ok b ↔ ∃ a, x.result = .ok a ∧ (f a).result = .ok b := by
  rw [result_bind]
  cases x.result with
  | error e => exact ⟨fun h => (nomatch h), fun ⟨_, h, _⟩ => (nomatch h)⟩
  | ok a => exact ⟨fun h => ⟨a, rfl, h⟩, fun ⟨_, ha, h⟩ => by cases ha; exact h⟩

theorem journal_bind (x : Run α) (f : α → Run β) :
    (x >>= f).journal =
      x.journal ++ match x.result with
        | .ok a => (f a).journal
        | .error _ => [] := by
  show (Run.bind x f).journal = _
  unfold Run.bind
  cases x.result <;> simp

@[simp] theorem result_note (entry : Entry) : (note entry).result = .ok () := rfl

@[simp] theorem result_fail (e : Error) : (fail e : Run α).result = .error e := rfl

@[simp] theorem result_ofExcept (x : Except Error α) : (ofExcept x).result = x := rfl

end Run

end EntitySchema
