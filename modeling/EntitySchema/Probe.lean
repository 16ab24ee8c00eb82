import EntitySchema.Error
import EntitySchema.Value.Access

/-!
# Storage probes

The compiler asks one question of a storage: may a table carry a full-text index? A `Probe` answers it or says why it cannot.

* `Unanswered`: why a storage does not say.
* `Probe.always`, `Probe.never`, `Probe.fixed`: answers that are known beforehand.
* `Probe.failing`: a probe that fails for some tables.
* `Probe.ask`: the answer, or an error; a failure gives up one entity.
-/
namespace EntitySchema

/-- Why a storage gives no answer. -/
inductive Unanswered where
  /-- It failed for a reason. -/
  | failed (reason : Value)
  /-- What is known of it has no meaning. -/
  | misused (cause : Misuse)

instance : MonadLift (Except Misuse) (Except Unanswered) where
  monadLift
    | .ok a => .ok a
    | .error cause => .error (.misused cause)

/-- Whether a table may carry a full-text index, or why the storage does not say.
mirrors src/entityforge/storage/capabilities:30-34 (`CapabilityProbe`) -/
structure Probe where
  supportsFullText : Key → Except Unanswered Bool

namespace Probe

/-- Every table may if `all` says so, else only the listed ones.
mirrors src/entityforge/storage/capabilities:37-49 (`StaticCapabilityProbe`) -/
def fixed (all : Bool) (tables : List Key) : Probe :=
  ⟨fun table => .ok (all || tables.contains table)⟩

/-- Every table may. -/
def always : Probe := fixed true []

/-- No table may. -/
def never : Probe := fixed false []

/-- The same probe, except that it fails for the tables that have a reason. -/
def failing (p : Probe) (reasons : Value) : Probe :=
  ⟨fun table => do
    if ← reasons.holds (.ofKey table) then throw (.failed (← reasons.item table)) else p.supportsFullText table⟩

/-- Asks about a table. -/
def ask (p : Probe) (table : Key) : Except Error Bool :=
  match p.supportsFullText table with
  | .ok answer => .ok answer
  | .error (.failed reason) => .error (.unprobed (.ofKey table) reason)
  | .error (.misused cause) => .error (.misused cause)

theorem ask_fixed (all : Bool) (tables : List Key) (table : Key) :
    (fixed all tables).ask table = .ok (all || tables.contains table) := rfl

end Probe

instance : Inhabited Probe := ⟨.never⟩

end EntitySchema
