import EntitySchema.Probe
import EntitySchema.Text.Case
import EntitySchema.Value.Order

/-!
# Asking a database server

Which tables of a server may carry a full-text index depends on the storage engine of the table and on the release of the
server. A table that does not exist yet will get the default engine.

* `engineSupportsFullText`: the rule for engines and releases.
* `Server.supportsFullText`: the answer for a table, with the queries that were made.

Results:
* `supportsFullText_of_not_family`: other servers are not asked.
-/
namespace EntitySchema

/-- The first releases in which the transactional engine has full-text indexes.
mirrors src/entityforge/storage/capabilities:25-27 -/
def firstRelease (isMariaDb : Bool) : List Int :=
  if isMariaDb then [10, 0, 5] else [5, 6, 4]

/-- Whether a release is not before another one; a release that is only the beginning of another comes before it. -/
def reaches (version : List Value) (first : List Int) : Except Misuse Bool :=
  match Value.atMostAll? (first.map Value.int) version with
  | some answer => .ok answer
  | none => .error .badOperand

/-- Whether an engine of a server may have full-text indexes.
mirrors src/entityforge/storage/capabilities:52-70 (`engine_supports_full_text`) -/
def engineSupportsFullText (engine : Option String) (version : List Value) (isMariaDb : Bool) : Except Misuse Bool :=
  match engine with
  | none => .ok false
  | some name =>
    let name := Text.lower name
    if name = "myisam" then .ok true
    else if name = "innodb" then reaches (version.take 3) (firstRelease isMariaDb)
    else .ok false

/-- What a server can be asked. -/
inductive Query where
  /-- The engine of a table. -/
  | engineOf (table : Key)
  /-- The engine of new tables. -/
  | defaultEngine

/-- A server: its family, its release and its answers to queries, each an engine, nothing, or why there is none.
mirrors src/entityforge/storage/capabilities:73-119 (`SqlAlchemyCapabilityProbe`) -/
structure Server where
  dialect : String
  version : List Value
  isMariaDb : Bool
  answer : Query → Except Unanswered (Option String)

namespace Server

/-- The families that have full-text indexes at all.
mirrors src/entityforge/storage/capabilities:80 (`SqlAlchemyCapabilityProbe.FULLTEXT_DIALECTS`) -/
def families : List String := ["mysql", "mariadb"]

/-- The engine that a table has or will get, with the queries that were made.
mirrors src/entityforge/storage/capabilities:101-113 (`SqlAlchemyCapabilityProbe.supports_full_text`) -/
def engineOf (s : Server) (table : Key) : List Query × Except Unanswered (Option String) :=
  match s.answer (.engineOf table) with
  | .ok none => ([.engineOf table, .defaultEngine], s.answer .defaultEngine)
  | found => ([.engineOf table], found)

/-- Whether a table may carry a full-text index, with the queries that were made.
mirrors src/entityforge/storage/capabilities:96-119 (`SqlAlchemyCapabilityProbe.supports_full_text`) -/
def supportsFullText (s : Server) (table : Key) : List Query × Except Unanswered Bool :=
  if families.contains s.dialect then
    let (asked, engine) := s.engineOf table
    (asked, do engineSupportsFullText (← engine) s.version s.isMariaDb)
  else ([], .ok false)

/-- The probe that asks a server. -/
def probe (s : Server) : Probe :=
  ⟨fun table => (s.supportsFullText table).2⟩

theorem supportsFullText_of_not_family {s : Server} (h : s.dialect ∉ families) (table : Key) :
    s.supportsFullText table = ([], .ok false) := by
  have : families.contains s.dialect = false := by simpa using h
  rw [supportsFullText, this]; rfl

end Server

end EntitySchema
