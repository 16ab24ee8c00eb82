import EntitySchema.Tree.Merge
import EntitySchema.Value.Access

/-!
# Paths as they are written

A path is written as one text with dots, or step by step. Steps that are no keys do not matter as long as the steps before
them lead nowhere.

* `WrittenPath.listed`: the paths that a value lists.
* `Members.unsetWritten`, `Members.unsetListed`: takes away what stands at one written path, or at several.

Results:
* `unsetWritten_keys`: of steps that are keys, what stands at the path of these keys is taken away.
-/
namespace EntitySchema

inductive WrittenPath where
  /-- With a dot between the keys. -/
  | dotted (text : String)
  /-- Step by step. -/
  | steps (values : List Value)

namespace WrittenPath

/-- Reads a path from a text or from something with parts.
mirrors src/entityforge/core/merge:64-67 (`_split`) -/
def ofValue : Value → Except Misuse WrittenPath
  | .str text => .ok (dotted text)
  | v => v.parts.map steps

/-- The paths that a value lists. -/
def listed (v : Value) : Except Misuse (List WrittenPath) := do
  (← v.parts).mapM ofValue

/-- The keys before the first step that is no key, and the steps from there on. -/
def lead : List Value → Path × List Value
  | [] => ([], [])
  | v :: rest =>
    match v.scalar? with
    | some key => (key :: (lead rest).1, (lead rest).2)
    | none => ([], v :: rest)

theorem lead_keys (path : Path) : lead (path.map Value.ofKey) = (path, []) := by
  induction path with
  | nil => rfl
  | cons key rest ih => simp [lead, ih]

end WrittenPath

namespace Members

/-- Takes away what stands at a written path. A step that is no key is asked of an object that the steps before it lead to,
unless it is the last one and the object is empty.
mirrors src/entityforge/core/merge:79-88 (`unset_paths`) -/
def unsetWritten (m : Members Key Value) : WrittenPath → Except Misuse (Members Key Value)
  | .dotted text => .ok (unset m (Path.ofDotted text))
  | .steps values =>
    match WrittenPath.lead values with
    | (path, []) => .ok (unset m path)
    | (path, _ :: behind) =>
      match (Value.object m).at? path with
      | some (.object below) => if behind.isEmpty && below.isEmpty then .ok m else .error .badOperand
      | _ => .ok m

/-- Takes away what stands at each of the written paths, one after the other.
mirrors src/entityforge/core/merge:70-90 (`unset_paths`) -/
def unsetListed (m : Members Key Value) (paths : List WrittenPath) : Except Misuse (Members Key Value) :=
  paths.foldlM unsetWritten m

theorem unsetWritten_keys (m : Members Key Value) (path : Path) :
    unsetWritten m (.steps (path.map Value.ofKey)) = .ok (unset m path) := by
  simp [unsetWritten, WrittenPath.lead_keys]

end Members

end EntitySchema
