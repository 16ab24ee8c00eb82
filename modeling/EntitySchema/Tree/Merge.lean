import EntitySchema.Tree.Path

/-!
# Merging and unsetting

Every stage of the compiler makes a fragment and folds it into the tree built so far. Keys are united, the lower tree's keys
keep their places and new ones go last; where both sides hold an object the merge goes on below, otherwise the upper value
wins. Removal goes by path.

Results:
* `mergeAll_append`: fragments are folded from the left.
-/
namespace EntitySchema

/-- How two lists that meet at the same key are combined.
mirrors src/entityforge/core/merge:16-20 (`MergeMode`) -/
inductive MergeMode where
  /-- The upper list replaces the lower one. -/
  | override
  /-- The lower list is followed by the upper one. -/
  | append
deriving DecidableEq, Repr

namespace MergeMode

def ofText? : String → Option MergeMode
  | "override" => some .override
  | "append" => some .append
  | _ => none

end MergeMode

mutual

/-- What stands at a key where both sides have a value.
mirrors src/entityforge/core/merge:46-51 (`deep_merge`) -/
def Value.overlay (mode : MergeMode) : Value → Value → Value
  | .object lower, .object upper => .object (Members.merge mode lower upper)
  | .list lower, .list upper =>
    match mode with
    | .override => .list upper
    | .append => .list (lower ++ upper)
  | _, upper => upper

/-- Merges the upper object into the lower one, key by key in the upper one's order.
mirrors src/entityforge/core/merge:23-53 (`deep_merge`) -/
def Members.merge (mode : MergeMode) : List (Key × Value) → List (Key × Value) → List (Key × Value)
  | lower, [] => lower
  | lower, (key, v) :: rest =>
    let merged :=
      match Members.get? lower key with
      | some old => Value.overlay mode old v
      | none => v
    Members.merge mode (Members.set lower key merged) rest

end

namespace Members

/-- Folds fragments from the left, starting from nothing.
mirrors src/entityforge/core/merge:56-61 (`merge_all`) -/
def mergeAll (mode : MergeMode) (fragments : List (Members Key Value)) : Members Key Value :=
  fragments.foldl (merge mode) []

/-- The usual merge, in which an upper list replaces a lower one. -/
def overlay (lower upper : Members Key Value) : Members Key Value :=
  merge .override lower upper

/-- Takes away what stands at a path; a path that leads nowhere takes nothing away.
mirrors src/entityforge/core/merge:82-88 (`unset_paths`) -/
def unset : Members Key Value → Path → Members Key Value
  | m, [] => m
  | m, [key] => erase m key
  | m, key :: rest =>
    match get? m key with
    | some (.object below) => set m key (.object (unset below rest))
    | _ => m

/-- Takes away what stands at each of the paths, one after the other.
mirrors src/entityforge/core/merge:70-90 (`unset_paths`) -/
def unsetAll (m : Members Key Value) (paths : List Path) : Members Key Value :=
  paths.foldl unset m

theorem mergeAll_append (mode : MergeMode) (xs ys : List (Members Key Value)) :
    mergeAll mode (xs ++ ys) = ys.foldl (merge mode) (mergeAll mode xs) := by
  simp [mergeAll]

end Members

end EntitySchema
