import EntitySchema.Value

/-!
# Paths

A path is a list of keys that leads through nested objects. It may be written as one text with a dot between the keys.

* `Path.ofDotted`: the path that a dotted text writes.
* `Value.at?`: what a path leads to.

Results:
* `at?_append`: to follow two paths one after the other is to follow the joined path.
-/
namespace EntitySchema

/-- The keys that lead from an object to a place below it. -/
abbrev Path := List Key

namespace Path

/-- Cuts a text at every dot; a text without a dot is one part. -/
def splitDots : List Char → List (List Char)
  | [] => [[]]
  | c :: rest =>
    match splitDots rest with
    | [] => [[c]]
    | part :: parts => if c = '.' then [] :: part :: parts else (c :: part) :: parts

/-- The path that a dotted text writes.
mirrors src/entityforge/core/merge:64-67 (`_split`) -/
def ofDotted (text : String) : Path :=
  (splitDots text.toList).map fun part => .text (String.ofList part)

theorem splitDots_ne_nil (cs : List Char) : splitDots cs ≠ [] := by
  cases cs with
  | nil => simp [splitDots]
  | cons c rest => rw [splitDots]; split <;> (try split) <;> simp

end Path

/-- The value at the end of a path through objects. -/
def Value.at? : Value → Path → Option Value
  | v, [] => some v
  | .object m, key :: rest => (Members.get? m key).bind fun v => v.at? rest
  | _, _ :: _ => none

theorem Value.at?_append (v : Value) (p q : Path) : v.at? (p ++ q) = (v.at? p).bind fun w => w.at? q := by
  induction p generalizing v with
  | nil => simp [Value.at?]
  | cons key rest ih =>
    cases v with
    | object m =>
      simp only [List.cons_append, Value.at?]
      cases Members.get? m key with
      | none => rfl
      | some w => simp [ih]
    | _ => rfl

end EntitySchema
