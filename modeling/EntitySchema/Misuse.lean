/-!
# Misuse

Metadata is open: a declaration may hold any value anywhere. When a stage meets a value of a kind it has no use for, it stops
with one of four causes.
-/
namespace EntitySchema

/-- Why a value could not be used. -/
inductive Misuse where
  /-- An operation met a kind of value it has no meaning for. -/
  | badOperand
  /-- Members were asked of a value that has none. -/
  | noMembers
  /-- A key that has to be there is absent. -/
  | absentKey
  /-- A word is none of a closed list of choices. -/
  | unknownChoice
deriving DecidableEq, Repr

end EntitySchema
