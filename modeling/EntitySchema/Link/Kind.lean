/-!
# Link kinds

The kinds of relation that a link can declare.

Results:
* `ofText?_word`: a kind is found by its word.
-/
namespace EntitySchema

/-- mirrors src/entityforge/core/types:47-60 (`LinkType`) -/
inductive LinkKind where
  /-- The entity holds the key of its target. -/
  | belongsTo
  /-- The target holds the key of the entity; the inverse of `belongsTo`. -/
  | hasMany
  /-- Like `hasMany`, with one target at most. -/
  | hasOne
  /-- A junction holds the keys of both sides. -/
  | manyMany
  /-- The target holds the key and the name of the entity; the inverse of `belongsToParent`. -/
  | hasChildren
  /-- The entity holds the key and the name of a target of any kind. -/
  | belongsToParent
deriving DecidableEq, Repr

namespace LinkKind

/-- The word for a kind. -/
def word : LinkKind → String
  | belongsTo => "belongsTo"
  | hasMany => "hasMany"
  | hasOne => "hasOne"
  | manyMany => "manyMany"
  | hasChildren => "hasChildren"
  | belongsToParent => "belongsToParent"

def all : List LinkKind :=
  [belongsTo, hasMany, hasOne, manyMany, hasChildren, belongsToParent]

def words : List String :=
  all.map word

def ofText? (s : String) : Option LinkKind :=
  all.find? fun k => k.word == s

theorem ofText?_word (k : LinkKind) : ofText? k.word = some k := by
  cases k <;> decide

end LinkKind

end EntitySchema
