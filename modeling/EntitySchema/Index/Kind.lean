import EntitySchema.Value.Access

/-!
# Index kinds

* `IndexKind.ofDefs`: the kind of an index definition, from its type or its flags.
-/
namespace EntitySchema

/-- mirrors src/entityforge/core/types:63-68 (`IndexType`) -/
inductive IndexKind where
  | plain
  | unique
  | fullText
deriving DecidableEq, Repr

namespace IndexKind

/-- The word for a kind. -/
def word : IndexKind → String
  | plain => "index"
  | unique => "unique"
  | fullText => "fulltext"

def all : List IndexKind := [plain, unique, fullText]

def ofText? (s : String) : Option IndexKind :=
  all.find? fun k => k.word == s

/-- What a key of the kind begins with.
mirrors src/entityforge/compiler/indexes:15-19 (`INDEX_PREFIXES`) -/
def keyStart : IndexKind → String
  | unique => "UNIQ"
  | plain => "IDX"
  | fullText => "IDX"

/-- The kind of an index definition: unique if its type or a flag says so, else full-text if a flag says so.
mirrors src/entityforge/compiler/indexes:24-31 (`index_type_of`) -/
def ofDefs (defs : Members Key Value) : Except Misuse IndexKind := do
  let flags := if (defs.value "flags").truthy then defs.value "flags" else .list []
  let isUnique ← if (defs.value "type").isText unique.word then pure true else flags.holds (.str unique.word)
  if isUnique then return unique
  else if ← flags.holds (.str fullText.word) then return fullText
  else return plain

theorem ofText?_word (k : IndexKind) : ofText? k.word = some k := by
  cases k <;> decide

end IndexKind

end EntitySchema
