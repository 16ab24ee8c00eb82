import EntitySchema.Digest.Sha1
import EntitySchema.Index.Kind
import EntitySchema.Naming

/-!
# Index keys

The key under which the storage keeps an index is made from the name of the index and its kind alone, so it is the same on
every compilation. A key that would be too long is cut and ends in eight digits of a digest of the whole key.

* `fullKey`: the key before it is cut.
* `key`: the key within a limit.

Results:
* `key_of_fits`: a key within the limit is not cut.
-/
namespace EntitySchema.Index

/-- Digits of the digest at the end of a cut key.
mirrors src/entityforge/compiler/indexes:21 (`HASH_LENGTH`) -/
def digestLength : Nat := 8

/-- The characters before an end, which is counted from the back if it is negative. -/
def upTo (stop : Int) (cs : List Char) : List Char :=
  if 0 ≤ stop then cs.take stop.toNat else cs.take (cs.length - (-stop).toNat)

/-- The key of an index before it is cut.
mirrors src/entityforge/compiler/indexes:48 (`generate_index_name`) -/
def fullKey (kind : IndexKind) (name : String) : String :=
  kind.keyStart ++ "_" ++ Text.upper (Naming.underscored name)

/-- The key of an index; `limit` is the most characters that it should have.
mirrors src/entityforge/compiler/indexes:34-52 (`generate_index_name`) -/
def key (kind : IndexKind) (name : String) (limit : Int) : String :=
  let full := fullKey kind name
  if (full.length : Int) ≤ limit then full
  else
    String.ofList (upTo (limit - digestLength - 1) full.toList ++ '_' :: (Sha1.hexDigits full).take digestLength)

theorem key_of_fits {kind : IndexKind} {name : String} {limit : Int}
    (h : ((fullKey kind name).length : Int) ≤ limit) : key kind name limit = fullKey kind name := by
  simp [key, h]

end EntitySchema.Index
