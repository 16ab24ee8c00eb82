import EntitySchema.Key
import EntitySchema.Members

/-!
# Values

Definitions, metadata and the compiled schema are trees of values: scalars, lists and objects whose members are ordered.

* `truthy`: null, false, zero, the empty text, the empty list and the empty object count as not given.
* `same`: values are the same if they differ in the spelling of numbers and in the order of members only.
* `UniqueKeys`: no object in the tree has a key twice.
-/
namespace EntitySchema

/-- A tree of scalars, lists and ordered objects. -/
inductive Value where
  | null
  | bool (b : Bool)
  | int (n : Int)
  | float (x : Binary64)
  | str (s : String)
  | list (xs : List Value)
  | object (fields : List (Key × Value))

instance : Inhabited Value := ⟨.null⟩

namespace Value

/-- Whether a value counts as given: null, false, zeros and everything empty do not. -/
def truthy : Value → Bool
  | null => false
  | bool b => b
  | int n => n != 0
  | float x => !x.isZero
  | str s => s != ""
  | list xs => !xs.isEmpty
  | object m => !m.isEmpty

/-- Whether a value is this text. -/
def isText : Value → String → Bool
  | str s, t => s == t
  | _, _ => false

def isNull : Value → Bool
  | null => true
  | _ => false

/-- The members of an object; nothing else has any. -/
def members : Value → Members Key Value
  | object m => m
  | _ => []

/-- The elements of a list; nothing else has any. -/
def elements : Value → List Value
  | list xs => xs
  | _ => []

/-- The text, if the value is one. -/
def text? : Value → Option String
  | str s => some s
  | _ => none

/-- The texts among the elements of a list. -/
def texts (v : Value) : List String :=
  v.elements.filterMap text?

/-- A list of texts. -/
def ofTexts (xs : List String) : Value :=
  list (xs.map str)

/-- A key as a value. -/
def ofKey : Key → Value
  | .text s => str s
  | .null => null
  | .bool b => bool b
  | .int n => int n
  | .float x => float x

/-- The key that a scalar is; lists and objects are none. -/
def scalar? : Value → Option Key
  | null => some .null
  | bool b => some (.bool b)
  | int n => some (.int n)
  | float x => some (.float x)
  | str s => some (.text s)
  | list _ => none
  | object _ => none

@[simp] theorem scalar?_ofKey (key : Key) : (ofKey key).scalar? = some key := by
  cases key <;> rfl

mutual

/-- Whether two values are the same: numbers by value, lists element by element, objects member by member in any order. -/
def same : Value → Value → Bool
  | list xs, list ys => sameAll xs ys
  | object m, object m' => m.length == m'.length && sameIn m m'
  | v, w => v.scalar?.any fun key => w.scalar?.any fun other => key == other

def sameAll : List Value → List Value → Bool
  | [], [] => true
  | v :: rest, w :: rest' => same v w && sameAll rest rest'
  | _, _ => false

def sameIn : List (Key × Value) → Members Key Value → Bool
  | [], _ => true
  | (key, v) :: rest, m => (Members.get? m key).any (same v) && sameIn rest m

end

mutual

/-- No object in the tree has a key twice. -/
def UniqueKeys : Value → Prop
  | null => True
  | bool _ => True
  | int _ => True
  | float _ => True
  | str _ => True
  | list xs => UniqueKeysAll xs
  | object m => (m.map fun entry => entry.1.canonical).Nodup ∧ UniqueKeysIn m

def UniqueKeysAll : List Value → Prop
  | [] => True
  | v :: rest => UniqueKeys v ∧ UniqueKeysAll rest

def UniqueKeysIn : List (Key × Value) → Prop
  | [] => True
  | (_, v) :: rest => UniqueKeys v ∧ UniqueKeysIn rest

end

end Value

namespace Members

/-- The value under a key, null when the key is absent. -/
def value (m : Members Key Value) (key : Key) : Value :=
  (get? m key).getD .null

/-- The members whose keys are texts. -/
def named {α : Type} (m : Members Key α) : Members String α :=
  m.filterMap fun entry => entry.1.text?.map fun name => (name, entry.2)

/-- Members under texts as members under keys. -/
def keyed {α : Type} (m : Members String α) : Members Key α :=
  m.map fun entry => (.text entry.1, entry.2)

@[simp] theorem named_keyed {α : Type} (m : Members String α) : named (keyed m) = m := by
  induction m with
  | nil => rfl
  | cons entry rest ih =>
    simp only [keyed, named, List.map_cons, List.filterMap_cons, Key.text?, Option.map_some] at ih ⊢
    rw [ih]

end Members

end EntitySchema
