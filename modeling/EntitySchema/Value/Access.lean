import EntitySchema.Misuse
import EntitySchema.Value

/-!
# Access to values of any kind

What can be asked of a value whose kind is not known: its members, one of them, whether it holds another value. A kind that
has no answer is a misuse, and the cause says which.

Results:
* `lookup_object`, `item_object`: on objects the questions are look-ups.
* `key_ofKey`: a key is the key of its value.
-/
namespace EntitySchema

/-- The text that a key has to be where words are made from it. -/
def Key.word : Key → Except Misuse String
  | .text s => .ok s
  | _ => .error .badOperand

@[simp] theorem Key.word_text (s : String) : (Key.text s).word = .ok s := rfl

namespace Value

/-- The members of a value that has to be an object. -/
def openMembers : Value → Except Misuse (Members Key Value)
  | object m => .ok m
  | _ => .error .noMembers

/-- The members of an object, or none of a value that is not given. -/
def givenMembers (v : Value) : Except Misuse (Members Key Value) :=
  if v.truthy then v.openMembers else .ok []

/-- The value under a key of an object, null when the key is absent. -/
def lookup (v : Value) (key : Key) : Except Misuse Value :=
  v.openMembers.map fun m => Members.value m key

/-- The value under a key that has to be there. -/
def item : Value → Key → Except Misuse Value
  | object m, key =>
    match Members.get? m key with
    | some v => .ok v
    | none => .error .absentKey
  | _, _ => .error .badOperand

/-- The members of an object that is to be copied into another. -/
def spread : Value → Except Misuse (Members Key Value)
  | object m => .ok m
  | _ => .error .badOperand

/-- The key that a value is. Lists and objects are none. -/
def key (v : Value) : Except Misuse Key :=
  match v.scalar? with
  | some key => .ok key
  | none => .error .badOperand

/-- The word by which a value is looked up in a table of words: of the keys only a text is one. -/
def word? (v : Value) : Except Misuse (Option String) :=
  v.key.map Key.text?

/-- The text whose initial is to be changed. -/
def nameText : Value → Except Misuse String
  | str s => .ok s
  | list _ => .error .noMembers
  | _ => .error .badOperand

/-- Whether a text has another one inside. -/
def occursIn (part : List Char) : List Char → Bool
  | [] => part.isEmpty
  | c :: rest => part.isPrefixOf (c :: rest) || occursIn part rest

/-- Whether a value holds another one: as a key, as an element, or as a text inside a text. -/
def holds : Value → Value → Except Misuse Bool
  | object m, v => v.key.map fun key => Members.contains m key
  | list xs, v => .ok (xs.any fun x => x.same v)
  | str s, str part => .ok (occursIn part.toList s.toList)
  | _, _ => .error .badOperand

/-- What a value goes through: its elements, its own keys, or its characters. -/
def parts : Value → Except Misuse (List Value)
  | list xs => .ok xs
  | object m => .ok ((Members.keys m).map ofKey)
  | str s => .ok (s.toList.map fun c => str (String.ofList [c]))
  | _ => .error .badOperand

/-- The parts of a value that is given; one that is not given has none. -/
def givenParts (v : Value) : Except Misuse (List Value) :=
  if v.truthy then v.parts else .ok []

/-- The texts that a value goes through. -/
def partTexts (v : Value) : List String :=
  match v.parts with
  | .ok xs => xs.filterMap text?
  | .error _ => []

/-- A key and a value from something of two parts. -/
def pair (v : Value) : Except Misuse (Key × Value) := do
  match ← v.parts with
  | [k, x] => return (← k.key, x)
  | _ => .error .unknownChoice

/-- The members of an object, which may also be written as a list of pairs. -/
def toMembers : Value → Except Misuse (Members Key Value)
  | object m => .ok m
  | v => do return Members.ofEntries (← (← v.parts).mapM pair)

@[simp] theorem lookup_object (m : Members Key Value) (key : Key) :
    (object m).lookup key = .ok (Members.value m key) := rfl

theorem item_object {m : Members Key Value} {key : Key} {v : Value} (h : Members.get? m key = some v) :
    (object m).item key = .ok v := by
  simp [item, h]

@[simp] theorem key_ofKey (k : Key) : (ofKey k).key = .ok k := by
  simp [key]

end Value

end EntitySchema
