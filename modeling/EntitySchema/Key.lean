import EntitySchema.Number.Binary64

/-!
# Keys

Members stand under keys. In definitions a key is a text, but a tree may also gather members under other scalars. Truth values
count as the numbers 0 and 1 and numbers are compared by their value, so `true`, `1` and `1.0` are one key.

* `canonical`: the one spelling that all spellings of a key share.
* `sorted?`: keys in order.

Results:
* `beq_text`: only a text is the same key as a text.
-/
namespace EntitySchema

/-- A scalar under which a member can stand. -/
inductive Key where
  | text (s : String)
  | null
  | bool (b : Bool)
  | int (n : Int)
  | float (x : Binary64)
deriving DecidableEq

instance : Inhabited Key := ⟨.null⟩

instance : Coe String Key := ⟨.text⟩

namespace Key

/-- The one spelling that all spellings of a key share. -/
def canonical : Key → Key
  | bool b => int (if b then 1 else 0)
  | float x =>
    match x.toInt? with
    | some n => int n
    | none => float x
  | key => key

/-- Keys are the same if they share their canonical spelling. -/
instance : BEq Key := ⟨fun a b => decide (a.canonical = b.canonical)⟩

theorem beq_iff {a b : Key} : (a == b) = true ↔ a.canonical = b.canonical :=
  decide_eq_true_iff

instance : EquivBEq Key where
  rfl := beq_iff.2 rfl
  symm h := beq_iff.2 (beq_iff.1 h).symm
  trans h h' := beq_iff.2 ((beq_iff.1 h).trans (beq_iff.1 h'))

def text? : Key → Option String
  | text s => some s
  | _ => none

theorem canonical_eq_text {key : Key} {s : String} : key.canonical = text s ↔ key = text s := by
  cases key with
  | float x => simp only [canonical]; split <;> simp
  | _ => simp [canonical]

/-- The number that a key is, as a quotient. -/
def ratio? : Key → Option (Int × Nat)
  | bool b => some (if b then 1 else 0, 1)
  | int n => some (n, 1)
  | float x => some x.ratio
  | _ => none

/-- Keys in order: texts by their characters, numbers by their value. Other keys have an order only if there is one of them. -/
def sorted? (keys : List Key) : Option (List Key) :=
  match keys.mapM text? with
  | some names => some ((names.mergeSort fun a b => a ≤ b).map text)
  | none =>
    match keys.mapM fun key => key.ratio?.map fun q => (q, key) with
    | some numbered =>
      some ((numbered.mergeSort fun a b => a.1.1 * b.1.2 ≤ b.1.1 * a.1.2).map Prod.snd)
    | none => if keys.length ≤ 1 then some keys else none

/-- Only a text is the same key as a text. -/
@[simp] theorem beq_text {key : Key} {s : String} : (key == text s) = true ↔ key = text s := by
  rw [beq_iff, show (text s).canonical = text s from rfl, canonical_eq_text]

@[simp] theorem text_beq {key : Key} {s : String} : (text s == key) = true ↔ key = text s := by
  rw [BEq.comm, beq_text]

end Key

end EntitySchema
