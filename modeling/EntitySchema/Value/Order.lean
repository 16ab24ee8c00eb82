import EntitySchema.Value

/-!
# Order of values

Texts are ordered by their characters, numbers by their value, and lists by the first place where they differ; a list that is
the beginning of another one comes before it. Values of different kinds have no order, and neither have nulls and objects.

* `Value.atMost?`: whether a value comes no later than another one, if they have an order.

Results:
* `atMost?_text`: the order of texts.
-/
namespace EntitySchema.Value

/-- The number that a value is, as a quotient. -/
def ratio? (v : Value) : Option (Int × Nat) :=
  v.scalar?.bind Key.ratio?

mutual

/-- Whether a value comes no later than another one. -/
def atMost? : Value → Value → Option Bool
  | str s, str t => some (decide (s ≤ t))
  | list xs, list ys => atMostAll? xs ys
  | v, w => v.ratio?.bind fun p => w.ratio?.map fun q => decide (p.1 * q.2 ≤ q.1 * p.2)

/-- The same for lists, element by element. -/
def atMostAll? : List Value → List Value → Option Bool
  | [], _ => some true
  | _ :: _, [] => some false
  | v :: rest, w :: rest' => if v.same w then atMostAll? rest rest' else v.atMost? w

end

@[simp] theorem atMost?_text (s t : String) : (str s).atMost? (str t) = some (decide (s ≤ t)) := by
  simp [atMost?]

end EntitySchema.Value
