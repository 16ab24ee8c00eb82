import EntitySchema.Record.Scalar
import EntitySchema.Value.Display

/-!
# Checking a value against a shape

`Shape.check` reads a value as its shape wants it. It gives the canonical value, in which coerced scalars have their own kind
and a record lists its attributes under their keys in the order of the shape, then what else was given; or it gives all
faults, in the order of the shape.

* `Attribute.find?`: which key of an object writes an attribute.
* `Shape.check`: the canonical value, or the faults.
* `Shape.accept`: the same for a whole record, with its title.
-/
namespace EntitySchema.Record

/-- The key under which an object gives an attribute, with the value: its key if that is there, else its name. -/
def Attribute.find? (a : Attribute) (m : Members Key Value) : Option (String × Value) :=
  match Members.get? m a.key with
  | some v => some (a.key, v)
  | none => (Members.get? m a.name).map fun v => (a.name, v)

/-- The members of an object that give none of the attributes. -/
def unknownMembers (attributes : List (Attribute × Shape)) (m : Members Key Value) : Members Key Value :=
  let used := attributes.filterMap fun a => (a.1.find? m).map Prod.fst
  m.filter fun entry => !(entry.1.text?.any used.contains)

/-- The step to the value under a key. Only a text and an integer of 64 bits keep their kind. -/
def Segment.ofKey : Key → Segment
  | .text s => key s
  | .bool b => index (if b then 1 else 0)
  | .int n => if fitsWord n then index n else key (toString n)
  | k => key k.spelled

/-- Both parts of a check, or the faults of both. -/
def both {α β γ : Type} (f : α → β → γ) : Except (List Fault) α → Except (List Fault) β → Except (List Fault) γ
  | .ok a, .ok b => .ok (f a b)
  | .ok _, .error es => .error es
  | .error es, .ok _ => .error es
  | .error es, .error es' => .error (es ++ es')

/-- The faults of an inner check seen from outside. -/
def under {α : Type} (step : Segment) : Except (List Fault) α → Except (List Fault) α
  | .ok a => .ok a
  | .error es => .error (es.map (Fault.under step))

def flawed {α : Type} (flaw : Flaw) : Except (List Fault) α :=
  .error [⟨[], flaw⟩]

def scalar {α : Type} (wrap : α → Value) : Except Flaw α → Except (List Fault) Value
  | .ok a => .ok (wrap a)
  | .error flaw => flawed flaw

/-- Checks the elements of a list, from the index `n` on. -/
def checkElements (check : Value → Except (List Fault) Value) :
    Nat → List Value → Except (List Fault) (List Value)
  | _, [] => .ok []
  | n, v :: rest => both (· :: ·) (under (.index n) (check v)) (checkElements check (n + 1) rest)

def checkText : Value → Except (List Fault) Value
  | .str s => .ok (.str s)
  | _ => flawed .notText

/-- Checks the members of an object, each key before its value. -/
def checkMembers (check : Value → Except (List Fault) Value) :
    List (Key × Value) → Except (List Fault) (List (Key × Value))
  | [] => .ok []
  | (key, v) :: rest =>
    let member := under (.ofKey key) (both (fun _ w => (key, w)) (under (.key "[key]") (checkText (.ofKey key))) (check v))
    both (· :: ·) member (checkMembers check rest)

/-- The members of an open record that are no attributes: their keys have to be texts. -/
def checkUnknown : List (Key × Value) → Except (List Fault) (List (Key × Value))
  | [] => .ok []
  | (key, v) :: rest =>
    let member : Except (List Fault) (Key × Value) :=
      match key with
      | .text _ => .ok (key, v)
      | _ => under (.ofKey key) (flawed .keyNotText)
    both (· :: ·) member (checkUnknown rest)

mutual

/-- The canonical form of a value of the shape, or all its faults. -/
def Shape.check : Shape → Value → Except (List Fault) Value
  | .anything, v => .ok v
  | .text, v => checkText v
  | .flag, v => scalar .bool (readFlag v)
  | .whole, v => scalar .int (readWhole v)
  | .oneOf words, v =>
    match v with
    | .str s => if words.contains s then .ok (.str s) else flawed (.notOneOf words)
    | _ => flawed (.notOneOf words)
  | .flagOrText, v =>
    match v with
    | .str s => .ok (.str s)
    | v =>
      match readFlag v with
      | .ok b => .ok (.bool b)
      | .error flaw => .error [⟨[.key "bool"], flaw⟩, ⟨[.key "str"], .notText⟩]
  | .textOrTexts, v =>
    match v with
    | .str s => .ok (.str s)
    | .list xs =>
      match checkElements checkText 0 xs with
      | .ok ys => .ok (.list ys)
      | .error es => .error (⟨[.key "str"], .notText⟩ :: es.map (Fault.under (.key "list[str]")))
    | _ => .error [⟨[.key "str"], .notText⟩, ⟨[.key "list[str]"], .notList⟩]
  | .nullable s, v => if v.isNull then .ok .null else s.check v
  | .listOf s, v =>
    match v with
    | .list xs => (checkElements s.check 0 xs).map .list
    | _ => flawed .notList
  | .tupleOf s, v =>
    match v with
    | .list xs => (checkElements s.check 0 xs).map .list
    | _ => flawed .notTuple
  | .mapOf s, v =>
    match v with
    | .object m => (checkMembers s.check m).map .object
    | _ => flawed .notObject
  | .record title isOpen attributes, v =>
    match v with
    | .object m =>
      let unknown := if isOpen then checkUnknown (unknownMembers attributes m) else .ok []
      both (fun known more => .object (known ++ more)) (Shape.checkAttributes attributes m) unknown
    | _ => flawed (.notRecord title)

/-- The attributes that an object gives, in canonical form. -/
def Shape.checkAttributes : List (Attribute × Shape) → Members Key Value → Except (List Fault) (List (Key × Value))
  | [], _ => .ok []
  | (a, s) :: rest, m =>
    let known := Shape.checkAttributes rest m
    match a.find? m with
    | some (key, v) => both (fun w ws => (.text a.key, w) :: ws) (under (.key key) (s.check v)) known
    | none => if a.required then both (fun _ ws => ws) (flawed (α := Unit) .missing |> under (.key a.key)) known else known

end

/-- The canonical form of a whole record, or the report under its title. -/
def Shape.accept (title : String) (s : Shape) (v : Value) : Except Rejection Value :=
  match s.check v with
  | .ok w => .ok w
  | .error faults => .error ⟨title, faults⟩

end EntitySchema.Record
