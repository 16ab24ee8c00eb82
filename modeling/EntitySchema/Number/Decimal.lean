import EntitySchema.Number.Binary64

/-!
# The shortest decimal that reads back

A binary number is written with the fewest decimal digits that still lie nearer to it than to any other number; among
those, with the digits nearest to it, an even last digit deciding a tie.

* `shortest`: for one digit, two digits, and so on, the value's two neighbours on that decimal grid are tried.
* `Layout`: where positional notation ends and how an exponent is written.
-/
namespace EntitySchema

/-- The number `digits · 10 ^ exponent`. -/
structure Decimal where
  digits : Nat
  exponent : Int
deriving DecidableEq

namespace Decimal

/-- The same number without zeros at the end of its digits. -/
def strip : Nat → Decimal → Decimal
  | 0, d => d
  | fuel + 1, d => if d.digits ≠ 0 ∧ d.digits % 10 = 0 then strip fuel ⟨d.digits / 10, d.exponent + 1⟩ else d

/-- The greatest `e` with `10 ^ e ≤ num / den`. -/
def magnitude (num den : Nat) : Int :=
  if den ≤ num then ((Nat.toDigits 10 (num / den)).length : Int) - 1
  else
    let d := (Nat.toDigits 10 (den / num)).length
    if den ≤ num * Nat.pow 10 (d - 1) then -((d : Int) - 1) else -(d : Int)

/-- A point `n · 10 ^ k` compared with `num / den`, both brought to whole numbers. -/
def gridPoint (n : Nat) (k : Int) (num den : Nat) : Nat × Nat :=
  if 0 ≤ k then (n * Nat.pow 10 k.toNat * den, num) else (n * den, num * Nat.pow 10 (-k).toNat)

/-- The greatest grid point `n · 10 ^ k` that is at most `num / den`. -/
def floorOn (k : Int) (num den : Nat) : Nat :=
  if 0 ≤ k then num / (den * Nat.pow 10 k.toNat) else num * Nat.pow 10 (-k).toNat / den

/-- The numbers that read back as `x` are those between `low` and `high` over `den`; the ends belong to them if `closed`. -/
structure Interval where
  low : Nat
  value : Nat
  high : Nat
  den : Nat
  closed : Bool

/-- Half the way to the next number on either side; below a power of two the next number is only half as far away. -/
def Interval.around (x : Binary64) : Interval :=
  let below := if x.mantissa = Nat.pow 2 52 ∧ -1074 < x.exponent then 1 else 2
  let unit := x.exponent - 2
  let up := if 0 ≤ unit then Nat.pow 2 unit.toNat else 1
  { low := (4 * x.mantissa - below) * up, value := 4 * x.mantissa * up, high := (4 * x.mantissa + 2) * up
    den := if 0 ≤ unit then 1 else Nat.pow 2 (-unit).toNat
    closed := x.mantissa % 2 = 0 }

def Interval.holds (i : Interval) (n : Nat) (k : Int) : Bool :=
  let (p, low) := gridPoint n k i.low i.den
  let (_, high) := gridPoint n k i.high i.den
  if i.closed then low ≤ p && p ≤ high else low < p && p < high

/-- The distance of a grid point from the value, over a denominator that both neighbours share. -/
def Interval.distance (i : Interval) (n : Nat) (k : Int) : Nat :=
  let (p, v) := gridPoint n k i.value i.den
  (p - v) + (v - p)

/-- The nearer of two neighbours on a grid; half-way between them the even one. -/
def Interval.nearer (i : Interval) (n : Nat) (k : Int) : Nat :=
  match compare (i.distance n k) (i.distance (n + 1) k) with
  | .lt => n
  | .gt => n + 1
  | .eq => n + n % 2

/-- The neighbour of the value on a grid that reads back, the nearer one if both do. -/
def Interval.onGrid? (i : Interval) (k : Int) : Option Decimal :=
  let n := floorOn k i.value i.den
  match i.holds n k && n ≠ 0, i.holds (n + 1) k with
  | true, true => some ⟨i.nearer n k, k⟩
  | true, false => some ⟨n, k⟩
  | false, true => some ⟨n + 1, k⟩
  | false, false => none

/-- The shortest decimal that reads back as `x`; seventeen digits always do. -/
def shortest (x : Binary64) : Decimal :=
  let i := Interval.around x
  let e := magnitude i.value i.den
  match (List.range 17).findSome? fun (n : Nat) => i.onGrid? (e - (n : Int)) with
  | some d => strip 20 d
  | none => ⟨floorOn (e - 16) i.value i.den, e - 16⟩

end Decimal

/-- How a decimal is laid out. -/
structure Layout where
  /-- The point stands at most this far to the left of the first digit in positional notation. -/
  least : Int
  /-- The point stands at most this far to the right of the first digit in positional notation. -/
  most : Int
  /-- Least number of digits of an exponent. -/
  exponentWidth : Nat

namespace Layout

/-- Numbers from `10 ^ -4` up to `10 ^ 16` are positional, others have an exponent of two digits or more. -/
def standard : Layout := ⟨-3, 16, 2⟩

private def zeros (n : Nat) : String :=
  String.ofList (List.replicate n '0')

/-- The text of a non-negative decimal; a whole number in positional notation gets a zero behind the point. -/
def text (layout : Layout) (d : Decimal) : String :=
  let ds := Nat.toDigits 10 d.digits
  let point : Int := d.exponent + ds.length
  if d.digits = 0 then "0.0"
  else if layout.least ≤ point ∧ point ≤ layout.most then
    if point ≤ 0 then "0." ++ zeros (-point).toNat ++ String.ofList ds
    else if (ds.length : Int) ≤ point then String.ofList ds ++ zeros (point.toNat - ds.length) ++ ".0"
    else String.ofList (ds.take point.toNat) ++ "." ++ String.ofList (ds.drop point.toNat)
  else
    let head := String.ofList (ds.take 1)
    let tail := if ds.length ≤ 1 then "" else "." ++ String.ofList (ds.drop 1)
    let e := point - 1
    let size := toString e.natAbs
    head ++ tail ++ "e" ++ (if e < 0 then "-" else "+") ++ zeros (layout.exponentWidth - size.length) ++ size

end Layout

/-- The text of a number: the shortest decimal that reads back, a zero with its sign. -/
def Binary64.text (x : Binary64) : String :=
  (if x.negative then "-" else "") ++
    Layout.standard.text (if x.isZero then ⟨0, 0⟩ else Decimal.shortest x)

end EntitySchema
