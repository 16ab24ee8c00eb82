/-!
# Binary floating-point numbers

A number written with a point or an exponent is held as the nearest binary number of 64 bits. Only finite numbers occur;
they are kept as sign, mantissa and exponent, so that everything below is exact arithmetic on whole numbers.

* `ofDecimal`: the number nearest to a decimal one.
* `toInt?`, `ratio`: the number as an integer, if it is one, and as a quotient.

Results:
* `roundDiv_exact`: rounding a quotient that is whole changes nothing.
-/
namespace EntitySchema

/-- The finite number `± mantissa · 2 ^ exponent`. In the numbers made here the mantissa is below `2 ^ 53`, and at least
`2 ^ 52` unless the exponent is the least one, `-1074`. -/
structure Binary64 where
  negative : Bool
  mantissa : Nat
  exponent : Int
deriving DecidableEq

namespace Binary64

def isZero (x : Binary64) : Bool :=
  x.mantissa == 0

/-- The whole number nearest to a quotient; a half goes to the even neighbour. -/
def roundDiv (num den : Nat) : Nat :=
  let q := num / den
  let r := num % den
  if 2 * r < den then q else if den < 2 * r then q + 1 else q + q % 2

theorem roundDiv_exact (n den : Nat) (h : 0 < den) : roundDiv (n * den) den = n := by
  simp [roundDiv, Nat.mul_div_cancel _ h, h]

/-- A quotient divided by `2 ^ e`, again as numerator and denominator. -/
def scaled (num den : Nat) (e : Int) : Nat × Nat :=
  if 0 ≤ e then (num, den * Nat.pow 2 e.toNat) else (num * Nat.pow 2 (-e).toNat, den)

/-- The number nearest to a quotient. The logarithms give the exponent up to one, the comparison settles it. -/
def ofRatio (negative : Bool) (num den : Nat) : Binary64 :=
  if num = 0 then ⟨negative, 0, -1074⟩
  else
    let guess : Int := (Nat.log2 num : Int) - (Nat.log2 den : Int) - 52
    let (a, b) := scaled num den guess
    let e := max (if a < Nat.pow 2 52 * b then guess - 1 else guess) (-1074)
    let (a, b) := scaled num den e
    let m := roundDiv a b
    if m = Nat.pow 2 53 then ⟨negative, Nat.pow 2 52, e + 1⟩ else ⟨negative, m, e⟩

/-- The number nearest to `± digits · 10 ^ exponent`. What lies beyond every finite number, and what lies below half of the
least one, is settled without computing the power of ten. -/
def ofDecimal (negative : Bool) (digits : Nat) (exponent : Int) : Binary64 :=
  let size : Int := (Nat.log2 digits : Int) / 4 + exponent
  if digits = 0 ∨ exponent + (Nat.log2 digits : Int) < -400 then ⟨negative, 0, -1074⟩
  else if 400 < size then ⟨negative, Nat.pow 2 53 - 1, 971⟩
  else if 0 ≤ exponent then ofRatio negative (digits * Nat.pow 10 exponent.toNat) 1
  else ofRatio negative digits (Nat.pow 10 (-exponent).toNat)

/-- The number as an integer, if it is one. -/
def toInt? (x : Binary64) : Option Int :=
  let magnitude : Option Nat :=
    if 0 ≤ x.exponent then some (x.mantissa * Nat.pow 2 x.exponent.toNat)
    else
      let unit := Nat.pow 2 (-x.exponent).toNat
      if x.mantissa % unit = 0 then some (x.mantissa / unit) else none
  magnitude.map fun n => if x.negative then -(n : Int) else n

/-- The number as a quotient. -/
def ratio (x : Binary64) : Int × Nat :=
  let (num, den) : Nat × Nat :=
    if 0 ≤ x.exponent then (x.mantissa * Nat.pow 2 x.exponent.toNat, 1) else (x.mantissa, Nat.pow 2 (-x.exponent).toNat)
  (if x.negative then -(num : Int) else num, den)

end Binary64

end EntitySchema
