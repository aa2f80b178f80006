import UnionScript.Decimal.Shortest

/-!
# Numbers as they are written

A written number has a sign, digits before and perhaps after a point, and perhaps a power of ten.
Its digits form a significand of sixty-four bits.  The first digit that no longer fits and all that
follow it are left out, and those before the point still count for the power of ten.

A whole number is kept as it is if its significand has all its digits.  Any other number becomes a
double: the double next to its significand is multiplied or divided by a power of ten, and each of
these operations is rounded.  So the result is near the number written, and not always the double
nearest to it.
-/

namespace UnionScript.Decimal

/-- A number as it is written, digit by digit. -/
structure Numeral where
  negative : Bool
  whole : List Nat
  fraction : Option (List Nat) := none
  power : Option Int := none
deriving DecidableEq, Repr

/-- Appends digits to a significand as long as it fits in sixty-four bits, and gives the digits
that are left. -/
def appendDigits : Nat → List Nat → Nat × List Nat
  | significand, [] => (significand, [])
  | significand, digit :: rest =>
    if 10 * significand + digit < Nat.pow 2 64 then appendDigits (10 * significand + digit) rest
    else (significand, digit :: rest)

/-- The greatest power of ten that a double can hold. -/
def greatestPower : Nat := 308

/-- The double next to a power of ten. -/
def powerOfTen (n : Nat) : Float := Float.ofScientific 1 false n

/-- Divides by a power of ten; one too great for a double is taken in parts, as long as anything
is left to divide. -/
def divide (x : Float) (power : Nat) : Float :=
  if power ≤ greatestPower then x / powerOfTen power
  else if x == 0 then x
  else divide (x / powerOfTen greatestPower) (power - greatestPower)
termination_by power
decreasing_by simp only [greatestPower] at *; omega

/-- Multiplies by a power of ten, if the product is finite. -/
def multiply? (x : Float) (power : Nat) : Option Float :=
  if power ≤ greatestPower then
    let product := x * powerOfTen power
    if product.isInf then none else some product
  else if x == 0 then some x
  else none

/-- Scales a significand by a power of ten, if the result is finite. -/
def scale? (significand : Nat) (power : Int) : Option Float :=
  let x := Float.ofScientific significand false 0
  if 0 ≤ power then multiply? x power.toNat else some (divide x (-power).toNat)

namespace Numeral

/-- The significand and its power of ten. -/
def expansion (n : Numeral) : Expansion :=
  let (significand, left) := appendDigits 0 n.whole
  let digits := n.fraction.getD []
  let (significand, dropped) := appendDigits significand digits
  ⟨significand, left.length - (digits.length - dropped.length : Nat) + n.power.getD 0⟩

/-- The number as a whole one: it has neither point nor power of ten, and it fits in sixty-four
bits.  A negative zero is no whole number. -/
def integer? (n : Numeral) : Option Int :=
  if n.fraction.isSome || n.power.isSome then none
  else
    match appendDigits 0 n.whole with
    | (significand, []) =>
      if !n.negative then some significand
      else if 0 < significand ∧ significand ≤ Nat.pow 2 63 then some (-(significand : Int))
      else none
    | _ => none

/-- The number as a double, if it is not too great for one. -/
def double? (n : Numeral) : Option Double :=
  (scale? n.expansion.digits n.expansion.exponent).map
    (fun x => ⟨(if n.negative then -x else x).toBits⟩)

end Numeral

end UnionScript.Decimal
