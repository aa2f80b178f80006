/-!
# Shortest decimals

A double is given by its sixty-four bits.  A finite one is `mantissa · 2 ^ exponent`; every real
number between the midpoints to its two neighbours reads back as it, the midpoints themselves
only when the mantissa is even.  Its shortest decimal lies on the coarsest grid of powers of ten
that has a point in that interval next to the value.  Of two such points the nearer one is
taken, and the upper one when both are equally near.
-/

namespace UnionScript.Decimal

/-- A double, by its bits. -/
structure Double where
  bits : UInt64
deriving DecidableEq, Repr

/-- What a double stands for, its sign apart. -/
inductive Magnitude where
  | nan
  | infinite
  | finite (mantissa : Nat) (exponent : Int) (narrowBelow : Bool)
deriving DecidableEq, Repr

namespace Double

/-- The sign bit. -/
def negative (x : Double) : Bool :=
  x.bits.toNat / Nat.pow 2 63 == 1

/-- The value without its sign.  The gap below a power of two is half of the gap above it,
unless the exponent is already the least one. -/
def magnitude (x : Double) : Magnitude :=
  let fraction : Nat := x.bits.toNat % Nat.pow 2 52
  let biased : Nat := x.bits.toNat / Nat.pow 2 52 % Nat.pow 2 11
  if biased = 2047 then if fraction = 0 then .infinite else .nan
  else if biased = 0 then .finite fraction (-1074) false
  else .finite (Nat.pow 2 52 + fraction) ((biased : Int) - 1075) (fraction == 0 && 1 < biased)

/-- The double nearest to `mantissa · 10 ^ exponent`, negated on demand. -/
def ofDecimal (negated : Bool) (mantissa : Nat) (exponent : Int) : Double :=
  let x := Float.ofScientific mantissa (exponent < 0) exponent.natAbs
  ⟨(if negated then -x else x).toBits⟩

end Double

/-- The decimal `digits · 10 ^ exponent`. -/
structure Expansion where
  digits : Nat
  exponent : Int
deriving DecidableEq, Repr

/-- The exponent of the leading decimal digit of the positive number `num / den`.  No positive
double is below `10 ^ -400`. -/
def leadingExponent (num den : Nat) : Int :=
  ((Nat.toDigits 10 (num * Nat.pow 10 400 / den)).length : Int) - 401

/-- The interval of the reals that read back as a double: its value and its two ends as integers
over one positive denominator. -/
structure Interval where
  low : Nat
  value : Nat
  high : Nat
  den : Nat
  closed : Bool

namespace Interval

/-- The interval of `mantissa · 2 ^ exponent`. -/
def ofFinite (mantissa : Nat) (exponent : Int) (narrowBelow : Bool) : Interval :=
  let scale := Nat.pow 2 (exponent - 2).toNat
  { low := (4 * mantissa - if narrowBelow then 1 else 2) * scale
    value := 4 * mantissa * scale
    high := (4 * mantissa + 2) * scale
    den := Nat.pow 2 (2 - exponent).toNat
    closed := mantissa % 2 == 0 }

/-- The fraction `point / den` lies in the interval. -/
def contains (i : Interval) (point : Nat) : Bool :=
  if i.closed then i.low ≤ point && point ≤ i.high else i.low < point && point < i.high

/-- The interval measured in units of `10 ^ exponent`. -/
def rescale (i : Interval) (exponent : Int) : Interval :=
  let up := Nat.pow 10 (-exponent).toNat
  { i with
    low := i.low * up, value := i.value * up, high := i.high * up
    den := i.den * Nat.pow 10 exponent.toNat }

/-- The point of the grid `10 ^ exponent` next to the value that reads back, if there is one. -/
def onGrid? (i : Interval) (exponent : Int) : Option Expansion :=
  let scaled := i.rescale exponent
  let below := scaled.value / scaled.den
  let down := scaled.contains (below * scaled.den)
  let up := scaled.contains ((below + 1) * scaled.den)
  let upper := scaled.den ≤ 2 * (scaled.value % scaled.den)
  if up && (!down || upper) then some ⟨below + 1, exponent⟩
  else if down then some ⟨below, exponent⟩
  else none

end Interval

/-- The shortest decimal of a positive finite double; seventeen digits always suffice. -/
def shortest (mantissa : Nat) (exponent : Int) (narrowBelow : Bool) : Expansion :=
  let i := Interval.ofFinite mantissa exponent narrowBelow
  let leading := leadingExponent i.value i.den
  ((List.range 17).findSome? (fun (n : Nat) => i.onGrid? (leading - n))).getD ⟨0, 0⟩

end UnionScript.Decimal
