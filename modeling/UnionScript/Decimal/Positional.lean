import UnionScript.Decimal.Shortest

/-!
# Positional text of numbers

Numbers are written without an exponent however long they get: the digits, zeros up to the
point, and after the point no trailing zeros.  A whole number has no point, and a zero keeps its
sign.
-/

namespace UnionScript.Decimal

/-- The characters without the zeros at their end. -/
def dropTrailingZeros (cs : List Char) : List Char :=
  (cs.reverse.dropWhile (· == '0')).reverse

/-- A decimal written out in full. -/
def positional (d : Expansion) : String :=
  let digits := Nat.toDigits 10 d.digits
  let places := (-d.exponent).toNat
  let padded := List.replicate (places + 1 - digits.length) '0' ++
    digits ++ List.replicate d.exponent.toNat '0'
  let whole := padded.take (padded.length - places)
  let fraction := dropTrailingZeros (padded.drop (padded.length - places))
  String.ofList (if fraction.isEmpty then whole else whole ++ '.' :: fraction)

/-- The text of a double. -/
def Double.text (x : Double) : String :=
  let sign := if x.negative then "-" else ""
  match x.magnitude with
  | .nan => "NaN"
  | .infinite => sign ++ "inf"
  | .finite mantissa exponent narrowBelow =>
    if mantissa = 0 then sign ++ "0"
    else sign ++ positional (shortest mantissa exponent narrowBelow)

end UnionScript.Decimal
