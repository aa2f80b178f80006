/-!
# Reading bounded integers

An optional sign and at least one digit, read from the left.  Reading stops at the first fault: a
character that is no digit, or the digit with which the number leaves its range.
-/

namespace UnionScript.Decimal

/-- Why a text is no integer of the range. -/
inductive IntegerFault where
  | empty
  | invalidDigit
  | tooLarge
  | tooSmall
deriving DecidableEq, Repr

/-- The wording of a fault. -/
def IntegerFault.message : IntegerFault → String
  | .empty => "cannot parse integer from empty string"
  | .invalidDigit => "invalid digit found in string"
  | .tooLarge => "number too large to fit in target type"
  | .tooSmall => "number too small to fit in target type"

/-- The value of a decimal digit. -/
def digitValue? (c : Char) : Option Nat :=
  if '0' ≤ c && c ≤ '9' then some (c.toNat - 0x30) else none

/-- Appends digits to a magnitude that may not pass `limit`. -/
def readMagnitude (limit : Nat) (overflow : IntegerFault) (n : Nat) :
    List Char → Except IntegerFault Nat
  | [] => .ok n
  | c :: rest =>
    match digitValue? c with
    | none => .error .invalidDigit
    | some d =>
      if limit < 10 * n + d then .error overflow
      else readMagnitude limit overflow (10 * n + d) rest

/-- The digits after a sign; there has to be one. -/
def readDigits (limit : Nat) (overflow : IntegerFault) (cs : List Char) :
    Except IntegerFault Nat :=
  if cs.isEmpty then .error .invalidDigit else readMagnitude limit overflow 0 cs

/-- Reads a signed integer of thirty-two bits. -/
def readInt32 : List Char → Except IntegerFault Int32
  | [] => .error .empty
  | '-' :: rest => do
    let n ← readDigits (Nat.pow 2 31) .tooSmall rest
    return Int32.ofInt (-n)
  | '+' :: rest => do
    let n ← readDigits (Nat.pow 2 31 - 1) .tooLarge rest
    return Int32.ofInt n
  | cs => do
    let n ← readDigits (Nat.pow 2 31 - 1) .tooLarge cs
    return Int32.ofInt n

end UnionScript.Decimal
