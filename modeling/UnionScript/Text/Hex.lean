/-!
# Hexadecimal digits

Numbers are written most significant digit first in a fixed number of digits, with letters in
the case that `base` gives: `'A'` for capitals, `'a'` for small letters.  Digits are read in
either case.
-/

namespace UnionScript.Text.Hex

/-- The digit of a value below sixteen, its letters counted from `base`. -/
def digit (base : Char) (d : Nat) : Char :=
  if d < 10 then Char.ofNat (0x30 + d) else Char.ofNat (base.toNat + (d - 10))

/-- The lowest `width` digits of a number, most significant first. -/
def digits (base : Char) : Nat → Nat → List Char
  | 0, _ => []
  | width + 1, n => digits base width (n / 16) ++ [digit base (n % 16)]

/-- The value of a digit. -/
def value? (c : Char) : Option Nat :=
  let n := c.toNat
  if 0x30 ≤ n && n ≤ 0x39 then some (n - 0x30)
  else if 0x41 ≤ n && n ≤ 0x46 then some (n - 0x37)
  else if 0x61 ≤ n && n ≤ 0x66 then some (n - 0x57)
  else none

/-- The number that a list of digits denotes; nothing if one of them is no digit. -/
def read? (cs : List Char) : Option Nat :=
  cs.foldlM (fun n c => (value? c).map (16 * n + ·)) 0

/-- Bytes as a literal: `0x` and two capital digits for each byte. -/
def literal (bytes : List UInt8) : String :=
  "0x" ++ String.ofList (bytes.flatMap (fun byte => digits 'A' 2 byte.toNat))

/-- The big-endian bytes of a number in a fixed number of bytes. -/
def bytes : Nat → Nat → List UInt8
  | 0, _ => []
  | width + 1, n => bytes width (n / 256) ++ [UInt8.ofNat (n % 256)]

end UnionScript.Text.Hex
