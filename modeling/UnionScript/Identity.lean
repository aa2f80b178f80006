import UnionScript.Text.Hex

/-!
# Identities

An identity is a number of 128 bits.  It is written as thirty-two small hexadecimal digits in
groups of 8, 4, 4, 4 and 12 with hyphens between them.  It is read from that form with digits in
either case, in braces or after `urn:uuid:`, or from its digits without hyphens.
-/

namespace UnionScript

/-- An identity of 128 bits. -/
abbrev Identity := BitVec 128

namespace Identity

/-- The identity of nothing. -/
def nil : Identity := 0

/-- Cuts a text into a group of the given length and what follows the hyphen after it. -/
def takeGroup? (length : Nat) (cs : List Char) : Option (List Char × List Char) :=
  match cs.drop length with
  | '-' :: rest => some (cs.take length, rest)
  | _ => none

/-- Removes the hyphens from a text in groups of 8, 4, 4, 4 and 12. -/
def joinGroups? (cs : List Char) : Option (List Char) := do
  let (a, cs) ← takeGroup? 8 cs
  let (b, cs) ← takeGroup? 4 cs
  let (c, cs) ← takeGroup? 4 cs
  let (d, e) ← takeGroup? 4 cs
  return a ++ b ++ c ++ d ++ e

/-- Reads thirty-two digits. -/
def ofDigits? (cs : List Char) : Option Identity :=
  if cs.length = 32 then (Text.Hex.read? cs).map (BitVec.ofNat 128) else none

/-- Reads the form with hyphens. -/
def ofHyphenated? (cs : List Char) : Option Identity :=
  (joinGroups? cs).bind ofDigits?

/-- The text in braces. -/
def braced? : List Char → Option (List Char)
  | '\x7b' :: rest => if rest.getLast? = some '\x7d' then some rest.dropLast else none
  | _ => none

/-- The text after `urn:uuid:`, in either case. -/
def urn? (cs : List Char) : Option (List Char) :=
  if (cs.take 9).map Char.toLower = "urn:uuid:".toList then some (cs.drop 9) else none

/-- Reads an identity in any of its forms. -/
def ofText? (cs : List Char) : Option Identity :=
  if cs.length = 32 then ofDigits? cs
  else if cs.length = 36 then ofHyphenated? cs
  else if cs.length = 38 then (braced? cs).bind ofHyphenated?
  else if cs.length = 45 then (urn? cs).bind ofHyphenated?
  else none

/-- The text of an identity. -/
def text (i : Identity) : String :=
  let cs := Text.Hex.digits 'a' 32 i.toNat
  let group (start length : Nat) : String := String.ofList ((cs.drop start).take length)
  "-".intercalate [group 0 8, group 8 4, group 12 4, group 16 4, group 20 12]

/-- The bytes of an identity, most significant first. -/
def bytes (i : Identity) : List UInt8 :=
  Text.Hex.bytes 16 i.toNat

end Identity

end UnionScript
