import UnionScript.Kind
import UnionScript.Text.Blank
import UnionScript.Text.Hex

/-!
# Text of a set of kinds

The kinds of a set are written by their names in capitals, in order, with bars between them.  Bits
that stand for no kind follow as one hexadecimal number.  On reading, the order is free and blanks
may surround each part.
-/

namespace UnionScript.Kind

/-- The name of a kind in capitals. -/
def capitals (k : Kind) : String :=
  String.ofList (k.name.toList.map Char.toUpper)

/-- The bits that stand for a kind. -/
def knownBits : BitVec 16 :=
  all.foldl (fun bits k => bits ||| k.flag) 0

/-- A number in hexadecimal without leading zeros. -/
def hexText (n : Nat) : String :=
  "0x" ++ String.ofList (Nat.toDigits 16 n)

/-- The text of a set of kinds. -/
def flagsText (flags : BitVec 16) : String :=
  let names := (all.filter (fun k => flags.getLsbD k.bit)).map capitals
  let others := flags &&& ~~~knownBits
  " | ".intercalate (names ++ if others = 0 then [] else [hexText others.toNat])

/-- The parts of a text between bars. -/
def splitBars (cs : List Char) : List (List Char) :=
  cs.foldr (fun c parts =>
    match parts with
    | part :: rest => if c = '|' then [] :: part :: rest else (c :: part) :: rest
    | [] => [[c]]) [[]]

/-- Reads hexadecimal digits, after a plus sign if there is one, as sixteen bits. -/
def readBits? (cs : List Char) : Option (BitVec 16) :=
  let digits := match cs with
    | '+' :: rest => rest
    | cs => cs
  if digits.isEmpty then none
  else (Text.Hex.read? digits).bind (fun n => if n < Nat.pow 2 16 then some (BitVec.ofNat 16 n) else none)

/-- Reads one part: a kind or bits in hexadecimal. -/
def readPart? (cs : List Char) : Option (BitVec 16) :=
  match Text.trim cs with
  | '0' :: 'x' :: rest => readBits? rest
  | name => (all.find? (fun k => k.capitals.toList = name)).map flag

/-- Reads a set of kinds. -/
def flagsOfText? (s : String) : Option (BitVec 16) :=
  let cs := s.toList
  if (Text.trim cs).isEmpty then some 0
  else ((splitBars cs).mapM readPart?).map (·.foldl (· ||| ·) 0)

end UnionScript.Kind
