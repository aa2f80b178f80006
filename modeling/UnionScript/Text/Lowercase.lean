import UnionScript.Text.CaseContext
import UnionScript.Text.CaseRun

/-!
# Lower-casing of whole texts

Every letter goes to its lower case.  Two letters need more than a table: the dotted capital I
becomes a small i with a combining dot above, and a capital sigma becomes the final sigma at the
end of a word.  A word ends at a sigma when the nearest letter before it is cased and the
nearest letter after it is not, passing over marks and word-internal punctuation.
-/

namespace UnionScript.Text

/-- The lower case of a letter wherever it stands. -/
def lowerChar (c : Char) : List Char :=
  if c = 'İ' then ['i', '\u0307'] else [Char.ofNat (lowerPoint c.toNat)]

/-- The first character that is not passed over is cased. -/
def meetsCased (cs : List Char) : Bool :=
  match cs.dropWhile isCaseIgnorable with
  | c :: _ => isCased c
  | [] => false

/-- The small sigma for a capital one between `before`, nearest character first, and `after`. -/
def lowerSigma (before after : List Char) : Char :=
  if meetsCased before && !meetsCased after then 'ς' else 'σ'

/-- Lower case of the rest of a text, given what stands before it, nearest character first. -/
def lowerAfter (before : List Char) : List Char → List Char
  | [] => []
  | c :: rest =>
    (if c = 'Σ' then [lowerSigma before rest] else lowerChar c) ++ lowerAfter (c :: before) rest

/-- The lower case of a text. -/
def lowercase (s : String) : String :=
  String.ofList (lowerAfter [] s.toList)

/-- The lower case of a text when only the ASCII letters have one. -/
def asciiLowercase (s : String) : String :=
  String.ofList (s.toList.map Char.toLower)

end UnionScript.Text
