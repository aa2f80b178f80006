import UnionScript.Text.Lowercase

/-!
# Names

Names of a schema or a script are the same when they differ only in case, so every table of names
is kept under their lower-cased form.  The names `inserted` and `deleted` stand for the rows of the
statement at hand.
-/

namespace UnionScript

/-- The form under which a name is registered and looked up. -/
def nameKey (name : String) : String :=
  Text.lowercase name

/-- Two names are the same up to case. -/
def sameName (left right : String) : Bool :=
  nameKey left == nameKey right

/-- Two texts are the same up to the case of ASCII letters. -/
def sameAscii (left right : String) : Bool :=
  Text.asciiLowercase left == Text.asciiLowercase right

/-- The name stands for the rows of the statement at hand. -/
def isPseudoTable (name : String) : Bool :=
  sameAscii name "inserted" || sameAscii name "deleted"

/-- A dotted name cut at its last dot into qualifier and last part; the qualifier of a plain name
is empty. -/
def splitQualified (name : String) : String × String :=
  let reversed := name.toList.reverse
  let last := reversed.takeWhile (· != '.')
  (String.ofList (reversed.drop (last.length + 1)).reverse, String.ofList last.reverse)

/-- The last part of a dotted name. -/
def lastPart (name : String) : String :=
  (splitQualified name).2

/-- A variable name without its leading at-signs. -/
def bareVariable (name : String) : String :=
  String.ofList (name.toList.dropWhile (· == '@'))

end UnionScript
