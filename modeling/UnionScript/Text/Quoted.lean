/-!
# Quoted texts

Inside single quotes a quote is written twice, so the first quote that stands alone ends the text.
-/

namespace UnionScript.Text.Quoted

/-- The quote. -/
def mark : Char := '\x27'

/-- The text with every quote doubled. -/
def encode : List Char → List Char
  | [] => []
  | c :: rest => if c = mark then mark :: mark :: encode rest else c :: encode rest

/-- The text in quotes. -/
def quote (s : String) : String :=
  "'" ++ String.ofList (encode s.toList) ++ "'"

end UnionScript.Text.Quoted
