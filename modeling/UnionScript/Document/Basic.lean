import UnionScript.Decimal.Numeral

/-!
# Documents

A document is plain structured data: nothing, a truth value, a number, a text, a list or a record
of named fields.  Whole numbers and numbers with a fractional part are told apart.
-/

namespace UnionScript

/-- Plain structured data. -/
inductive Document where
  | null
  | bool (b : Bool)
  | integer (n : Int)
  | real (x : Decimal.Double)
  | text (s : String)
  | list (items : List Document)
  | record (fields : List (String × Document))

namespace Document

/-- The field of a record under a name. -/
def field? : Document → String → Option Document
  | .record fields, name => (fields.find? (fun f => f.1 == name)).map Prod.snd
  | _, _ => none

/-- A written number as a document, if it is not too great for one. -/
def ofNumeral? (n : Decimal.Numeral) : Option Document :=
  match n.integer? with
  | some i => some (.integer i)
  | none => n.double?.map .real

end Document

end UnionScript
