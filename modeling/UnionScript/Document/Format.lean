import UnionScript.Directory
import UnionScript.Document.Basic

/-!
# Formats

A format says how values of a type are written as documents and read back.  What is no written form
of a value is not read.

A structure is written as a record of its fields.  It is read by the names of the fields, in any
order and among others, or from a list that gives them in order.  A choice is written as the name of
the alternative, with what belongs to it as the only field of that name.
-/

namespace UnionScript

/-- How values of a type are written and read. -/
structure Format (α : Type) where
  write : α → Document
  read? : Document → Option α

namespace Document

/-- The named fields of a structure, each if it is there.  A list gives the first fields in order. -/
def fields? (names : List String) : Document → Option (List (Option Document))
  | .record fields =>
    some (names.map (fun name => (fields.find? (fun f => f.1 == name)).map Prod.snd))
  | .list items =>
    if names.length < items.length then none
    else some (items.map some ++ List.replicate (names.length - items.length) none)
  | _ => none

/-- The name of an alternative and what belongs to it. -/
def alternative? : Document → Option (String × Document)
  | .text name => some (name, .null)
  | .record [(name, content)] => some (name, content)
  | _ => none

/-- The content of an alternative that comes with some: a bare name has none. -/
def content? : Document → Option (String × Document)
  | .record [(name, content)] => some (name, content)
  | _ => none

/-- Nothing, written out. -/
def isNull : Document → Bool
  | .null => true
  | _ => false

end Document

namespace Format

variable {α : Type}

/-- Texts. -/
def text : Format String where
  write := .text
  read?
    | .text s => some s
    | _ => none

/-- Truth values. -/
def bool : Format Bool where
  write := .bool
  read?
    | .bool b => some b
    | _ => none

/-- Whole numbers of a range. -/
def whole (low high : Int) (toInt : α → Int) (ofInt : Int → α) : Format α where
  write a := .integer (toInt a)
  read?
    | .integer n => if low ≤ n ∧ n ≤ high then some (ofInt n) else none
    | _ => none

/-- Bytes. -/
def uint8 : Format UInt8 :=
  whole 0 (Int.pow 2 8 - 1) (fun n => n.toNat) (fun n => UInt8.ofNat n.toNat)

/-- Signed numbers of thirty-two bits. -/
def int32 : Format Int32 :=
  whole (-Int.pow 2 31) (Int.pow 2 31 - 1) Int32.toInt Int32.ofInt

/-- Signed numbers of sixty-four bits. -/
def int64 : Format Int64 :=
  whole (-Int.pow 2 63) (Int.pow 2 63 - 1) Int64.toInt Int64.ofInt

/-- Unsigned numbers of sixty-four bits. -/
def uint64 : Format UInt64 :=
  whole 0 (Int.pow 2 64 - 1) (fun n => n.toNat) (fun n => UInt64.ofNat n.toNat)

/-- Natural numbers that fit in sixty-four bits. -/
def count : Format Nat :=
  whole 0 (Int.pow 2 64 - 1) Int.ofNat Int.toNat

/-- Doubles; whole numbers are read as the nearest one. -/
def double : Format Decimal.Double where
  write := .real
  read?
    | .real x => some x
    | .integer n => some (Decimal.Double.ofDecimal (n < 0) n.natAbs 0)
    | _ => none

/-- Values that have a text. -/
def viaText (write : α → String) (read? : String → Option α) : Format α where
  write a := .text (write a)
  read?
    | .text s => read? s
    | _ => none

/-- Lists of values. -/
def list (f : Format α) : Format (List α) where
  write items := .list (items.map f.write)
  read?
    | .list items => items.mapM f.read?
    | _ => none

/-- Values that may be missing. -/
def option (f : Format α) : Format (Option α) where
  write a := (a.map f.write).getD .null
  read? d := if d.isNull then some none else (f.read? d).map some

/-- Values under names. -/
def directory (f : Format α) : Format (Directory String α) where
  write d := .record (d.entries.map (fun e => (e.1, f.write e.2)))
  read?
    | .record fields =>
      (fields.mapM (fun e => (f.read? e.2).map (fun a => (e.1, a)))).map Directory.ofList
    | _ => none

/-- Choices without content, by name. -/
def named (name : α → String) (ofName? : String → Option α) : Format α where
  write a := .text (name a)
  read? d := do
    let (name, content) ← d.alternative?
    if content.isNull then ofName? name else none

end Format

end UnionScript
