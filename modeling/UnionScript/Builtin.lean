import UnionScript.Kind

/-!
# Built-in functions

Some functions have a fixed kind of result whatever their arguments are.  They are known by name,
in any case of its ASCII letters.
-/

namespace UnionScript

/-- A function with a fixed kind of result. -/
structure Builtin where
  name : String
  result : Kind
deriving DecidableEq, Repr

namespace Builtin

/-- The functions with a fixed kind of result. -/
def all : List Builtin := [
  ⟨"COUNT", .integer⟩, ⟨"ROW_NUMBER", .version⟩, ⟨"SUBSTRING", .string⟩, ⟨"CONCAT", .string⟩,
  ⟨"LOWER", .string⟩, ⟨"UPPER", .string⟩, ⟨"LTRIM", .string⟩, ⟨"RTRIM", .string⟩,
  ⟨"REPLACE", .string⟩, ⟨"CHARLENGTH", .integer⟩, ⟨"NOW", .dateTime⟩, ⟨"UTC", .dateTime⟩,
  ⟨"DATEADD", .dateTime⟩, ⟨"UUIDOF", .uuid⟩, ⟨"TYPEOF", .integer⟩]

/-- The function of a given name. -/
def find? (name : String) : Option Builtin :=
  all.find? (fun f => sameAscii f.name name)

end Builtin

end UnionScript
