import UnionScript.Decimal.Signed
import UnionScript.Error
import UnionScript.Identity
import UnionScript.Text.Blank
import UnionScript.UnionType

/-!
# Entities

An entity is a reference to a row: the code of its object type and its identity.  Its text is the
two in braces with a colon between them.  On reading, blanks may surround the whole, the code and
the identity.
-/

namespace UnionScript

/-- A reference to a row of an object type. -/
structure Entity where
  code : TypeCode
  identity : Identity
deriving DecidableEq, Repr

/-- Why a text is no entity. -/
inductive EntityFault where
  | notBraced
  | noSeparator
  | badCode (fault : Decimal.IntegerFault)
  | badIdentity
deriving DecidableEq, Repr

/-- The wording of a fault. -/
def EntityFault.message : EntityFault → String
  | .notBraced => "expected \x7bcode:uuid\x7d"
  | .noSeparator => "missing ':' separator"
  | .badCode fault => "bad type code: " ++ fault.message
  | .badIdentity => "bad identity"

namespace Entity

/-- The reference to nothing. -/
def undefined : Entity := ⟨0, Identity.nil⟩

instance : Inhabited Entity := ⟨undefined⟩

/-- The reference to no row of a given object type. -/
def ofType (code : TypeCode) : Entity := ⟨code, Identity.nil⟩

/-- The reference leads nowhere. -/
def isUndefined (e : Entity) : Bool :=
  e == undefined

/-- The text of an entity. -/
def text (e : Entity) : String :=
  "\x7b" ++ toString e.code.toInt ++ ":" ++ e.identity.text ++ "\x7d"

/-- Cuts a text at its first colon. -/
def splitColon? (cs : List Char) : Option (List Char × List Char) :=
  match cs.dropWhile (· != ':') with
  | _ :: rest => some (cs.takeWhile (· != ':'), rest)
  | [] => none

/-- Reads an entity. -/
def read (cs : List Char) : Except EntityFault Entity := do
  let some inner := Identity.braced? (Text.trim cs) | throw .notBraced
  let some (code, identity) := splitColon? inner | throw .noSeparator
  let code ← (Decimal.readInt32 (Text.trim code)).mapError EntityFault.badCode
  let some identity := Identity.ofText? (Text.trim identity) | throw .badIdentity
  return ⟨code, identity⟩

/-- Reads an entity; a text that is none is an invalid literal. -/
def ofText (s : String) : Except Error Entity :=
  (read s.toList).mapError (fun fault => .invalidLiteral s fault.message)

end Entity

end UnionScript
