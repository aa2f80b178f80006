/-!
# Errors

An error belongs to one of five areas and says what went wrong there.  The areas that this library
reports itself have their own types of faults, each of which knows its wording; a schema that is
looked up elsewhere may fail with any of them.
-/

namespace UnionScript

/-- The kind of name that was looked for. -/
inductive NameKind where
  | table
  | column
  | variable
  | type
deriving DecidableEq, Repr

/-- The word for a kind of name. -/
def NameKind.text : NameKind → String
  | .table => "table"
  | .column => "column"
  | .variable => "variable"
  | .type => "type"

/-- What binding reports and goes on, or stops with when the schema fails. -/
inductive Diagnostic where
  | unresolved (kind : NameKind) (identifier : String)
  | schema (detail : String)
deriving DecidableEq, Repr

namespace Diagnostic

/-- The wording of a diagnostic. -/
def message : Diagnostic → String
  | .unresolved kind identifier => "Failed to bind [" ++ kind.text ++ ": " ++ identifier ++ "]"
  | .schema detail => "Schema lookup failed: " ++ detail

/-- The name that could not be resolved. -/
def identifier? : Diagnostic → Option String
  | .unresolved _ identifier => some identifier
  | .schema _ => none

end Diagnostic

/-- An error, by area. -/
inductive Error where
  | schema (detail : String)
  | structural (detail : String)
  | bind (detail : String)
  | mapping (detail : String)
  | invalidLiteral (literal detail : String)
deriving DecidableEq, Repr

namespace Error

/-- The wording of an error. -/
def message : Error → String
  | .schema detail => "Schema error: " ++ detail
  | .structural detail => "Structural error: " ++ detail
  | .bind detail => "Bind error: " ++ detail
  | .mapping detail => "Mapping error: " ++ detail
  | .invalidLiteral literal detail => "Invalid literal '" ++ literal ++ "': " ++ detail

/-- A diagnostic as an error. -/
def ofDiagnostic (d : Diagnostic) : Error :=
  .bind d.message

/-- Several diagnostics as one error. -/
def ofDiagnostics (ds : List Diagnostic) : Error :=
  .bind ("; ".intercalate (ds.map Diagnostic.message))

/-- What a schema look-up is reported with when it failed with this error. -/
def asSchemaDetail : Error → String
  | .schema detail => detail
  | e => e.message

end Error

end UnionScript
