import UnionScript.Kind

/-!
# Purposes of physical columns

A stored value takes one column for its discriminator, one for each admitted kind, and one for the
object type of a reference that may lead to several.  The purpose of a column fixes the ending of
its name and its database type.
-/

namespace UnionScript

/-- What a physical column stores. -/
inductive Purpose where
  | tag
  | boolean
  | numeric
  | dateTime
  | string
  | binary
  | uuid
  | typeCode
  | entity
  | version
  | integer
deriving DecidableEq, Repr

namespace Purpose

/-- The purposes in storage order. -/
def all : List Purpose :=
  [.tag, .boolean, .numeric, .dateTime, .string, .binary, .uuid, .typeCode, .entity, .version,
    .integer]

/-- The name of a purpose. -/
def name : Purpose → String
  | .tag => "Tag"
  | .boolean => "Boolean"
  | .numeric => "Numeric"
  | .dateTime => "DateTime"
  | .string => "String"
  | .binary => "Binary"
  | .uuid => "Uuid"
  | .typeCode => "TypeCode"
  | .entity => "Entity"
  | .version => "Version"
  | .integer => "Integer"

/-- The purpose of a given name. -/
def ofName? (name : String) : Option Purpose :=
  all.find? (fun p => p.name == name)

/-- The column that stores values of a kind. -/
def ofKind : Kind → Purpose
  | .tag => .tag
  | .boolean => .boolean
  | .numeric => .numeric
  | .dateTime => .dateTime
  | .string => .string
  | .binary => .binary
  | .uuid => .uuid
  | .entity => .entity
  | .version => .version
  | .integer => .integer

/-- The ending of a column name in a union. -/
def unionEnding : Purpose → String
  | .tag => "_TYPE"
  | .typeCode => "_RTRef"
  | .entity => "_RRRef"
  | .boolean => "_L"
  | .numeric => "_N"
  | .dateTime => "_T"
  | .string => "_S"
  | .binary => "_B"
  | .uuid => "_U"
  | .version => "_V"
  | .integer => "_I"

/-- The ending of a column name outside of unions: values of one kind take the bare name. -/
def singleEnding : Purpose → String
  | .tag => "_TYPE"
  | .typeCode => "_RTRef"
  | .entity => "RRef"
  | _ => ""

/-- The ending of a column name. -/
def ending (union : Bool) (p : Purpose) : String :=
  if union then p.unionEnding else p.singleEnding

/-- The database type of a column. -/
def databaseType : Purpose → String
  | .tag | .boolean => "binary(1)"
  | .numeric => "numeric(19,5)"
  | .dateTime => "datetime2"
  | .string => "nvarchar(max)"
  | .binary => "varbinary(max)"
  | .uuid | .entity => "binary(16)"
  | .typeCode => "binary(4)"
  | .version => "binary(8)"
  | .integer => "bigint"

end Purpose

end UnionScript
