import UnionScript.Error
import UnionScript.UnionType

/-!
# Object definitions

A schema object is a table with named, typed properties; record types of variables are defined the
same way.  Property names are told apart without regard to case.  A well-formed object has a
property, and no two of one name.
-/

namespace UnionScript

/-- A property of an object: its name, the base name of its physical columns and its type. -/
structure Property where
  name : String
  column : String
  type : UnionType
deriving DecidableEq, Repr

/-- A property as it is stored: unions have a discriminator. -/
def Property.ofType (name column : String) (type : UnionType) : Property :=
  ⟨name, column, if type.isUnion then type.withTag else type⟩

/-- A schema object: the code of references to it, its name, its physical table and its properties
in the order of their declaration. -/
structure Definition where
  code : TypeCode
  name : String
  table : String
  properties : List Property
deriving DecidableEq, Repr

/-- What a schema does not accept. -/
inductive SchemaFault where
  | noProperties (object : String)
  | duplicateProperty (property object : String)
  | objectExists (object : String)
  | codeInUse (code : TypeCode) (object : String)
  | duplicateMember (enumeration member : String)
deriving DecidableEq, Repr

namespace SchemaFault

/-- The wording of a fault. -/
def detail : SchemaFault → String
  | .noProperties object => "Object '" ++ object ++ "' must have at least one property"
  | .duplicateProperty property object =>
    "Duplicate property name '" ++ property ++ "' in '" ++ object ++ "'"
  | .objectExists object => "Object '" ++ object ++ "' already exists"
  | .codeInUse code object =>
    "Type code " ++ toString code.toInt ++ " of '" ++ object ++ "' is already in use"
  | .duplicateMember enumeration member =>
    "Duplicate enumeration member '" ++ enumeration ++ "." ++ member ++ "'"

/-- A fault as an error. -/
def toError (fault : SchemaFault) : Error :=
  .schema fault.detail

end SchemaFault

namespace Definition

/-- The first property whose name is among the keys seen before it. -/
def firstRepeated? (seen : List String) : List Property → Option Property
  | [] => none
  | p :: rest =>
    if nameKey p.name ∈ seen then some p else firstRepeated? (nameKey p.name :: seen) rest

/-- What is wrong with a definition. -/
def fault? (d : Definition) : Option SchemaFault :=
  if d.properties.isEmpty then some (.noProperties d.name)
  else (firstRepeated? [] d.properties).map (fun p => .duplicateProperty p.name d.name)

/-- A definition that is well-formed, or what is wrong with it. -/
def check (d : Definition) : Except SchemaFault Definition :=
  match d.fault? with
  | some fault => .error fault
  | none => .ok d

/-- The position of the first property of a name. -/
def indexOf? (d : Definition) (name : String) : Option Nat :=
  d.properties.findIdx? (fun p => sameName p.name name)

/-- The first property of a name. -/
def property? (d : Definition) (name : String) : Option Property :=
  d.properties.find? (fun p => sameName p.name name)

end Definition

end UnionScript
