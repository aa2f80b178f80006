import UnionScript.Name

/-!
# Kinds of values

A union type admits some of nine kinds of values.  The tenth member of the list is the
discriminator, which says of a stored value which kind it has at the moment.  The order of the
list is the order in which the physical columns of a union stand.
-/

namespace UnionScript

/-- The discriminator and the nine kinds of values. -/
inductive Kind where
  | tag
  | boolean
  | numeric
  | dateTime
  | string
  | binary
  | uuid
  | entity
  | version
  | integer
deriving DecidableEq, Repr

namespace Kind

/-- The kinds in storage order, the discriminator first. -/
def all : List Kind :=
  [.tag, .boolean, .numeric, .dateTime, .string, .binary, .uuid, .entity, .version, .integer]

/-- The kinds of values in storage order. -/
def values : List Kind :=
  [.boolean, .numeric, .dateTime, .string, .binary, .uuid, .entity, .version, .integer]

/-- The bit that stands for a kind in a set of kinds. -/
def bit : Kind → Nat
  | .tag => 0
  | .boolean => 1
  | .numeric => 2
  | .dateTime => 3
  | .string => 4
  | .binary => 5
  | .uuid => 6
  | .entity => 7
  | .version => 8
  | .integer => 9

/-- The set that holds just this kind. -/
def flag (k : Kind) : BitVec 16 :=
  BitVec.twoPow 16 k.bit

/-- The name of a kind. -/
def name : Kind → String
  | .tag => "Tag"
  | .boolean => "Boolean"
  | .numeric => "Numeric"
  | .dateTime => "DateTime"
  | .string => "String"
  | .binary => "Binary"
  | .uuid => "Uuid"
  | .entity => "Entity"
  | .version => "Version"
  | .integer => "Integer"

/-- The kind of a given name. -/
def ofName? (name : String) : Option Kind :=
  all.find? (fun k => k.name == name)

/-- The byte that marks a stored value as undefined. -/
def undefinedDiscriminator : UInt8 := 1

/-- The byte that marks a stored value as a reference. -/
def entityDiscriminator : UInt8 := 8

/-- The byte that marks a stored value as one of this kind; some kinds have none. -/
def discriminator? : Kind → Option UInt8
  | .boolean => some 2
  | .numeric => some 3
  | .dateTime => some 4
  | .string => some 5
  | .entity => some entityDiscriminator
  | .tag | .binary | .uuid | .version | .integer => none

/-- The kind that a declaration names, in any case of its ASCII letters. -/
def ofTypeName? (name : String) : Option Kind :=
  match Text.asciiLowercase name with
  | "boolean" => some .boolean
  | "number" | "decimal" | "numeric" => some .numeric
  | "datetime" => some .dateTime
  | "string" => some .string
  | "binary" => some .binary
  | "uuid" => some .uuid
  | "entity" => some .entity
  | "version" => some .version
  | "integer" => some .integer
  | _ => none

end Kind

end UnionScript
