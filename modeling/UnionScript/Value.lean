import UnionScript.Decimal.Positional
import UnionScript.Entity
import UnionScript.Text.Quoted
import UnionScript.Timestamp

/-!
# Values and their literals

A value is what one physical column holds.  Its literal is the text that stands for it in a
statement: bytes in hexadecimal, texts and timestamps in quotes, numbers in decimal.
-/

namespace UnionScript

/-- A value of a physical column. -/
inductive Value where
  | undefined
  | tag (byte : UInt8)
  | boolean (b : Bool)
  | numeric (x : Decimal.Double)
  | dateTime (t : Timestamp)
  | string (s : String)
  | binary (bytes : List UInt8)
  | uuid (i : Identity)
  | typeCode (code : TypeCode)
  | entity (e : Entity)
  | version (v : UInt64)
  | integer (n : Int64)
deriving DecidableEq, Repr

/-- The literal of a discriminator. -/
def discriminatorLiteral (byte : UInt8) : String :=
  Text.Hex.literal [byte]

/-- The literal of an object type; a negative code counts as zero. -/
def typeCodeLiteral (code : TypeCode) : String :=
  Text.Hex.literal (Text.Hex.bytes 4 code.toInt.toNat)

namespace Value

/-- The value has no kind. -/
def isUndefined : Value → Bool
  | .undefined => true
  | _ => false

/-- The kind of a value. -/
def kind? : Value → Option Kind
  | .undefined | .typeCode _ => none
  | .tag _ => some .tag
  | .boolean _ => some .boolean
  | .numeric _ => some .numeric
  | .dateTime _ => some .dateTime
  | .string _ => some .string
  | .binary _ => some .binary
  | .uuid _ => some .uuid
  | .entity _ => some .entity
  | .version _ => some .version
  | .integer _ => some .integer

/-- The literal of a value. -/
def literal : Value → String
  | .undefined => "NULL"
  | .tag byte => discriminatorLiteral byte
  | .boolean b => discriminatorLiteral (if b then 1 else 0)
  | .numeric x => x.text
  | .dateTime t => Text.Quoted.quote (t.dateText ++ " " ++ t.timeText)
  | .string s => "N" ++ Text.Quoted.quote s
  | .binary bytes => Text.Hex.literal bytes
  | .uuid i => Text.Hex.literal i.bytes
  | .typeCode code => typeCodeLiteral code
  | .entity e => Text.Hex.literal e.identity.bytes
  | .version v => Text.Hex.literal (Text.Hex.bytes 8 v.toNat)
  | .integer n => toString n.toInt

end Value

namespace Purpose

/-- What a column holds while its kind is not the current one. -/
def defaultValue : Purpose → Value
  | .tag => .tag Kind.undefinedDiscriminator
  | .boolean => .boolean false
  | .numeric => .numeric ⟨0⟩
  | .dateTime => .dateTime Timestamp.epoch
  | .string => .string ""
  | .binary => .binary []
  | .uuid => .uuid Identity.nil
  | .typeCode => .typeCode TypeCode.any
  | .entity => .entity Entity.undefined
  | .version => .version 0
  | .integer => .integer 0

/-- The literal of what a column holds while its kind is not the current one. -/
def defaultLiteral (p : Purpose) : String :=
  p.defaultValue.literal

/-- The kind of value that a column stores; a discriminator and an object type are none. -/
def kind? (p : Purpose) : Option Kind :=
  if p = .tag then none else p.defaultValue.kind?

end Purpose

end UnionScript
