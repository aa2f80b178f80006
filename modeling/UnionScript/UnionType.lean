import UnionScript.Kind
import UnionScript.Purpose

/-!
# Union types

A union type is the set of kinds that a value may have and, for references, the code of the
referenced object type: unassigned while no reference is admitted, any object type, or exactly one.
Types are merged when a value may come from several places: the kinds are joined, and two
different codes make a reference to any object type.

A set of kinds may hold bits that stand for no kind.  They are kept, make the type defined, and
count nowhere else.
-/

namespace UnionScript

/-- The code of a referenced object type. -/
abbrev TypeCode := Int32

namespace TypeCode

/-- No reference is admitted. -/
def unassigned : TypeCode := -1

/-- The reference may lead to any object type. -/
def any : TypeCode := 0

/-- Joins two codes: an unassigned one adds nothing, different ones leave any object type. -/
def merge (left right : TypeCode) : TypeCode :=
  if left = unassigned then right
  else if right = unassigned then left
  else if left = right then left
  else any

end TypeCode

/-- The kinds that a value may have and the code of its reference. -/
structure UnionType where
  flags : BitVec 16
  code : TypeCode
deriving DecidableEq, Repr

namespace UnionType

/-- The type of a value without a kind. -/
def undefined : UnionType := ⟨0, TypeCode.unassigned⟩

instance : Inhabited UnionType := ⟨undefined⟩

/-- The kind is admitted. -/
def has (t : UnionType) (k : Kind) : Bool :=
  t.flags.getLsbD k.bit

/-- A set of kinds; a reference in it may lead to any object type. -/
def ofFlags (flags : BitVec 16) : UnionType :=
  ⟨flags, if flags.getLsbD Kind.entity.bit then TypeCode.any else TypeCode.unassigned⟩

/-- A single kind. -/
def ofKind (k : Kind) : UnionType :=
  ofFlags k.flag

/-- References with a given code; a negative code stands for any object type. -/
def entity (code : TypeCode) : UnionType :=
  ⟨Kind.entity.flag, if code < TypeCode.any then TypeCode.any else code⟩

/-- The type of values that have either of two types. -/
def merge (t u : UnionType) : UnionType :=
  ⟨t.flags ||| u.flags, TypeCode.merge t.code u.code⟩

/-- The type of values that have one of several types. -/
def mergeAll (types : List UnionType) : UnionType :=
  types.foldl merge undefined

/-- The type of values that have one of several kinds. -/
def ofKinds (kinds : List Kind) : UnionType :=
  mergeAll (kinds.map ofKind)

/-- One more kind is admitted. -/
def add (t : UnionType) (k : Kind) : UnionType :=
  t.merge (ofKind k)

/-- The same type stored with a discriminator. -/
def withTag (t : UnionType) : UnionType :=
  { t with flags := t.flags ||| Kind.tag.flag }

/-- The kinds of values that are admitted, in storage order. -/
def valueKinds (t : UnionType) : List Kind :=
  Kind.values.filter t.has

/-- Nothing is admitted. -/
def isUndefined (t : UnionType) : Bool :=
  t.flags == 0

/-- More than one kind of value is admitted, or references to more than one object type. -/
def isUnion (t : UnionType) : Bool :=
  1 < t.valueKinds.length || (t.has .entity && t.code == TypeCode.any)

/-- The only kind of value of a type that is no union. -/
def singleKind? (t : UnionType) : Option Kind :=
  if t.isUnion then none else t.valueKinds.head?

/-- The only object type that a value can refer to, when it is a reference and nothing else. -/
def singleReference? (t : UnionType) : Option TypeCode :=
  if t.singleKind? = some .entity ∧ TypeCode.any < t.code then some t.code else none

/-- Values are stored with a discriminator. -/
def needsDiscriminator (t : UnionType) : Bool :=
  t.isUnion || t.has .tag

/-- The physical columns of one kind: a reference in a union also stores its object type. -/
def kindPurposes (union : Bool) (k : Kind) : List Purpose :=
  if k = .entity ∧ union then [.typeCode, .entity] else [Purpose.ofKind k]

/-- The physical columns of a type, in storage order. -/
def purposes (t : UnionType) : List Purpose :=
  (if t.needsDiscriminator then [Purpose.tag] else []) ++
    t.valueKinds.flatMap (kindPurposes t.isUnion)

/-- The text of a type: its kinds joined by bars, a reference with its code. -/
def text (t : UnionType) : String :=
  if t.isUndefined then "Undefined"
  else
    let part (k : Kind) : String :=
      if k = .entity then "Entity(" ++ toString t.code.toInt ++ ")" else k.name
    "|".intercalate ((Kind.all.filter t.has).map part)

end UnionType

end UnionScript
