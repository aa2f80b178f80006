import UnionScript.Directory
import UnionScript.Entity
import UnionScript.Schema.Definition

/-!
# Catalogs

A catalog registers objects by name and members of enumerations by their qualified name.  Names are
kept lower-cased, and nothing that is registered is ever replaced: an object is refused when its
name or its positive code is taken, a member when its name is.
-/

namespace UnionScript

/-- A member of an enumeration. -/
structure EnumMember where
  enumeration : String
  name : String
  code : TypeCode
  identity : Identity
deriving DecidableEq, Repr

/-- The reference that a member stands for. -/
def EnumMember.value (m : EnumMember) : Entity :=
  ⟨m.code, m.identity⟩

/-- The registered objects and members of enumerations, under their keys. -/
structure Catalog where
  objects : Directory String Definition
  members : Directory String EnumMember

namespace Catalog

/-- The catalog without entries. -/
def empty : Catalog := ⟨.empty, .empty⟩

/-- The object of a name. -/
def object? (c : Catalog) (name : String) : Option Definition :=
  c.objects.find? (nameKey name)

/-- The object that references with a code lead to. -/
def objectOfCode? (c : Catalog) (code : TypeCode) : Option Definition :=
  c.objects.values.find? (fun d => d.code == code)

/-- The member of a qualified name. -/
def member? (c : Catalog) (name : String) : Option EnumMember :=
  c.members.find? (nameKey name)

/-- Registers an object. -/
def addObject (c : Catalog) (d : Definition) : Except SchemaFault Catalog :=
  if c.objects.contains (nameKey d.name) then .error (.objectExists d.name)
  else if TypeCode.any < d.code ∧ (c.objectOfCode? d.code).isSome then
    .error (.codeInUse d.code d.name)
  else .ok { c with objects := c.objects.insert (nameKey d.name) d }

/-- The key of a member of an enumeration. -/
def memberKey (enumeration member : String) : String :=
  nameKey (enumeration ++ "." ++ member)

/-- Registers members of an enumeration up to the first whose name is taken, and says so. -/
def addMembers (enumeration : String) (code : TypeCode) :
    List (String × Identity) → Catalog → Catalog × Option SchemaFault
  | [], c => (c, none)
  | (member, identity) :: rest, c =>
    let key := memberKey enumeration member
    if c.members.contains key then (c, some (.duplicateMember enumeration member))
    else
      addMembers enumeration code rest
        { c with members := c.members.insert key ⟨enumeration, member, code, identity⟩ }

end Catalog

/-- Where names of a script are looked up.  A look-up may fail with any error. -/
structure Provider where
  object : String → Except Error (Option Definition)
  member : String → Except Error (Option EnumMember)

/-- A catalog as a provider: it never fails. -/
def Catalog.toProvider (c : Catalog) : Provider :=
  ⟨fun name => .ok (c.object? name), fun name => .ok (c.member? name)⟩

end UnionScript
