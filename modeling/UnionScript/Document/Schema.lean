import UnionScript.Document.Flags
import UnionScript.Document.Format
import UnionScript.Schema.Catalog
import UnionScript.Timestamp.Iso
import UnionScript.Value

/-!
# Documents of types, values and schemas

Nothing but the form is checked: a definition that is read need not be well-formed, and a catalog
holds what stands under each key.
-/

namespace UnionScript

namespace Format

/-- Kinds, by name. -/
def kind : Format Kind := named Kind.name Kind.ofName?

/-- Purposes, by name. -/
def purpose : Format Purpose := named Purpose.name Purpose.ofName?

/-- Sets of kinds. -/
def flags : Format (BitVec 16) := viaText Kind.flagsText Kind.flagsOfText?

/-- Identities. -/
def identity : Format Identity := viaText Identity.text (fun s => Identity.ofText? s.toList)

/-- Timestamps. -/
def timestamp : Format Timestamp :=
  viaText Timestamp.isoText (fun s => Timestamp.ofIso? s.toList)

/-- Union types. -/
def unionType : Format UnionType where
  write t := .record [("flags", flags.write t.flags), ("type_code", int32.write t.code)]
  read? d := do
    let [some f, some c] ← d.fields? ["flags", "type_code"] | none
    return ⟨← flags.read? f, ← int32.read? c⟩

/-- Entities. -/
def entity : Format Entity where
  write e := .record [("type_code", int32.write e.code), ("identity", identity.write e.identity)]
  read? d := do
    let [some c, some i] ← d.fields? ["type_code", "identity"] | none
    return ⟨← int32.read? c, ← identity.read? i⟩

/-- Values: the undefined one by name, all others with their content. -/
def value : Format Value where
  write
    | .undefined => .text "Undefined"
    | .tag byte => .record [("Tag", uint8.write byte)]
    | .boolean b => .record [("Boolean", bool.write b)]
    | .numeric x => .record [("Numeric", double.write x)]
    | .dateTime t => .record [("DateTime", timestamp.write t)]
    | .string s => .record [("String", text.write s)]
    | .binary bytes => .record [("Binary", (list uint8).write bytes)]
    | .uuid i => .record [("Uuid", identity.write i)]
    | .typeCode code => .record [("TypeCode", int32.write code)]
    | .entity e => .record [("Entity", entity.write e)]
    | .version v => .record [("Version", uint64.write v)]
    | .integer n => .record [("Integer", int64.write n)]
  read?
    | .text name => if name = "Undefined" then some .undefined else none
    | d => do
      let (name, content) ← d.content?
      match name with
      | "Undefined" => if content.isNull then some .undefined else none
      | "Tag" => (uint8.read? content).map .tag
      | "Boolean" => (bool.read? content).map .boolean
      | "Numeric" => (double.read? content).map .numeric
      | "DateTime" => (timestamp.read? content).map .dateTime
      | "String" => (text.read? content).map .string
      | "Binary" => ((list uint8).read? content).map .binary
      | "Uuid" => (identity.read? content).map .uuid
      | "TypeCode" => (int32.read? content).map .typeCode
      | "Entity" => (entity.read? content).map .entity
      | "Version" => (uint64.read? content).map .version
      | "Integer" => (int64.read? content).map .integer
      | _ => none

/-- Properties. -/
def property : Format Property where
  write p := .record [("name", text.write p.name), ("column_name", text.write p.column),
    ("union_type", unionType.write p.type)]
  read? d := do
    let [some n, some c, some t] ← d.fields? ["name", "column_name", "union_type"] | none
    return ⟨← text.read? n, ← text.read? c, ← unionType.read? t⟩

/-- Object definitions. -/
def definition : Format Definition where
  write d := .record [("type_code", int32.write d.code), ("name", text.write d.name),
    ("table_name", text.write d.table), ("properties", (list property).write d.properties)]
  read? d := do
    let [some c, some n, some t, some p] ←
      d.fields? ["type_code", "name", "table_name", "properties"] | none
    return ⟨← int32.read? c, ← text.read? n, ← text.read? t, ← (list property).read? p⟩

/-- Members of enumerations. -/
def enumMember : Format EnumMember where
  write m := .record [("enum_name", text.write m.enumeration), ("name", text.write m.name),
    ("type_code", int32.write m.code), ("identity", identity.write m.identity)]
  read? d := do
    let [some e, some n, some c, some i] ←
      d.fields? ["enum_name", "name", "type_code", "identity"] | none
    return ⟨← text.read? e, ← text.read? n, ← int32.read? c, ← identity.read? i⟩

/-- Catalogs; the members of enumerations may be left out. -/
def catalog : Format Catalog where
  write c := .record [("objects", (directory definition).write c.objects),
    ("enum_members", (directory enumMember).write c.members)]
  read? d := do
    let [some o, m] ← d.fields? ["objects", "enum_members"] | none
    let objects ← (directory definition).read? o
    match m with
    | some m => return ⟨objects, ← (directory enumMember).read? m⟩
    | none => return ⟨objects, .empty⟩

end Format

end UnionScript
