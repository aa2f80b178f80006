import UnionScript.Document.Schema
import UnionScript.Transfer.Rule

/-!
# Documents of layouts and transfer rules
-/

namespace UnionScript

namespace Format

/-- Physical columns. -/
def column : Format Column where
  write c := .record [("ordinal", count.write c.ordinal), ("name", text.write c.name),
    ("type_literal", text.write c.databaseType), ("purpose", purpose.write c.purpose)]
  read? d := do
    let [some o, some n, some t, some p] ←
      d.fields? ["ordinal", "name", "type_literal", "purpose"] | none
    return ⟨← count.read? o, ← text.read? n, ← text.read? t, ← purpose.read? p⟩

/-- Columns of a property. -/
def propertyLayout : Format PropertyLayout where
  write p := .record [("name", text.write p.name), ("union_type", unionType.write p.type),
    ("columns", (list column).write p.columns)]
  read? d := do
    let [some n, some t, some c] ← d.fields? ["name", "union_type", "columns"] | none
    return ⟨← text.read? n, ← unionType.read? t, ← (list column).read? c⟩

/-- Layouts of rows. -/
def layout : Format Layout where
  write l := .record [("properties", (list propertyLayout).write l.properties)]
  read? d := do
    let [some p] ← d.fields? ["properties"] | none
    return ⟨← (list propertyLayout).read? p⟩

/-- Where the content of a column comes from. -/
def columnSource : Format ColumnSource where
  write
    | .column c => .record [("Column", column.write c)]
    | .discriminator byte => .record [("Discriminator", uint8.write byte)]
    | .typeCode code => .record [("TypeCode", int32.write code)]
    | .default p => .record [("Default", purpose.write p)]
  read? d := do
    let (name, content) ← d.content?
    match name with
    | "Column" => (column.read? content).map .column
    | "Discriminator" => (uint8.read? content).map .discriminator
    | "TypeCode" => (int32.read? content).map .typeCode
    | "Default" => (purpose.read? content).map .default
    | _ => none

/-- How a column is filled. -/
def columnRule : Format ColumnRule where
  write r := .record [("target", column.write r.target), ("source", columnSource.write r.source)]
  read? d := do
    let [some t, some s] ← d.fields? ["target", "source"] | none
    return ⟨← column.read? t, ← columnSource.read? s⟩

/-- How a property is filled. -/
def propertyRule : Format PropertyRule where
  write r := .record [("target", propertyLayout.write r.target),
    ("source", (option propertyLayout).write r.source), ("columns", (list columnRule).write r.columns)]
  read? d := do
    let [some t, s, some c] ← d.fields? ["target", "source", "columns"] | none
    return ⟨← propertyLayout.read? t, ← (option propertyLayout).read? (s.getD .null),
      ← (list columnRule).read? c⟩

end Format

end UnionScript
