import UnionScript.Schema.Definition

/-!
# Physical layouts

A row is stored as a sequence of physical columns.  Each of its properties takes the columns that
its type asks for, one after the other; a property of undefined type takes a discriminator, so that
no property is without a column.  Columns are numbered through the row.
-/

namespace UnionScript

/-- A physical column: its place in the row, its name, its database type and its purpose. -/
structure Column where
  ordinal : Nat
  name : String
  databaseType : String
  purpose : Purpose
deriving DecidableEq, Repr

/-- The columns of a property. -/
structure PropertyLayout where
  name : String
  type : UnionType
  columns : List Column
deriving DecidableEq, Repr

/-- The column of a property for a purpose. -/
def PropertyLayout.column? (p : PropertyLayout) (purpose : Purpose) : Option Column :=
  p.columns.find? (fun c => c.purpose = purpose)

/-- The properties of a row with their columns. -/
structure Layout where
  properties : List PropertyLayout := []
deriving DecidableEq, Repr

/-- A property that is to be laid out: its name, the base name of its columns and its type. -/
structure Field where
  name : String
  base : String
  type : UnionType
deriving DecidableEq, Repr

namespace Field

/-- The columns that a property takes. -/
def purposes (f : Field) : List Purpose :=
  if f.type.isUndefined then [.tag] else f.type.purposes

/-- The column of a property for a purpose, at a place in the row. -/
def column (f : Field) (purpose : Purpose) (ordinal : Nat) : Column :=
  ⟨ordinal, f.base ++ purpose.ending f.type.isUnion, purpose.databaseType, purpose⟩

/-- The columns of a property from a place in the row on. -/
def layout (f : Field) (start : Nat) : PropertyLayout :=
  ⟨f.name, f.type, (f.purposes.zipIdx start).map (fun p => f.column p.1 p.2)⟩

end Field

namespace Layout

/-- Lays out properties from a place in the row on. -/
def place (start : Nat) : List Field → List PropertyLayout
  | [] => []
  | f :: rest => f.layout start :: place (start + f.purposes.length) rest

/-- The layout of a row with given properties. -/
def ofFields (fields : List Field) : Layout :=
  ⟨place 0 fields⟩

/-- The layout of a schema object. -/
def ofDefinition (d : Definition) : Layout :=
  ofFields (d.properties.map (fun p => ⟨p.name, p.column, p.type⟩))

/-- The first property of a name. -/
def property? (l : Layout) (name : String) : Option PropertyLayout :=
  l.properties.find? (fun p => sameName p.name name)

/-- The columns of a row. -/
def columns (l : Layout) : List Column :=
  l.properties.flatMap PropertyLayout.columns

end Layout

end UnionScript
