import UnionScript.Layout.Basic
import UnionScript.Layout.Fault
import UnionScript.Value

/-!
# Transfer rules

Rows are transferred property by property.  A column of the target is copied from the column of the
source that has the same purpose.  If the source has none, a discriminator and an object type are
made up from what is known of the source, and any other column takes its default.  A source of
undefined type is no source.
-/

namespace UnionScript

/-- Where the content of a column comes from. -/
inductive ColumnSource where
  | column (source : Column)
  | discriminator (byte : UInt8)
  | typeCode (code : TypeCode)
  | default (purpose : Purpose)
deriving DecidableEq, Repr

/-- The literal of what is not copied. -/
def ColumnSource.literal? : ColumnSource → Option String
  | .column _ => none
  | .discriminator byte => some (discriminatorLiteral byte)
  | .typeCode code => some (typeCodeLiteral code)
  | .default purpose => some purpose.defaultLiteral

/-- How a column is filled. -/
structure ColumnRule where
  target : Column
  source : ColumnSource
deriving DecidableEq, Repr

/-- How a property is filled. -/
structure PropertyRule where
  target : PropertyLayout
  source : Option PropertyLayout
  columns : List ColumnRule
deriving DecidableEq, Repr

namespace Transfer

/-- The discriminator that values of a source get in a target.  Values of a union or references count
as references, all others have the only kind of the source.  What the target does not admit is
undefined there. -/
def discriminatorFor (target : UnionType) (source : Option UnionType) : UInt8 :=
  match source with
  | none => Kind.undefinedDiscriminator
  | some source =>
    if source.isUnion || source.has .entity then
      if target.has .entity then Kind.entityDiscriminator else Kind.undefinedDiscriminator
    else
      match source.singleKind? with
      | some kind =>
        if target.has kind then kind.discriminator?.getD Kind.undefinedDiscriminator
        else Kind.undefinedDiscriminator
      | none => Kind.undefinedDiscriminator

/-- Where a column of a given purpose comes from. -/
def columnSource (purpose : Purpose) (target : UnionType) (source : Option PropertyLayout) :
    ColumnSource :=
  let source := source.filter (fun s => !s.type.isUndefined)
  match source.bind (·.column? purpose) with
  | some column => .column column
  | none =>
    match purpose with
    | .tag => .discriminator (discriminatorFor target (source.map PropertyLayout.type))
    | .typeCode =>
      .typeCode ((source.bind (·.type.singleReference?)).getD TypeCode.any)
    | purpose => .default purpose

/-- How a property is filled from another one, or from nothing. -/
def propertyRule (target : PropertyLayout) (source : Option PropertyLayout) : PropertyRule :=
  ⟨target, source, target.columns.map
    (fun column => ⟨column, columnSource column.purpose target.type source⟩)⟩

/-- Fills every property of the target from the property of the source that has its name. -/
def byName (target source : Layout) : List PropertyRule :=
  target.properties.map (fun p => propertyRule p (source.property? p.name))

/-- Fills one property of the target from one of the source. -/
def assigned (target source : Layout) (names : String × String) :
    Except MappingFault PropertyRule :=
  match target.property? names.1, source.property? names.2 with
  | none, _ => .error (.noTarget names.1)
  | some _, none => .error (.noSource names.2)
  | some t, some s => .ok (propertyRule t (some s))

/-- Fills the assigned properties, each from the property that is named for it. -/
def byAssignment (target source : Layout) (names : List (String × String)) :
    Except MappingFault (List PropertyRule) :=
  names.mapM (assigned target source)

/-- Fills a target from a source: every property by name or, where assignments are given, only the
assigned ones. -/
def rules (target source : Layout) :
    Option (List (String × String)) → Except MappingFault (List PropertyRule)
  | none => .ok (byName target source)
  | some names => byAssignment target source names

end Transfer

end UnionScript
