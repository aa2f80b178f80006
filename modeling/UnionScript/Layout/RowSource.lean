import UnionScript.Layout.Basic
import UnionScript.Layout.Fault
import UnionScript.Typing

/-!
# Layouts of row sources

The rows of a query are laid out by what its first block projects.  The rows of a table are laid out
by its schema object or, if the script defines it, by the rows of the node that does.  A node leads
on to at most one other, so the way ends within the number of nodes or goes in a circle.
-/

namespace UnionScript

/-- What gives the rows of a node their layout. -/
inductive RowSource where
  | projection (columns : List NodeId)
  | object (definition : Definition)
  | other (node : NodeId)
deriving DecidableEq, Repr

namespace RowSource

/-- What a table has its rows from. -/
def ofTable : TableSource → RowSource
  | .entity definition | .parameter _ definition => .object definition
  | .derived node | .commonTable node | .temporaryTable _ node | .tableVariable _ node => .other node

/-- What a node has its rows from. -/
def ofNode (tree : Tree) (bindings : Bindings) (n : NodeId) : Except MappingFault RowSource :=
  match tree.get? n with
  | none => .error (.notBound n)
  | some x =>
    match x with
    | .selectExpression b => .ok (.projection b.columns)
    | .output columns _ => .ok (.projection columns)
    | .tableUnion left _ _ => .ok (.other left)
    | .group expression => .ok (.other expression)
    | .select _ expression => .ok (.other expression)
    | .commonTable _ expression => .ok (.other expression)
    | .tableExpression expression _ => .ok (.other expression)
    | .tableReference _ _ | .into _ =>
      match (bindings.find? n).bind Binding.table? with
      | some source => .ok (ofTable source)
      | none => .error (.notBound n)
    | _ => .error (.noRows n x.kind)

end RowSource

namespace Layout

/-- The projected column at a place: an expression without a name is named for its place. -/
def projectedField (tree : Tree) (bindings : Bindings) (column : NodeId) (index : Nat) : Field :=
  let inferred := Typing.infer tree bindings column
  let name := inferred.name.getD ("_col" ++ toString index)
  ⟨name, name, inferred.type⟩

/-- The layout of projected columns. -/
def ofProjection (tree : Tree) (bindings : Bindings) (columns : List NodeId) : Layout :=
  ofFields (columns.zipIdx.map (fun c => projectedField tree bindings c.1 c.2))

/-- The layout of the rows of a node, at most `fuel` links away. -/
def ofNodeWithin (tree : Tree) (bindings : Bindings) : Nat → NodeId → Except MappingFault Layout
  | 0, n => .error (.endlessRows n)
  | fuel + 1, n =>
    match RowSource.ofNode tree bindings n with
    | .error fault => .error fault
    | .ok (.projection columns) => .ok (ofProjection tree bindings columns)
    | .ok (.object definition) => .ok (ofDefinition definition)
    | .ok (.other next) => ofNodeWithin tree bindings fuel next

/-- The layout of the rows of a node. -/
def ofNode (tree : Tree) (bindings : Bindings) (n : NodeId) : Except MappingFault Layout :=
  ofNodeWithin tree bindings (tree.size + 1) n

end Layout

end UnionScript
