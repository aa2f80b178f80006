import UnionScript.Builtin
import UnionScript.Directory
import UnionScript.Schema.Catalog
import UnionScript.Syntax.Node

/-!
# Bindings

What the names of a script stand for.  A table is a schema object, a record variable, or something
that the script itself defines by a query; a column is a property or a projected column of such a
query; a variable has the type of its declaration.
-/

namespace UnionScript

/-- What a table name stands for. -/
inductive TableSource where
  | entity (definition : Definition)
  | parameter (name : String) (definition : Definition)
  | derived (query : NodeId)
  | commonTable (node : NodeId)
  | temporaryTable (name : String) (source : NodeId)
  | tableVariable (name : String) (source : NodeId)
deriving DecidableEq, Repr

namespace TableSource

/-- The schema object behind a table. -/
def definition? : TableSource → Option Definition
  | .entity definition | .parameter _ definition => some definition
  | _ => none

/-- The node whose projection gives the columns of a table that the script defines. -/
def node? : TableSource → Option NodeId
  | .entity _ | .parameter _ _ => none
  | .derived node | .commonTable node | .temporaryTable _ node | .tableVariable _ node => some node

end TableSource

/-- The type of a declared variable: of one kind, a reference, or a record of a schema object. -/
inductive VariableType where
  | primitive (type : UnionType)
  | entity (value : Entity)
  | record (definition : Definition)
deriving DecidableEq, Repr

/-- The union type of a variable that holds one value. -/
def VariableType.scalar? : VariableType → Option UnionType
  | .primitive type => some type
  | .entity value => some (UnionType.entity value.code)
  | .record _ => none

/-- What a node is bound to. -/
inductive Binding where
  | table (source : TableSource)
  | property (definition : Definition) (index : Nat)
  | column (node : NodeId)
  | variable (type : VariableType)
  | enumValue (member : EnumMember)
  | type (type : VariableType)
  | function (builtin : Builtin)
deriving DecidableEq, Repr

namespace Binding

/-- The table that a node is bound to. -/
def table? : Binding → Option TableSource
  | .table source => some source
  | _ => none

/-- The type of the variable or declaration that a node is bound to. -/
def variableType? : Binding → Option VariableType
  | .variable declared | .type declared => some declared
  | _ => none

end Binding

/-- The bindings of a tree, by node. -/
abbrev Bindings := Directory NodeId Binding

end UnionScript
