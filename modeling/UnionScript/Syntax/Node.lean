import UnionScript.Name

/-!
# Nodes of a syntax tree

A script is a tree of nodes that refer to their children by number.  The set of node kinds is
closed; each kind has its own slots for children and texts.
-/

namespace UnionScript

/-- The number of a node in its tree. -/
abbrev NodeId := Nat

/-- The text of a node number. -/
def NodeId.text (n : NodeId) : String :=
  "#" ++ toString n

/-- How two table sources are joined. -/
inductive JoinType where
  | inner
  | left
  | right
  | full
  | cross
deriving DecidableEq, Repr

/-- What a literal is written as. -/
inductive LiteralToken where
  | boolean
  | number
  | dateTime
  | string
  | binary
  | uuid
  | entity
  | null
deriving DecidableEq, Repr

/-- Operators with one operand. -/
inductive UnaryOp where
  | minus
  | not
deriving DecidableEq, Repr

/-- Arithmetic operators. -/
inductive BinaryOp where
  | add
  | subtract
  | multiply
  | divide
  | modulo
deriving DecidableEq, Repr

/-- Comparison operators. -/
inductive ComparisonOp where
  | eq
  | neq
  | lt
  | lte
  | gt
  | gte
  | like
  | isNull
  | isNotNull
deriving DecidableEq, Repr

/-- Operators on conditions. -/
inductive LogicalOp where
  | and
  | or
deriving DecidableEq, Repr

/-- A query block. -/
structure SelectExpression where
  distinct : Bool := false
  top : Option NodeId := none
  columns : List NodeId := []
  into : Option NodeId := none
  source : Option NodeId := none
  condition : Option NodeId := none
  grouping : List NodeId := []
  having : Option NodeId := none
  ordering : List NodeId := []
deriving DecidableEq, Repr

/-- Rows of a query are added to a table. -/
structure InsertStatement where
  commonTables : Option NodeId := none
  target : NodeId
  source : NodeId
  output : Option NodeId := none
deriving DecidableEq, Repr

/-- Columns of a table are assigned. -/
structure UpdateStatement where
  commonTables : Option NodeId := none
  target : NodeId
  assignments : List NodeId := []
  source : Option NodeId := none
  condition : Option NodeId := none
  output : Option NodeId := none
deriving DecidableEq, Repr

/-- Rows of a table are removed. -/
structure DeleteStatement where
  commonTables : Option NodeId := none
  target : NodeId
  condition : Option NodeId := none
  output : Option NodeId := none
deriving DecidableEq, Repr

/-- Rows of a source are added to a table or, where they match, assigned to its rows. -/
structure UpsertStatement where
  commonTables : Option NodeId := none
  target : NodeId
  source : NodeId
  condition : Option NodeId := none
  assignments : List NodeId := []
  insertOnly : Bool := false
deriving DecidableEq, Repr

/-- A node of a syntax tree. -/
inductive Node where
  | script (statements : List NodeId)
  | declare (name : String) (type : NodeId) (initializer : Option NodeId)
  | typeIdentifier (name : String)
  | select (commonTables : Option NodeId) (query : NodeId)
  | insert (statement : InsertStatement)
  | update (statement : UpdateStatement)
  | delete (statement : DeleteStatement)
  | upsert (statement : UpsertStatement)
  | consume (query : NodeId)
  | commonTables (tables : List NodeId)
  | commonTable (name : String) (query : NodeId)
  | selectExpression (block : SelectExpression)
  | tableUnion (left right : NodeId) (all : Bool)
  | tableReference (identifier : String) (aliasName : Option String)
  | tableExpression (query : NodeId) (aliasName : String)
  | tableJoin (join : JoinType) (left right : NodeId) (condition : Option NodeId)
  | columnExpression (expression : NodeId) (aliasName : Option String)
  | columnReference (identifier : String)
  | variableReference (name : String)
  | scalarLiteral (token : LiteralToken) (lexeme : String)
  | unary (op : UnaryOp) (operand : NodeId)
  | binary (op : BinaryOp) (left right : NodeId)
  | comparison (op : ComparisonOp) (left right : NodeId)
  | logical (op : LogicalOp) (left right : NodeId)
  | group (expression : NodeId)
  | caseExpression (branches : List NodeId) (otherwise : Option NodeId)
  | whenClause (condition result : NodeId)
  | functionCall (name : String) (arguments : List NodeId) (window : Option NodeId)
  | overClause (partition ordering : List NodeId)
  | orderItem (expression : NodeId) (descending : Bool)
  | setExpression (column initializer : NodeId)
  | output (columns : List NodeId) (into : Option NodeId)
  | into (target : String)
  | existsQuery (query : NodeId)
  | inList (expression : NodeId) (values : List NodeId) (negated : Bool)
deriving DecidableEq, Repr

/-- The kind of a node. -/
inductive NodeKind where
  | script
  | declare
  | typeIdentifier
  | select
  | insert
  | update
  | delete
  | upsert
  | consume
  | commonTables
  | commonTable
  | selectExpression
  | tableUnion
  | tableReference
  | tableExpression
  | tableJoin
  | columnExpression
  | columnReference
  | variableReference
  | scalarLiteral
  | unary
  | binary
  | comparison
  | logical
  | group
  | caseExpression
  | whenClause
  | functionCall
  | overClause
  | orderItem
  | setExpression
  | output
  | into
  | existsQuery
  | inList
deriving DecidableEq, Repr

namespace NodeKind

/-- The kinds of nodes. -/
def all : List NodeKind :=
  [.script, .declare, .typeIdentifier, .select, .insert, .update, .delete, .upsert, .consume,
    .commonTables, .commonTable, .selectExpression, .tableUnion, .tableReference,
    .tableExpression, .tableJoin, .columnExpression, .columnReference, .variableReference,
    .scalarLiteral, .unary, .binary, .comparison, .logical, .group, .caseExpression, .whenClause,
    .functionCall, .overClause, .orderItem, .setExpression, .output, .into, .existsQuery, .inList]

/-- The name of a kind. -/
def name : NodeKind → String
  | .script => "Script"
  | .declare => "Declare"
  | .typeIdentifier => "TypeIdentifier"
  | .select => "Select"
  | .insert => "Insert"
  | .update => "Update"
  | .delete => "Delete"
  | .upsert => "Upsert"
  | .consume => "Consume"
  | .commonTables => "CommonTables"
  | .commonTable => "CommonTable"
  | .selectExpression => "SelectExpression"
  | .tableUnion => "TableUnion"
  | .tableReference => "TableReference"
  | .tableExpression => "TableExpression"
  | .tableJoin => "TableJoin"
  | .columnExpression => "ColumnExpression"
  | .columnReference => "ColumnReference"
  | .variableReference => "VariableReference"
  | .scalarLiteral => "ScalarLiteral"
  | .unary => "Unary"
  | .binary => "Binary"
  | .comparison => "Comparison"
  | .logical => "Logical"
  | .group => "Group"
  | .caseExpression => "Case"
  | .whenClause => "When"
  | .functionCall => "FunctionCall"
  | .overClause => "Over"
  | .orderItem => "OrderItem"
  | .setExpression => "SetExpression"
  | .output => "Output"
  | .into => "Into"
  | .existsQuery => "Exists"
  | .inList => "InList"

/-- The kind of a given name. -/
def ofName? (name : String) : Option NodeKind :=
  all.find? (fun k => k.name == name)

/-- Statements on data, which open a scope of their own. -/
def isStatement : NodeKind → Bool
  | .select | .insert | .update | .delete | .upsert | .consume => true
  | _ => false

end NodeKind

namespace Node

/-- The kind of a node. -/
def kind : Node → NodeKind
  | .script _ => .script
  | .declare _ _ _ => .declare
  | .typeIdentifier _ => .typeIdentifier
  | .select _ _ => .select
  | .insert _ => .insert
  | .update _ => .update
  | .delete _ => .delete
  | .upsert _ => .upsert
  | .consume _ => .consume
  | .commonTables _ => .commonTables
  | .commonTable _ _ => .commonTable
  | .selectExpression _ => .selectExpression
  | .tableUnion _ _ _ => .tableUnion
  | .tableReference _ _ => .tableReference
  | .tableExpression _ _ => .tableExpression
  | .tableJoin _ _ _ _ => .tableJoin
  | .columnExpression _ _ => .columnExpression
  | .columnReference _ => .columnReference
  | .variableReference _ => .variableReference
  | .scalarLiteral _ _ => .scalarLiteral
  | .unary _ _ => .unary
  | .binary _ _ _ => .binary
  | .comparison _ _ _ => .comparison
  | .logical _ _ _ => .logical
  | .group _ => .group
  | .caseExpression _ _ => .caseExpression
  | .whenClause _ _ => .whenClause
  | .functionCall _ _ _ => .functionCall
  | .overClause _ _ => .overClause
  | .orderItem _ _ => .orderItem
  | .setExpression _ _ => .setExpression
  | .output _ _ => .output
  | .into _ => .into
  | .existsQuery _ => .existsQuery
  | .inList _ _ _ => .inList

/-- The children of a node, slot by slot. -/
def children : Node → List NodeId
  | .script statements => statements
  | .declare _ type initializer => type :: initializer.toList
  | .typeIdentifier _ => []
  | .select tables query => tables.toList ++ [query]
  | .insert s => s.commonTables.toList ++ [s.target, s.source] ++ s.output.toList
  | .update s =>
    s.commonTables.toList ++ [s.target] ++ s.assignments ++ s.source.toList ++
      s.condition.toList ++ s.output.toList
  | .delete s => s.commonTables.toList ++ [s.target] ++ s.condition.toList ++ s.output.toList
  | .upsert s =>
    s.commonTables.toList ++ [s.target, s.source] ++ s.condition.toList ++ s.assignments
  | .consume query => [query]
  | .commonTables tables => tables
  | .commonTable _ query => [query]
  | .selectExpression b =>
    b.top.toList ++ b.columns ++ b.into.toList ++ b.source.toList ++ b.condition.toList ++
      b.grouping ++ b.having.toList ++ b.ordering
  | .tableUnion left right _ => [left, right]
  | .tableReference _ _ => []
  | .tableExpression query _ => [query]
  | .tableJoin _ left right condition => [left, right] ++ condition.toList
  | .columnExpression expression _ => [expression]
  | .columnReference _ => []
  | .variableReference _ => []
  | .scalarLiteral _ _ => []
  | .unary _ operand => [operand]
  | .binary _ left right => [left, right]
  | .comparison _ left right => [left, right]
  | .logical _ left right => [left, right]
  | .group expression => [expression]
  | .caseExpression branches otherwise => branches ++ otherwise.toList
  | .whenClause condition result => [condition, result]
  | .functionCall _ arguments window => arguments ++ window.toList
  | .overClause partition ordering => partition ++ ordering
  | .orderItem expression _ => [expression]
  | .setExpression column initializer => [column, initializer]
  | .output columns target => columns ++ target.toList
  | .into _ => []
  | .existsQuery query => [query]
  | .inList expression values _ => expression :: values

end Node

/-- A target of stored rows is a variable when its name starts with an at-sign. -/
def isVariableTarget (target : String) : Bool :=
  target.toList.head? == some '@'

end UnionScript
