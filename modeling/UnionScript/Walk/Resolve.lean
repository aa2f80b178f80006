import UnionScript.Scope.Basic
import UnionScript.Syntax.Tree

/-!
# What names resolve to

A table name stands first for a table that the script defines, then for a record variable, then for
a schema object.  A column stands for a property or for a projected column of the table that its
qualifier names.  Without a qualifier it may stand for a column of any table of the current scope;
under strict rules only if no second table has one of that name.
-/

namespace UnionScript

namespace Tree

/-- The node projects a column under a name: its alias, or else the name of the column or variable
that it is. -/
def projects (tree : Tree) (name : String) (column : NodeId) : Bool :=
  match tree.get? column with
  | some (.columnExpression _ (some aliasName)) => sameName aliasName name
  | some (.columnExpression expression none) =>
    match tree.get? expression with
    | some (.columnReference identifier) => sameName (lastPart identifier) name
    | some (.variableReference identifier) => sameName (bareVariable identifier) name
    | _ => false
  | _ => false

/-- The columns that a row source projects, at most `fuel` links away: those of a block or an output
clause, of the first block of a union, and of what a group or common table holds. -/
def projectionWithin (tree : Tree) : Nat → NodeId → List NodeId
  | 0, _ => []
  | fuel + 1, n =>
    match tree.get? n with
    | some (.selectExpression b) => b.columns
    | some (.output columns _) => columns
    | some (.tableUnion left _ _) => projectionWithin tree fuel left
    | some (.group expression) => projectionWithin tree fuel expression
    | some (.commonTable _ expression) => projectionWithin tree fuel expression
    | _ => []

/-- The columns that a row source projects. -/
def projection (tree : Tree) (n : NodeId) : List NodeId :=
  tree.projectionWithin (tree.size + 1) n

/-- The first projected column of a name. -/
def projectedColumn? (tree : Tree) (n : NodeId) (name : String) : Option NodeId :=
  (tree.projection n).find? (tree.projects name)

/-- The column of a table under a name. -/
def columnOf? (tree : Tree) (source : TableSource) (name : String) : Option Binding :=
  match source.definition? with
  | some definition => (definition.indexOf? name).map (Binding.property definition)
  | none => (source.node?.bind (tree.projectedColumn? · name)).map Binding.column

end Tree

/-- The table that a name stands for. -/
def ScopeTree.resolveTable (scopes : ScopeTree) (provider : Provider) (name : String) :
    Except Error (Option TableSource) :=
  match scopes.table? name with
  | some source => .ok (some source)
  | none =>
    match scopes.variableType? name with
    | some (.record definition) => .ok (some (.parameter name definition))
    | _ => (provider.object name).map (·.map TableSource.entity)

/-- The only column among those that the tables of a scope have under a name; where the rules are not
strict, the first one. -/
def Scope.unqualified? (scope : Scope) (tree : Tree) (strict : Bool) (name : String) :
    Option Binding :=
  match scope.aliases.values.filterMap (fun target => tree.columnOf? target.source name) with
  | [] => none
  | [binding] => some binding
  | binding :: _ => if strict then none else some binding

/-- The current scope has several tables. -/
def ScopeTree.hasSeveralTables (scopes : ScopeTree) : Bool :=
  scopes.currentScope?.any (fun s => 1 < s.aliases.size)

/-- The column that a qualifier and a name stand for.  Among several tables, strict rules do not say
which one the rows at hand belong to. -/
def ScopeTree.resolveColumn (scopes : ScopeTree) (tree : Tree) (strict : Bool)
    (qualifier name : String) : Option Binding :=
  if scopes.hasSeveralTables && qualifier.isEmpty then
    scopes.currentScope?.bind (fun s => s.unqualified? tree strict name)
  else if scopes.hasSeveralTables && isPseudoTable qualifier && strict then none
  else (scopes.aliasTarget? qualifier).bind (fun target => tree.columnOf? target.source name)

end UnionScript
