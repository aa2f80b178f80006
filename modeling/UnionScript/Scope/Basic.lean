import UnionScript.Binding
import UnionScript.Syntax.Fault

/-!
# Scopes

A scope is a region of a script in which names are visible.  Scopes are numbered in the order in
which they were entered, and each has two parents: the physical one, which is current again when
the scope is left, and the logical one, where names are looked up that the scope does not have.

They differ for a query block that is not correlated: such a block does not see the table names of
a block around it, so its logical parent is the nearest scope that is no uncorrelated block.
-/

namespace UnionScript

/-- The number of a scope in its tree. -/
abbrev ScopeId := Nat

/-- A table under a name of its own, and the node that introduced it. -/
structure AliasTarget where
  node : NodeId
  source : TableSource
deriving DecidableEq, Repr

/-- A region in which names are visible.  All names are kept lower-cased. -/
structure Scope where
  owner : NodeId
  kind : NodeKind
  correlated : Bool
  logicalParent : Option ScopeId
  physicalParent : Option ScopeId
  tables : Directory String TableSource := .empty
  aliases : Directory String AliasTarget := .empty
  columns : Directory String Binding := .empty
  variableTypes : Directory String VariableType := .empty

namespace Scope

/-- A query block that does not see the table names around it. -/
def isUncorrelatedBlock (s : Scope) : Bool :=
  s.kind == .selectExpression && !s.correlated

/-- The table registered under a name in this very scope. -/
def table? (s : Scope) (name : String) : Option TableSource :=
  s.tables.find? (nameKey name)

/-- The variable registered under a name in this very scope. -/
def variableType? (s : Scope) (name : String) : Option VariableType :=
  s.variableTypes.find? (nameKey name)

/-- The alias registered under a name in this very scope. -/
def aliasTarget? (s : Scope) (name : String) : Option AliasTarget :=
  s.aliases.find? (nameKey name)

/-- The column resolved under an identifier in this very scope. -/
def column? (s : Scope) (identifier : String) : Option Binding :=
  s.columns.find? (nameKey identifier)

/-- Registers a table. -/
def addTable (name : String) (source : TableSource) (s : Scope) : Scope :=
  { s with tables := s.tables.insert (nameKey name) source }

/-- Registers an alias. -/
def addAlias (name : String) (target : AliasTarget) (s : Scope) : Scope :=
  { s with aliases := s.aliases.insert (nameKey name) target }

/-- Registers a variable. -/
def addVariable (name : String) (type : VariableType) (s : Scope) : Scope :=
  { s with variableTypes := s.variableTypes.insert (nameKey name) type }

/-- Registers a resolved column. -/
def addColumn (identifier : String) (binding : Binding) (s : Scope) : Scope :=
  { s with columns := s.columns.insert (nameKey identifier) binding }

end Scope

/-- The scopes entered so far and the current one. -/
structure ScopeTree where
  scopes : Array Scope := #[]
  current : Option ScopeId := none

namespace ScopeTree

/-- No scope was entered yet. -/
def empty : ScopeTree := {}

/-- The number of scopes. -/
def size (t : ScopeTree) : Nat := t.scopes.size

/-- The scope of a number. -/
def get? (t : ScopeTree) (id : ScopeId) : Option Scope := t.scopes[id]?

/-- The first scope that was entered. -/
def root? (t : ScopeTree) : Option ScopeId :=
  if t.scopes.isEmpty then none else some 0

/-- The current scope. -/
def currentScope? (t : ScopeTree) : Option Scope :=
  t.current.bind t.get?

/-- The scope that a node opened. -/
def scopeOf? (t : ScopeTree) (owner : NodeId) : Option ScopeId :=
  t.scopes.findIdx? (fun s => s.owner == owner)

/-- At most `fuel` scopes from a starting one along logical parents. -/
def chainUpTo (t : ScopeTree) : Nat → Option ScopeId → List ScopeId
  | 0, _ => []
  | _ + 1, none => []
  | fuel + 1, some id =>
    match t.get? id with
    | some s => id :: chainUpTo t fuel s.logicalParent
    | none => []

/-- The scopes from a starting one along logical parents.  A logical parent was entered before its
child, so there are no more of them than scopes. -/
def chain (t : ScopeTree) (start : Option ScopeId) : List ScopeId :=
  t.chainUpTo t.size start

/-- The nearest scope on the chain of a starting one that satisfies a condition. -/
def nearest? (t : ScopeTree) (start : Option ScopeId) (p : Scope → Bool) : Option ScopeId :=
  (t.chain start).find? (fun id => (t.get? id).any p)

/-- The nearest answer on the chain of the current scope. -/
def lookup? {α : Type} (t : ScopeTree) (f : Scope → Option α) : Option α :=
  (t.chain t.current).findSome? (fun id => (t.get? id).bind f)

/-- The logical parent of a scope entered now. -/
def logicalParentFor (t : ScopeTree) (kind : NodeKind) (correlated : Bool) : Option ScopeId :=
  if kind = .selectExpression ∧ ¬ correlated then
    t.nearest? t.current (fun s => !s.isUncorrelatedBlock)
  else t.current

/-- Enters a scope.  A correlated one needs something other than query blocks around it. -/
def enter (t : ScopeTree) (owner : NodeId) (kind : NodeKind) (correlated : Bool) :
    Except StructureFault ScopeTree :=
  if correlated ∧ (t.nearest? t.current (fun s => s.kind != .selectExpression)).isNone then
    .error (.correlatedWithoutStatement owner)
  else
    let id := t.size
    let scope : Scope :=
      { owner, kind, correlated
        logicalParent := t.logicalParentFor kind correlated
        physicalParent := t.current }
    .ok { t with scopes := t.scopes.push scope, current := some id }

/-- Leaves the current scope; its physical parent is current again. -/
def leave (t : ScopeTree) : Except StructureFault ScopeTree :=
  match t.current with
  | none => .error .closeWithoutOpen
  | some id => .ok { t with current := (t.get? id).bind Scope.physicalParent }

/-- Leaves all scopes at once. -/
def leaveAll (t : ScopeTree) : ScopeTree :=
  { t with current := none }

/-- Changes a scope. -/
def change (t : ScopeTree) (id : ScopeId) (f : Scope → Scope) : ScopeTree :=
  { t with scopes := t.scopes.modify id f }

/-- Changes the current scope. -/
def changeCurrent (t : ScopeTree) (f : Scope → Scope) : Except StructureFault ScopeTree :=
  match t.current with
  | none => .error .noOpenScope
  | some id => .ok (t.change id f)

/-- Registers a table in the current scope. -/
def addTable (t : ScopeTree) (name : String) (source : TableSource) :
    Except StructureFault ScopeTree :=
  t.changeCurrent (Scope.addTable name source)

/-- Registers a table in a given scope. -/
def addTableTo (t : ScopeTree) (id : ScopeId) (name : String) (source : TableSource) : ScopeTree :=
  t.change id (Scope.addTable name source)

/-- Registers an alias in the current scope. -/
def addAlias (t : ScopeTree) (name : String) (target : AliasTarget) :
    Except StructureFault ScopeTree :=
  t.changeCurrent (Scope.addAlias name target)

/-- Registers a variable in the current scope. -/
def addVariable (t : ScopeTree) (name : String) (type : VariableType) :
    Except StructureFault ScopeTree :=
  t.changeCurrent (Scope.addVariable name type)

/-- Registers a resolved column in the current scope. -/
def addColumn (t : ScopeTree) (identifier : String) (binding : Binding) :
    Except StructureFault ScopeTree :=
  t.changeCurrent (Scope.addColumn identifier binding)

/-- The variable of a name; inner declarations hide outer ones. -/
def variableType? (t : ScopeTree) (name : String) : Option VariableType :=
  let key := nameKey name
  t.lookup? (fun s => s.variableTypes.find? key)

/-- The table of a name that the script defines; inner ones hide outer ones. -/
def table? (t : ScopeTree) (name : String) : Option TableSource :=
  let key := nameKey name
  t.lookup? (fun s => s.tables.find? key)

/-- The table that a qualifier stands for.  No qualifier and the names of the rows at hand stand for
the first table of the current scope. -/
def aliasTarget? (t : ScopeTree) (qualifier : String) : Option AliasTarget :=
  if qualifier.isEmpty || isPseudoTable qualifier then
    t.currentScope?.bind (fun s => s.aliases.values.head?)
  else
    let key := nameKey qualifier
    t.lookup? (fun s => s.aliases.find? key)

/-- The nearest scope, from the current one on, whose owner is of a kind that satisfies a
condition. -/
def ancestorWhere? (t : ScopeTree) (p : NodeKind → Bool) : Option ScopeId :=
  t.nearest? t.current (fun s => p s.kind)

/-- The nearest scope, from the current one on, whose owner is of a kind. -/
def ancestor? (t : ScopeTree) (kind : NodeKind) : Option ScopeId :=
  t.ancestorWhere? (· == kind)

end ScopeTree

end UnionScript
