import UnionScript.Syntax.Node

/-!
# Syntax trees

The nodes of a tree are numbered in the order in which they were added.  A number that was not
given out stands for no node.
-/

namespace UnionScript

/-- The nodes of a script, by number. -/
structure Tree where
  nodes : Array Node := #[]
deriving DecidableEq, Repr

namespace Tree

/-- The number of nodes. -/
def size (t : Tree) : Nat := t.nodes.size

/-- The node of a number. -/
def get? (t : Tree) (n : NodeId) : Option Node := t.nodes[n]?

/-- Building a tree node by node. -/
abbrev Build := StateM Tree

/-- Adds a node and gives its number. -/
def add (node : Node) : Build NodeId := do
  let t ← get
  set (Tree.mk (t.nodes.push node))
  return t.size

/-- Adds a declaration together with its type. -/
def addDeclaration (name type : String) (initializer : Option NodeId) : Build NodeId := do
  let typeNode ← add (.typeIdentifier type)
  add (.declare name typeNode initializer)

/-- Adds a projected column of a table. -/
def addProjection (identifier : String) (aliasName : Option String) : Build NodeId := do
  let column ← add (.columnReference identifier)
  add (.columnExpression column aliasName)

/-- Adds an assignment to a column. -/
def addAssignment (column : String) (initializer : NodeId) : Build NodeId := do
  let target ← add (.columnReference column)
  add (.setExpression target initializer)

/-- Adds a choice among results, each under its condition. -/
def addCase (branches : List (NodeId × NodeId)) (otherwise : Option NodeId) : Build NodeId := do
  let clauses ← branches.mapM (fun b => add (.whenClause b.1 b.2))
  add (.caseExpression clauses otherwise)

end Tree

end UnionScript
