import UnionScript.Syntax.Fault
import UnionScript.Syntax.Tree

/-!
# The walk over a tree

Binding visits a tree once, depth first, and does one thing after the other: it enters and leaves
scopes, and it binds names.  What it does and in which order depends on the tree alone.  The walk
over a node goes through stages: steps of its own, and one stage for the node in each of its slots.
Each stage is made of parts: steps, and walks over the nodes below.  Expanding all of them gives the
walk as a list of steps.

Nodes are visited within a limit on their nesting.  The blocks, unions and groups that make up a
query are one level together, whatever their number.

* `Walk.stages`, `Walk.parts` — the stages and the parts of the walk over a node;
* `Walk.queryStages`, `Walk.queryParts` — those of the walk over what stands in the place of a query;
* `Walk.steps` — the walk over a node as a list of steps.
-/

namespace UnionScript

/-- One thing that binding does. -/
inductive Step where
  /-- Enters the scope of a node. -/
  | enter (owner : NodeId) (kind : NodeKind) (correlated : Bool)
  /-- Leaves the current scope. -/
  | leave
  /-- Registers a common table before its query is visited, so that the query may refer to it. -/
  | defineTable (node : NodeId) (name : String)
  /-- Registers a query under an alias. -/
  | deriveTable (node query : NodeId) (aliasName : String)
  /-- Resolves a table name and registers its alias. -/
  | useTable (node : NodeId) (identifier aliasName : String)
  /-- Resolves a column. -/
  | useColumn (node : NodeId) (identifier : String)
  /-- Binds a name to a projected column of the same block. -/
  | useProjection (reference column : NodeId)
  /-- Resolves a variable. -/
  | useVariable (node : NodeId) (name : String)
  /-- Recognises a built-in function. -/
  | callFunction (node : NodeId) (name : String)
  /-- Registers the table that rows of a source are stored in. -/
  | storeInto (node source : NodeId) (target : String)
  /-- Resolves the type of a variable and registers the variable. -/
  | declare (type : NodeId) (typeName name : String) (initializer : Option NodeId)
  /-- From here on, assignments are to the table of a node. -/
  | beginSet (target : NodeId)
  /-- Resolves a column of the table under assignment. -/
  | setColumn (column : NodeId) (identifier : String)
  /-- The assignments to a table end. -/
  | endSet
  /-- Refuses the tree. -/
  | reject (fault : StructureFault)
deriving DecidableEq, Repr

/-- A part of a walk: one step, or the walk over a node, either by itself or in the place of a
query. -/
inductive Part where
  | step (s : Step)
  | visit (n : NodeId)
  | query (correlated : Bool) (n : NodeId)
deriving DecidableEq, Repr

/-- What the walk over a node does at one point: a step of its own, or what it does about the node
in one of its slots. -/
inductive Stage where
  | own (s : Step)
  | visit (n : NodeId)
  | query (correlated : Bool) (n : NodeId)
  /-- An item that the rows of a block with the given columns are ordered by. -/
  | order (columns : List NodeId) (item : NodeId)
  /-- An assignment to a column of the table under assignment. -/
  | assign (n : NodeId)
  /-- A clause that the rows of the node are stored by. -/
  | store (clause : NodeId)
  /-- The type of a declaration, whose initializer was visited before. -/
  | declareType (name : String) (type : NodeId) (initializer : Option NodeId)
deriving DecidableEq, Repr

namespace Walk

/-- Visits an optional node. -/
def visitOption (n : Option NodeId) : List Stage :=
  n.toList.map .visit

/-- Visits nodes in turn. -/
def visitAll (nodes : List NodeId) : List Stage :=
  nodes.map .visit

section

variable (tree : Tree)

/-- The column reference without a qualifier that rows are ordered by. -/
def plainKey? (item : NodeId) : Option (NodeId × String) := do
  let .orderItem expression _ ← tree.get? item | none
  let .columnReference identifier ← tree.get? expression | none
  if identifier.toList.contains '.' then none else some (expression, identifier)

/-- The node is a projected column with the given name as its alias. -/
def hasAlias (name : String) (column : NodeId) : Bool :=
  match tree.get? column with
  | some (.columnExpression _ (some aliasName)) => sameName aliasName name
  | _ => false

/-- Rows may be ordered by the alias of a projected column of the same block.  Such an item is bound
to that column, and any other item is visited. -/
def orderItem (columns : List NodeId) (item : NodeId) : Part :=
  match plainKey? tree item with
  | some (reference, name) =>
    match columns.find? (hasAlias tree name) with
    | some column => .step (.useProjection reference column)
    | none => .visit item
  | none => .visit item

/-- Stores the rows of a source. -/
def into (source clause : NodeId) : Part :=
  match tree.get? clause with
  | some (.into target) => .step (.storeInto clause source target)
  | _ => .step (.reject (.expectedInto clause))

/-- An assignment to a column of the table under assignment. -/
def assignment (n : NodeId) : List Part :=
  match tree.get? n with
  | some (.setExpression column initializer) =>
    match tree.get? column with
    | some (.columnReference identifier) =>
      [.step (.setColumn column identifier), .visit initializer]
    | _ => [.step (.reject (.setTargetNotColumn column))]
  | _ => [.step (.reject (.expectedSet n))]

/-- The type of a declaration; its initializer was visited before. -/
def declaredType (name : String) (type : NodeId) (initializer : Option NodeId) : Part :=
  match tree.get? type with
  | some (.typeIdentifier typeName) => .step (.declare type typeName name initializer)
  | _ => .step (.reject (.declareWithoutType type))

/-- The parts of a stage of the walk over a node. -/
def stageParts (n : NodeId) : Stage → List Part
  | .own s => [.step s]
  | .visit child => [.visit child]
  | .query correlated child => [.query correlated child]
  | .order columns item => [orderItem tree columns item]
  | .assign child => assignment tree child
  | .store clause => [into tree n clause]
  | .declareType name type initializer => [declaredType tree name type initializer]

end

/-- The assignments to a table. -/
def assignments (target : NodeId) (nodes : List NodeId) : List Stage :=
  [.own (.beginSet target)] ++ nodes.map .assign ++ [.own .endSet]

/-- The scope of a node around stages. -/
def inScope (n : NodeId) (kind : NodeKind) (correlated : Bool) (body : List Stage) : List Stage :=
  [.own (.enter n kind correlated)] ++ body ++ [.own .leave]

/-- What is done in the scope of a query block: its tables come first, since its columns are resolved
against them. -/
def blockBody (b : SelectExpression) : List Stage :=
  visitOption b.source ++ visitOption b.top ++ visitAll b.columns ++ visitOption b.condition ++
    visitAll b.grouping ++ visitOption b.having ++ b.ordering.map (.order b.columns) ++
    b.into.toList.map .store

/-- A query block. -/
def block (n : NodeId) (b : SelectExpression) (correlated : Bool) : List Stage :=
  inScope n .selectExpression correlated (blockBody b)

/-- The stages of the walk over a node, by what the node is. -/
def nodeStages (n : NodeId) : Node → List Stage
  | .script statements => inScope n .script false (visitAll statements)
  | .declare name type initializer =>
    initializer.toList.map (.query false) ++ [.declareType name type initializer]
  | .typeIdentifier _ => [.own (.reject (.typeOutsideDeclare n))]
  | .select commonTables expression =>
    inScope n .select false (visitOption commonTables ++ [.query false expression])
  | .insert s =>
    inScope n .insert false (visitOption s.commonTables ++
      [.visit s.target, .query false s.source] ++ visitOption s.output)
  | .update s =>
    inScope n .update false (visitOption s.commonTables ++ [.visit s.target] ++
      visitOption s.source ++ assignments s.target s.assignments ++
      visitOption s.condition ++ visitOption s.output)
  | .delete s =>
    inScope n .delete false (visitOption s.commonTables ++ [.visit s.target] ++
      visitOption s.condition ++ visitOption s.output)
  | .upsert s =>
    inScope n .upsert false (visitOption s.commonTables ++ [.visit s.target, .visit s.source] ++
      visitOption s.condition ++ assignments s.target s.assignments)
  | .consume expression => inScope n .consume false [.query false expression]
  | .commonTables tables => visitAll tables
  | .commonTable name expression => [.own (.defineTable n name), .query false expression]
  | .selectExpression b => block n b true
  | .tableUnion left right _ => [.query true left, .query true right]
  | .tableReference identifier aliasName =>
    [.own (.useTable n identifier (aliasName.getD identifier))]
  | .tableExpression expression aliasName =>
    [.query false expression, .own (.deriveTable n expression aliasName)]
  | .tableJoin _ left right condition => [.visit left, .visit right] ++ visitOption condition
  | .columnExpression expression _ => [.visit expression]
  | .columnReference identifier => [.own (.useColumn n identifier)]
  | .variableReference name => [.own (.useVariable n name)]
  | .scalarLiteral _ _ => []
  | .unary _ operand => [.visit operand]
  | .binary _ left right => [.visit left, .visit right]
  | .comparison _ left right => [.visit left, .visit right]
  | .logical _ left right => [.visit left, .visit right]
  | .group expression => [.visit expression]
  | .caseExpression branches otherwise => visitAll branches ++ visitOption otherwise
  | .whenClause condition result => [.visit condition, .visit result]
  | .functionCall name arguments window =>
    [.own (.callFunction n name)] ++ visitAll arguments ++ visitOption window
  | .overClause partition ordering => visitAll partition ++ visitAll ordering
  | .orderItem expression _ => [.visit expression]
  | .setExpression _ _ => [.own (.reject (.setOutsideUpdate n))]
  | .output columns target => visitAll columns ++ target.toList.map .store
  | .into _ => [.own (.reject (.intoOutsideQuery n))]
  | .existsQuery expression => [.query true expression]
  | .inList expression values _ => [.visit expression] ++ visitAll values

section

variable (tree : Tree)

/-- The stages of the walk over a node; a number that stands for no node has none. -/
def stages (n : NodeId) : List Stage :=
  match tree.get? n with
  | some x => nodeStages n x
  | none => []

/-- The stages of the walk over what stands in the place of a query.  Unions and groups lead on to
the blocks in them. -/
def queryStages (correlated : Bool) (n : NodeId) : List Stage :=
  match tree.get? n with
  | some (.selectExpression b) => block n b correlated
  | some (.tableUnion left right _) => [.query correlated left, .query correlated right]
  | some (.group expression) => [.query correlated expression]
  | _ => [.visit n]

/-- The parts of the walk over a node. -/
def parts (n : NodeId) : List Part :=
  (stages tree n).flatMap (stageParts tree n)

/-- The parts of the walk over what stands in the place of a query. -/
def queryParts (correlated : Bool) (n : NodeId) : List Part :=
  (queryStages tree correlated n).flatMap (stageParts tree n)

/-- How many links lead from the place of a query to a block at most: in a tree without circles no
way is longer than the tree has nodes. -/
def queryFuel : Nat := tree.size + 1

end

/-- The steps of a part, given the walks over nodes. -/
def expand (visit : NodeId → List Step) (query : Bool → NodeId → List Step) : Part → List Step
  | .step s => [s]
  | .visit n => visit n
  | .query correlated n => query correlated n

/-- The steps of what stands in the place of a query, at most `fuel` links away from its blocks. -/
def querySteps (tree : Tree) (visit : NodeId → List Step) : Nat → Bool → NodeId → List Step
  | 0, _, n => [.reject (.endlessQuery n)]
  | fuel + 1, correlated, n =>
    (queryParts tree correlated n).flatMap (expand visit (querySteps tree visit fuel))

/-- The walk over a node that may still be nested `depth` levels deep. -/
def steps (tree : Tree) (limit : Nat) : Nat → NodeId → List Step
  | 0, n => [.reject (.nesting limit n)]
  | depth + 1, n =>
    (parts tree n).flatMap (expand (steps tree limit depth)
      (querySteps tree (steps tree limit depth) (queryFuel tree)))

end Walk

/-- The walk over a tree from its root, nested no deeper than a limit. -/
def Tree.walk (tree : Tree) (limit : Nat) (root : NodeId) : List Step :=
  Walk.steps tree limit limit root

end UnionScript
