import UnionScript.Binding
import UnionScript.Syntax.Tree

/-!
# Types of expressions

The type of an expression follows from its literals, its operators and what its names are bound to.
It comes with the name under which the expression is projected.  Expressions may lead in circles
through projected columns, so the way to a literal or a name is followed a limited number of
steps; beyond that an expression has no type.
-/

namespace UnionScript

/-- The type of an expression and the name under which it is projected. -/
structure Inferred where
  type : UnionType
  name : Option String := none
deriving DecidableEq, Repr

namespace Inferred

/-- The type of nothing. -/
def undefined : Inferred := { type := UnionType.undefined }

/-- A given name takes the place of the inferred one. -/
def rename (i : Inferred) (name : Option String) : Inferred :=
  { i with name := name.or i.name }

end Inferred

namespace Typing

/-- The type of a literal. -/
def literal (token : LiteralToken) (lexeme : String) : UnionType :=
  match token with
  | .boolean => .ofKind .boolean
  | .number => .ofKind .numeric
  | .dateTime => .ofKind .dateTime
  | .string => .ofKind .string
  | .binary => .ofKind .binary
  | .uuid => .ofKind .uuid
  | .entity =>
    match Entity.ofText lexeme with
    | .ok e => .entity e.code
    | .error _ => .ofKind .entity
  | .null => .undefined

section

variable (infer : NodeId → Option Inferred)

/-- The type of values that come from any of several expressions; those without a type add
nothing. -/
def merged (nodes : List NodeId) : Inferred :=
  { type := UnionType.mergeAll ((nodes.filterMap infer).map Inferred.type) }

/-- The type of a column reference by what it is bound to. -/
def column (identifier : String) : Binding → Option Inferred
  | .property definition index =>
    definition.properties[index]?.map (fun p => { type := p.type, name := some p.name })
  | .column projected => (infer projected).map (·.rename (some (lastPart identifier)))
  | .enumValue member =>
    some { type := .entity member.code, name := some (lastPart identifier) }
  | _ => none

/-- The type of a node, given the types of the nodes it leads to. -/
def node (bindings : Bindings) (n : NodeId) : Node → Option Inferred
  | .scalarLiteral token lexeme => some { type := literal token lexeme }
  | .columnReference identifier => (bindings.find? n).bind (column infer identifier)
  | .columnExpression expression aliasName => (infer expression).map (·.rename aliasName)
  | .variableReference name =>
    ((bindings.find? n).bind Binding.variableType?).bind VariableType.scalar? |>.map
      (fun type => { type, name := some (bareVariable name) })
  | .caseExpression branches otherwise => some (merged infer (branches ++ otherwise.toList))
  | .whenClause _ result => infer result
  | .functionCall name arguments _ =>
    match Builtin.find? name with
    | some f => some { type := .ofKind f.result }
    | none => some (merged infer arguments)
  | .unary .minus operand => (infer operand).map (fun i => { type := i.type })
  | .unary .not _ => some { type := .ofKind .boolean }
  | .binary _ left right => some (merged infer [left, right])
  | .group expression => infer expression
  | .comparison _ _ _ | .logical _ _ _ | .existsQuery _ | .inList _ _ _ =>
    some { type := .ofKind .boolean }
  | .selectExpression block => block.columns.head?.bind infer
  | .tableUnion left _ _ => infer left
  | .script _ | .declare _ _ _ | .typeIdentifier _ | .select _ _ | .insert _ | .update _
  | .delete _ | .upsert _ | .consume _ | .commonTables _ | .commonTable _ _
  | .tableReference _ _ | .tableExpression _ _ | .tableJoin _ _ _ _ | .overClause _ _ | .orderItem _ _
  | .setExpression _ _ | .output _ _ | .into _ => none

end

/-- The type of a node that is found within a number of steps. -/
def inferWithin (tree : Tree) (bindings : Bindings) : Nat → NodeId → Option Inferred
  | 0, _ => none
  | steps + 1, n => (tree.get? n).bind (node (inferWithin tree bindings steps) bindings n)

/-- How many links an expression may be away from what gives it its type. -/
def maxLinks : Nat := 256

/-- The type of a node, if it has one. -/
def infer? (tree : Tree) (bindings : Bindings) (n : NodeId) : Option Inferred :=
  inferWithin tree bindings (maxLinks + 1) n

/-- The type of a node; one without a type counts as undefined. -/
def infer (tree : Tree) (bindings : Bindings) (n : NodeId) : Inferred :=
  (infer? tree bindings n).getD Inferred.undefined

end Typing

end UnionScript
