import UnionScript.Layout.RowSource
import UnionScript.Transfer.Rule

/-!
# Transfer rules of statements

A statement that adds rows fills every property of its target by name from its source.  A statement
that changes rows fills the assigned properties, each from its initializer.
-/

namespace UnionScript.Transfer

/-- Target and source of a statement that adds rows. -/
def insertParts? : Node → Option (NodeId × NodeId)
  | .insert s => some (s.target, s.source)
  | .upsert s => some (s.target, s.source)
  | _ => none

/-- How a statement that adds rows fills its target. -/
def insertRules (tree : Tree) (bindings : Bindings) (n : NodeId) :
    Except MappingFault (List PropertyRule) := do
  let some (target, source) := (tree.get? n).bind insertParts? | throw (.notInsert n)
  let target ← Layout.ofNode tree bindings target
  let source ← Layout.ofNode tree bindings source
  rules target source none

/-- Target and assignments of a statement that changes rows; one that only adds rows has none. -/
def updateParts? : Node → Option (Option (NodeId × List NodeId))
  | .update s => some (some (s.target, s.assignments))
  | .upsert s => some (if s.insertOnly then none else some (s.target, s.assignments))
  | _ => none

/-- The assigned property with the type of its initializer. -/
def assignedField (tree : Tree) (bindings : Bindings) (n : NodeId) : Except MappingFault Field :=
  match tree.get? n with
  | some (.setExpression column initializer) =>
    match tree.get? column with
    | some (.columnReference identifier) =>
      let name := lastPart identifier
      .ok ⟨name, name, (Typing.infer tree bindings initializer).type⟩
    | _ => .error (.notColumn column)
  | _ => .error (.notSet n)

/-- How a statement that changes rows fills its target. -/
def updateRules (tree : Tree) (bindings : Bindings) (n : NodeId) :
    Except MappingFault (List PropertyRule) := do
  match (tree.get? n).bind updateParts? with
  | none => throw (.notUpdate n)
  | some none => return []
  | some (some (target, nodes)) =>
    let target ← Layout.ofNode tree bindings target
    let fields ← nodes.mapM (assignedField tree bindings)
    rules target (Layout.ofFields fields) (some (fields.map (fun f => (f.name, f.name))))

end UnionScript.Transfer
