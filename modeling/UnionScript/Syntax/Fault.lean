import UnionScript.Error
import UnionScript.Syntax.Node

/-!
# Structural faults

A tree that no script can have, or scopes opened and closed out of turn.  These are mistakes of
whoever built the tree, not of the script.
-/

namespace UnionScript

/-- What is wrong with the shape of a tree or the order of scopes. -/
inductive StructureFault where
  | nesting (limit : Nat) (node : NodeId)
  | endlessQuery (node : NodeId)
  | typeOutsideDeclare (node : NodeId)
  | declareWithoutType (node : NodeId)
  | setOutsideUpdate (node : NodeId)
  | expectedSet (node : NodeId)
  | setTargetNotColumn (node : NodeId)
  | intoOutsideQuery (node : NodeId)
  | expectedInto (node : NodeId)
  | intoWithoutScope (node : NodeId)
  | correlatedWithoutStatement (owner : NodeId)
  | closeWithoutOpen
  | noOpenScope
deriving DecidableEq, Repr

namespace StructureFault

/-- A fault at a node. -/
def located (text : String) (node : NodeId) : String :=
  text ++ " (node " ++ node.text ++ ")"

/-- The wording of a fault. -/
def detail : StructureFault → String
  | .nesting limit node =>
    "syntax tree nesting exceeds " ++ toString limit ++ " at node " ++ node.text
  | .endlessQuery node => located "query contains itself" node
  | .typeOutsideDeclare node => located "type identifier outside of DECLARE" node
  | .declareWithoutType node => located "DECLARE without a type identifier" node
  | .setOutsideUpdate node => located "SET outside of UPDATE or UPSERT" node
  | .expectedSet node => located "expected SET expression" node
  | .setTargetNotColumn node => located "SET target is not a column" node
  | .intoOutsideQuery node => located "INTO outside of SELECT or OUTPUT" node
  | .expectedInto node => located "expected INTO clause" node
  | .intoWithoutScope node => located "INTO outside of any scope" node
  | .correlatedWithoutStatement owner =>
    "correlated subquery " ++ owner.text ++ " has no enclosing statement"
  | .closeWithoutOpen => "close_scope without an open scope"
  | .noOpenScope => "no open scope"

/-- A fault as an error. -/
def toError (fault : StructureFault) : Error :=
  .structural fault.detail

end StructureFault

end UnionScript
