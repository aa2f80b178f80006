import UnionScript.Error
import UnionScript.Syntax.Node

/-!
# Mapping faults

Why rows of a node have no physical layout, or why a statement has no transfer rules.
-/

namespace UnionScript

/-- Why a layout or a transfer cannot be made. -/
inductive MappingFault where
  | notBound (node : NodeId)
  | noRows (node : NodeId) (kind : NodeKind)
  | endlessRows (node : NodeId)
  | notInsert (node : NodeId)
  | notUpdate (node : NodeId)
  | notSet (node : NodeId)
  | notColumn (node : NodeId)
  | noTarget (property : String)
  | noSource (property : String)
deriving DecidableEq, Repr

namespace MappingFault

/-- The wording of a fault. -/
def detail : MappingFault → String
  | .notBound node => "table node " ++ node.text ++ " is not bound"
  | .noRows node kind => "node " ++ node.text ++ " of kind " ++ kind.name ++ " has no row layout"
  | .endlessRows node => "rows of node " ++ node.text ++ " lead back to themselves"
  | .notInsert node => "node " ++ node.text ++ " is not an INSERT or UPSERT"
  | .notUpdate node => "node " ++ node.text ++ " is not an UPDATE or UPSERT"
  | .notSet node => node.text ++ " is not a SET expression"
  | .notColumn node => "SET target " ++ node.text ++ " is not a column"
  | .noTarget property => "target has no property '" ++ property ++ "'"
  | .noSource property => "source has no property '" ++ property ++ "'"

/-- A fault as an error. -/
def toError (fault : MappingFault) : Error :=
  .mapping fault.detail

end MappingFault

end UnionScript
