import UnionScript.Walk.Follow

/-!
# Bound scripts

Binding walks over a script and keeps the scopes, what each node is bound to, and what could not be
resolved.  Names that are not found are reported and the walk goes on.  A schema that fails stops
the walk: all scopes are left, and the failure is the last thing that is reported.  Only a malformed
tree is an error.
-/

namespace UnionScript

/-- How strictly names are resolved and how deep trees may be nested. -/
structure Config where
  strict : Bool := true
  maxDepth : Nat := 256
deriving DecidableEq, Repr

/-- What binding found out about a script. -/
structure BoundScript where
  scopes : ScopeTree
  bindings : Bindings
  diagnostics : List Diagnostic

namespace BoundScript

/-- What is known at the end of a walk. -/
def ofProgress (p : Progress) : BoundScript :=
  ⟨p.scopes, p.bindings, p.diagnostics.toList⟩

/-- What is known when the schema failed. -/
def ofFailure (p : Progress) (detail : String) : BoundScript :=
  ⟨p.scopes.leaveAll, p.bindings, p.diagnostics.toList ++ [.schema detail]⟩

/-- The result of a walk. -/
def ofOutcome : Outcome → Except StructureFault BoundScript
  | .finished p => .ok (ofProgress p)
  | .schemaFailed p detail => .ok (ofFailure p detail)
  | .malformed fault => .error fault

/-- Everything was resolved. -/
def isSuccess (b : BoundScript) : Bool :=
  b.diagnostics.isEmpty

/-- The wordings of what could not be resolved. -/
def messages (b : BoundScript) : List String :=
  b.diagnostics.map Diagnostic.message

/-- The script if everything was resolved, and all that was not as an error otherwise. -/
def toExcept (b : BoundScript) : Except Error BoundScript :=
  if b.isSuccess then .ok b else .error (Error.ofDiagnostics b.diagnostics)

end BoundScript

/-- Binds the names of a tree, from its root on. -/
def bindScript (config : Config) (tree : Tree) (provider : Provider) (root : NodeId) :
    Except StructureFault BoundScript :=
  BoundScript.ofOutcome
    (Walk.follow ⟨tree, provider, config.strict⟩ config.maxDepth config.maxDepth root {})

/-- Binding is the result of all steps of the walk over the tree. -/
theorem bindScript_eq_run (config : Config) (tree : Tree) (provider : Provider) (root : NodeId) :
    bindScript config tree provider root =
      BoundScript.ofOutcome
        (Walk.run ⟨tree, provider, config.strict⟩ (tree.walk config.maxDepth root) {}) := by
  unfold bindScript Tree.walk
  rw [Walk.follow_eq_run]

end UnionScript
