import UnionScript.Document.Transfer
import UnionScript.Proofs.BoundScript.Ambiguity
import UnionScript.Proofs.BoundScript.AssignedProperties
import UnionScript.Proofs.BoundScript.CaseFolding
import UnionScript.Proofs.BoundScript.Dependencies
import UnionScript.Proofs.BoundScript.DepthLimit
import UnionScript.Proofs.BoundScript.Errors
import UnionScript.Proofs.BoundScript.Meaning
import UnionScript.Proofs.BoundScript.Narrowing
import UnionScript.Proofs.BoundScript.Prefix
import UnionScript.Proofs.BoundScript.ProjectedNames
import UnionScript.Proofs.BoundScript.Skeleton
import UnionScript.Proofs.BoundScript.Strictness
import UnionScript.Proofs.BoundScript.Tables
import UnionScript.Proofs.BoundScript.Variables
import UnionScript.Proofs.Entity
import UnionScript.Proofs.Layout.Expansion
import UnionScript.Proofs.Layout.RowSources
import UnionScript.Proofs.Schema.History
import UnionScript.Proofs.Scope.Likeness
import UnionScript.Proofs.Scope.Transparency
import UnionScript.Proofs.Syntax.Leftmost
import UnionScript.Proofs.Syntax.Respelling
import UnionScript.Proofs.Syntax.Slots
import UnionScript.Proofs.Transfer.Assignments
import UnionScript.Proofs.Transfer.Coherence
import UnionScript.Proofs.Transfer.Coverage
import UnionScript.Proofs.Transfer.InsertSelect
import UnionScript.Proofs.Typing.Leaves
import UnionScript.Proofs.Typing.Limit
import UnionScript.Proofs.UnionType.Semilattice
import UnionScript.Proofs.Value
import UnionScript.Proofs.Walk.Failure
import UnionScript.Proofs.Walk.Isolation
import UnionScript.Proofs.Walk.Lockstep
import UnionScript.Proofs.Walk.Precedence
import UnionScript.Proofs.Walk.Refusal
import UnionScript.Proofs.Walk.Respelling
import UnionScript.Proofs.Walk.Segment
import UnionScript.Proofs.Walk.Targets
import UnionScript.Transfer.Statement
