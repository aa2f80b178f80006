import UnionScript.Walk.Perform

/-!
# Following a walk

A node may be used in several places, so the walk over a tree can have far more steps than the tree
has nodes.  Following a walk takes each step as soon as it is reached and expands nothing behind a
step that cannot be taken.

Main statement: `Walk.follow_eq_run`, that following leads where the list of all steps leads.
-/

namespace UnionScript

namespace Walk

variable (s : Surroundings)

/-- Follows parts in turn. -/
def followAll (follow : Part → Progress → Outcome) : List Part → Progress → Outcome
  | [], p => .finished p
  | part :: rest, p => (follow part p).andThen (followAll follow rest)

/-- Follows a part, given how to follow the walks over nodes. -/
def followPart (visit : NodeId → Progress → Outcome) (query : Bool → NodeId → Progress → Outcome) :
    Part → Progress → Outcome
  | .step step, p => step.perform s p
  | .visit n, p => visit n p
  | .query correlated n, p => query correlated n p

/-- Follows the walk over what stands in the place of a query, at most `fuel` links away from its
blocks. -/
def followQuery (visit : NodeId → Progress → Outcome) :
    Nat → Bool → NodeId → Progress → Outcome
  | 0, _, n, _ => .malformed (.endlessQuery n)
  | fuel + 1, correlated, n, p =>
    followAll (followPart s visit (followQuery visit fuel)) (queryParts s.tree correlated n) p

/-- Follows the walk over a node that may still be nested `depth` levels deep. -/
def follow (limit : Nat) : Nat → NodeId → Progress → Outcome
  | 0, n, _ => .malformed (.nesting limit n)
  | depth + 1, n, p =>
    followAll (followPart s (follow limit depth)
      (followQuery s (follow limit depth) (queryFuel s.tree))) (parts s.tree n) p

/-- Steps after steps lead on from where the first of them lead. -/
theorem run_append (first second : List Step) (p : Progress) :
    run s (first ++ second) p = (run s first p).andThen (run s second) := by
  induction first generalizing p with
  | nil => rfl
  | cons step rest ih =>
    simp only [List.cons_append, run]
    cases step.perform s p with
    | finished q => exact ih q
    | schemaFailed q detail => rfl
    | malformed fault => rfl

/-- A single step leads where it leads by itself. -/
theorem run_singleton (step : Step) (p : Progress) : run s [step] p = step.perform s p := by
  simp only [run]
  cases step.perform s p <;> rfl

/-- Parts that are followed as their steps say are, in turn, followed as all their steps say. -/
theorem followAll_eq_run {follow : Part → Progress → Outcome} {expand : Part → List Step}
    (h : ∀ part p, follow part p = run s (expand part) p) (parts : List Part) (p : Progress) :
    followAll follow parts p = run s (parts.flatMap expand) p := by
  induction parts generalizing p with
  | nil => rfl
  | cons part rest ih =>
    simp only [followAll, List.flatMap_cons, run_append, h]
    cases run s (expand part) p with
    | finished q => exact ih q
    | schemaFailed q detail => rfl
    | malformed fault => rfl

/-- A part is followed as its steps say if the walks over nodes are. -/
theorem followPart_eq_run {visit : NodeId → Progress → Outcome}
    {query : Bool → NodeId → Progress → Outcome} {visitSteps : NodeId → List Step}
    {querySteps : Bool → NodeId → List Step}
    (hvisit : ∀ n p, visit n p = run s (visitSteps n) p)
    (hquery : ∀ c n p, query c n p = run s (querySteps c n) p) (part : Part) (p : Progress) :
    followPart s visit query part p = run s (expand visitSteps querySteps part) p := by
  cases part with
  | step step => exact (run_singleton s step p).symm
  | visit n => exact hvisit n p
  | query correlated n => exact hquery correlated n p

/-- Queries are followed as their steps say if the walks over nodes are. -/
theorem followQuery_eq_run {visit : NodeId → Progress → Outcome} {visitSteps : NodeId → List Step}
    (hvisit : ∀ n p, visit n p = run s (visitSteps n) p) (fuel : Nat) (correlated : Bool)
    (n : NodeId) (p : Progress) :
    followQuery s visit fuel correlated n p =
      run s (querySteps s.tree visitSteps fuel correlated n) p := by
  induction fuel generalizing correlated n p with
  | zero => rfl
  | succ fuel ih => exact followAll_eq_run s (followPart_eq_run s hvisit ih) _ p

/-- Following a walk leads where the list of its steps leads. -/
theorem follow_eq_run (limit depth : Nat) (n : NodeId) (p : Progress) :
    follow s limit depth n p = run s (steps s.tree limit depth n) p := by
  induction depth generalizing n p with
  | zero => rfl
  | succ depth ih =>
    exact followAll_eq_run s (followPart_eq_run s ih (followQuery_eq_run s ih _)) _ p

end Walk

end UnionScript
