import UnionScript.Proofs.Scope.Lookup
import UnionScript.Proofs.Walk.Effect
import UnionScript.Proofs.Walk.Placement

/-!
# Walks are balanced

A walk leaves every scope that it enters, and none that it did not enter, like a
word of matching brackets.  This holds of the walk over any tree, whatever its
shape, and needs no run: it is a fact about lists of steps (`steps_balanced`,
`querySteps_balanced`).

What follows for runs is that they come back to the scope that they started in
and only add scopes (`Balanced.returns`), and a way to prove things about all
scopes that a run passes through: it is enough that entering a scope keeps them
and that they are the same again on return (`Balanced.keeps`).
-/

namespace UnionScript

namespace Walk

/-- Lists of steps that leave exactly the scopes that they enter. -/
inductive Balanced : List Step → Prop
  | nil : Balanced []
  | step {step : Step} (h : (Stage.own step).isQuiet) : Balanced [step]
  | append {first second : List Step} (h : Balanced first) (h' : Balanced second) :
      Balanced (first ++ second)
  | scope (n : NodeId) (kind : NodeKind) (correlated : Bool) {body : List Step}
      (h : Balanced body) : Balanced (.enter n kind correlated :: (body ++ [.leave]))

/-- Balanced lists one after the other are balanced. -/
theorem Balanced.flatMap {α : Type} {l : List α} {f : α → List Step}
    (h : ∀ a ∈ l, Balanced (f a)) : Balanced (l.flatMap f) := by
  induction l with
  | nil => exact .nil
  | cons a rest ih =>
      rw [List.forall_mem_cons] at h
      rw [List.flatMap_cons]
      exact .append h.1 (ih h.2)

/-- The steps of a scope around stages. -/
theorem inScope_steps (tree : Tree) (visit : NodeId → List Step)
    (query : Bool → NodeId → List Step) (n owner : NodeId) (kind : NodeKind) (correlated : Bool)
    (body : List Stage) :
    ((inScope owner kind correlated body).flatMap (stageParts tree n)).flatMap
        (expand visit query) =
      .enter owner kind correlated ::
        ((body.flatMap (stageParts tree n)).flatMap (expand visit query) ++ [.leave]) := by
  simp [inScope, stageParts, expand]

section

variable {tree : Tree} {visit : NodeId → List Step} {query : Bool → NodeId → List Step}
  (hvisit : ∀ n, Balanced (visit n)) (hquery : ∀ c n, Balanced (query c n))

include hvisit hquery

/-- The steps of a quiet stage are balanced if the walks over nodes are. -/
theorem stageParts_balanced (n : NodeId) {stage : Stage} (hquiet : stage.isQuiet) :
    Balanced ((stageParts tree n stage).flatMap (expand visit query)) := by
  cases stage with
  | own step => simpa [stageParts, expand] using Balanced.step hquiet
  | visit child => simpa [stageParts, expand] using hvisit child
  | query correlated child => simpa [stageParts, expand] using hquery correlated child
  | order columns item =>
      simp only [stageParts, orderItem, List.flatMap_singleton]
      split
      · split
        · exact .step rfl
        · exact hvisit item
      · exact hvisit item
  | assign child =>
      simp only [stageParts, assignment]
      split
      · split
        · rename_i initializer _ _ _ _
          simpa [expand] using Balanced.append (.step rfl) (hvisit initializer)
        · exact .step rfl
      · exact .step rfl
  | store clause =>
      simp only [stageParts, into, List.flatMap_singleton]
      split <;> exact .step rfl
  | declareType name type initializer =>
      simp only [stageParts, declaredType, List.flatMap_singleton]
      split <;> exact .step rfl

/-- The steps of quiet stages are balanced. -/
theorem quiet_balanced (n : NodeId) {body : List Stage} (hquiet : ∀ stage ∈ body, stage.isQuiet) :
    Balanced ((body.flatMap (stageParts tree n)).flatMap (expand visit query)) := by
  rw [List.flatMap_assoc]
  exact .flatMap fun stage hstage => stageParts_balanced hvisit hquery n (hquiet stage hstage)

/-- The walk over a node is balanced if the walks over the nodes below are. -/
theorem parts_balanced (n : NodeId) :
    Balanced ((parts tree n).flatMap (expand visit query)) := by
  unfold parts stages
  cases tree.get? n with
  | none => exact .nil
  | some x =>
      rcases nodeStages_quiet n x with ⟨-, body, hbody, hquiet⟩ | ⟨-, hquiet⟩
      · simp only [hbody, inScope_steps]
        exact .scope _ _ _ (quiet_balanced hvisit hquery n hquiet)
      · exact quiet_balanced hvisit hquery n hquiet

/-- So is the walk over what stands in the place of a query. -/
theorem queryParts_balanced (correlated : Bool) (n : NodeId) :
    Balanced ((queryParts tree correlated n).flatMap (expand visit query)) := by
  unfold queryParts queryStages
  split
  · rename_i b _
    rw [block, inScope_steps]
    exact .scope _ _ _ (quiet_balanced hvisit hquery n (blockBody_quiet b))
  · rename_i left right _ _
    simpa [stageParts, expand] using
      Balanced.append (hquery correlated left) (hquery correlated right)
  · rename_i expression _
    simpa [stageParts, expand] using hquery correlated expression
  · simpa [stageParts, expand] using hvisit n

end

/-- **Queries are balanced**, at any distance from their blocks. -/
theorem querySteps_balanced {tree : Tree} {visit : NodeId → List Step}
    (hvisit : ∀ n, Balanced (visit n)) (fuel : Nat) (correlated : Bool) (n : NodeId) :
    Balanced (querySteps tree visit fuel correlated n) := by
  induction fuel generalizing correlated n with
  | zero => exact .step rfl
  | succ fuel ih => exact queryParts_balanced hvisit ih correlated n

/-- **Walks are balanced**, at any depth. -/
theorem steps_balanced (tree : Tree) (limit depth : Nat) (n : NodeId) :
    Balanced (steps tree limit depth n) := by
  induction depth generalizing n with
  | zero => exact .step rfl
  | succ depth ih => exact parts_balanced ih (querySteps_balanced ih _) n

end Walk

/-- A step keeps the law of nested scopes. -/
theorem Step.Takes.nested {s : Surroundings} {p q : Progress} {step : Step}
    (h : step.Takes s p q) (hp : Nested p.scopes.frames p.scopes.current) :
    Nested q.scopes.frames q.scopes.current := by
  cases h with
  | binds hn hb hscopes =>
      obtain ⟨hframes, hcurrent⟩ := hscopes.same_frames
      simpa only [hframes, hcurrent] using hp
  | reports | passes => exact hp
  | enters hstep hscopes => exact ScopeTree.nested_of_enter hp hscopes
  | leaves hstep hscopes =>
      have hact := ScopeTree.nested_act hp .leave
      rwa [ScopeTree.act, ScopeAction.perform, hscopes] at hact

namespace Walk

variable {s : Surroundings} {p q : Progress} {l : List Step}

/-- A quiet step leaves the frames and the current scope alone. -/
theorem returns_of_quiet {step : Step} (hquiet : (Stage.own step).isQuiet)
    (h : step.perform s p = .finished q) : p.scopes.Returns q.scopes := by
  cases Step.takes_of_perform h with
  | binds hn hb hscopes =>
      obtain ⟨hframes, hcurrent⟩ := hscopes.same_frames
      exact ⟨hcurrent, hframes ▸ List.prefix_rfl⟩
  | reports | passes => exact .refl _
  | enters hstep => subst hstep; cases hquiet
  | leaves hstep => subst hstep; cases hquiet

/-- **Balanced runs return.**  They end in the scope that they started in, and
the scopes that were there keep their frames. -/
theorem Balanced.returns (hl : Balanced l) (h : run s l p = .finished q) :
    p.scopes.Returns q.scopes := by
  induction hl generalizing p q with
  | nil =>
      cases h
      exact .refl _
  | step hquiet =>
      rw [run_singleton] at h
      exact returns_of_quiet hquiet h
  | append _ _ ih ih' =>
      obtain ⟨m, hfirst, hsecond⟩ := run_append_eq_finished h
      exact (ih hfirst).trans (ih' hsecond)
  | scope n kind correlated _ ih =>
      obtain ⟨m, henter, h⟩ := run_cons_eq_finished h
      obtain ⟨m', hbody, hleave⟩ := run_append_eq_finished h
      rw [run_singleton] at hleave
      simp only [Step.perform] at henter hleave
      obtain ⟨entered, hentered, rfl⟩ := Step.changeScopes_eq_finished henter
      obtain ⟨left, hleft, rfl⟩ := Step.changeScopes_eq_finished hleave
      exact ScopeTree.returns_of_scope hentered (ih hbody) hleft

/-- Runs keep the law of nested scopes. -/
theorem run_nested (hp : Nested p.scopes.frames p.scopes.current)
    (h : run s l p = .finished q) : Nested q.scopes.frames q.scopes.current := by
  have hprogress : (run s l p).progress? = some q := by rw [h, Outcome.progress?]
  exact run_invariant (fun p => Nested p.scopes.frames p.scopes.current)
    (fun step _ p q hp htakes => htakes.nested hp) hp hprogress

/-- Something holds of the scopes before every step that a run gets to. -/
def Keeps (s : Surroundings) (I : Step → ScopeTree → Prop) : List Step → Progress → Prop
  | [], _ => True
  | step :: rest, p => I step p.scopes ∧ ∀ q, step.perform s p = .finished q → Keeps s I rest q

/-- What holds along steps and, from where they lead, along further steps, holds
along all of them. -/
theorem Keeps.append {I : Step → ScopeTree → Prop} {first second : List Step}
    (h : Keeps s I first p) (h' : ∀ q, run s first p = .finished q → Keeps s I second q) :
    Keeps s I (first ++ second) p := by
  induction first generalizing p with
  | nil => exact h' p rfl
  | cons step rest ih =>
      refine ⟨h.1, fun m hm => ih (h.2 m hm) fun q hq => h' q ?_⟩
      simp only [run, hm, Outcome.andThen, hq]

/-- What follows from something that holds along steps holds along them. -/
theorem Keeps.mono {I J : Step → ScopeTree → Prop} (h : Keeps s I l p)
    (himp : ∀ step t, I step t → J step t) : Keeps s J l p := by
  induction l generalizing p with
  | nil => trivial
  | cons step rest ih => exact ⟨himp step _ h.1, fun q hq => ih (h.2 q hq)⟩

/-- What holds along steps holds along the first of them. -/
theorem Keeps.left {I : Step → ScopeTree → Prop} {first rest : List Step}
    (h : Keeps s I (first ++ rest) p) : Keeps s I first p := by
  induction first generalizing p with
  | nil => trivial
  | cons step first ih => exact ⟨h.1, fun m hm => ih (h.2 m hm)⟩

/-- What holds along steps holds before the one that is taken next. -/
theorem Keeps.before {I : Step → ScopeTree → Prop} {first rest : List Step} {step : Step}
    (h : Keeps s I (first ++ step :: rest) p) (hrun : run s first p = .finished q) :
    I step q.scopes := by
  induction first generalizing p with
  | nil =>
      cases hrun
      exact h.1
  | cons step' first ih =>
      obtain ⟨m, hstep, hrun⟩ := run_cons_eq_finished hrun
      exact ih (h.2 m hstep) hrun

/-- **Along balanced runs.**  Something holds of the scopes all along a balanced
run if it holds at the start, is kept by entering a scope, and holds again
whenever scopes that it holds of are returned to. -/
theorem Balanced.keeps {I : ScopeTree → Prop} (hl : Balanced l)
    (henter : ∀ owner kind correlated t t', Nested t.frames t.current → I t →
      t.enter owner kind correlated = .ok t' → I t')
    (hreturn : ∀ t t', Nested t.frames t.current → Nested t'.frames t'.current → I t →
      t.Returns t' → I t')
    (hnested : Nested p.scopes.frames p.scopes.current) (hp : I p.scopes) :
    Keeps s (fun _ t => Nested t.frames t.current ∧ I t) l p := by
  induction hl generalizing p with
  | nil => trivial
  | step hquiet => exact ⟨⟨hnested, hp⟩, fun _ _ => trivial⟩
  | append hfirst _ ih ih' =>
      refine (ih hnested hp).append fun q hq => ?_
      have hnested' := run_nested hnested hq
      exact ih' hnested' (hreturn _ _ hnested hnested' hp (hfirst.returns hq))
  | @scope n kind correlated body hbody ih =>
      refine ⟨⟨hnested, hp⟩, fun m hm => ?_⟩
      have hnested' := (Step.takes_of_perform hm).nested hnested
      simp only [Step.perform] at hm
      obtain ⟨entered, hentered, rfl⟩ := Step.changeScopes_eq_finished hm
      have hI : I entered := henter n kind correlated _ _ hnested hp hentered
      refine (ih hnested' hI).append fun m' hm' => ?_
      have hnested'' := run_nested hnested' hm'
      exact ⟨⟨hnested'', hreturn _ _ hnested' hnested'' hI (hbody.returns hm')⟩,
        fun _ _ => trivial⟩

end Walk

end UnionScript
