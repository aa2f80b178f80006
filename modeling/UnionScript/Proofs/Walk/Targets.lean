import UnionScript.Proofs.Walk.Effect

/-!
# The table under assignment

The assignments of a statement begin and end with a step of their own, and between these
the table under assignment is that of the statement.  The value of an assignment may hold
other statements with assignments of their own, but these end before the value does, so
each column is looked up in the table of the statement that it is assigned in.

* `Walk.Paired` — steps in which assignments begin and end in pairs;
* `Walk.Spells.paired` — those of a walk do;
* `Walk.Paired.targets` — such steps leave the table under assignment as it was;
* `Walk.exists_split_of_assignments` — where the step about an assigned column stands.
-/

namespace UnionScript

/-- The steps that begin or end assignments. -/
def Step.isMark : Step → Bool
  | .beginSet _ | .endSet => true
  | _ => false

/-- A stage that begins or ends assignments. -/
def Stage.isMark : Stage → Bool
  | .own s => s.isMark
  | _ => false

/-- A step that neither begins nor ends assignments leaves the table under assignment. -/
theorem Step.targets_of_perform {s : Surroundings} {p q : Progress} {step : Step}
    (h : step.perform s p = .finished q) (hstep : step.isMark = false) : q.targets = p.targets := by
  cases hpass : step.mayPass with
  | false =>
      cases takes_of_perform h with
      | binds | reports | enters | leaves => rfl
      | passes targets hstep' =>
          rw [hpass] at hstep'
          cases hstep'
  | true =>
      cases step <;> cases hpass <;> cases hstep
      simp only [perform] at h
      split at h <;> cases h <;> rfl

namespace Walk

/-- Steps in which assignments begin and end in pairs. -/
inductive Paired : List Step → Prop
  | nil : Paired []
  | step {s : Step} (hs : s.isMark = false) : Paired [s]
  | append {l l' : List Step} (h : Paired l) (h' : Paired l') : Paired (l ++ l')
  | pair (target : NodeId) {l : List Step} (h : Paired l) :
      Paired (.beginSet target :: (l ++ [.endSet]))

theorem Paired.flatMap {α : Type} {nodes : List α} {f : α → List Step}
    (h : ∀ n ∈ nodes, Paired (f n)) : Paired (nodes.flatMap f) := by
  induction nodes with
  | nil => exact .nil
  | cons n rest ih =>
      rw [List.flatMap_cons]
      exact (h n List.mem_cons_self).append (ih fun m hm => h m (List.mem_cons_of_mem n hm))

/-- **The table under assignment.**  Steps in which assignments begin and end in pairs
leave it as it was. -/
theorem Paired.targets {s : Surroundings} {p q : Progress} {l : List Step} (hl : Paired l)
    (h : run s l p = .finished q) : q.targets = p.targets := by
  induction hl generalizing p q with
  | nil =>
      cases h
      rfl
  | step hs =>
      obtain ⟨m, hstep, hrest⟩ := run_cons_eq_finished h
      cases hrest
      exact Step.targets_of_perform hstep hs
  | append _ _ ih ih' =>
      obtain ⟨m, hfirst, hsecond⟩ := run_append_eq_finished h
      rw [ih' hsecond, ih hfirst]
  | pair target _ ih =>
      obtain ⟨m, hbegin, hrest⟩ := run_cons_eq_finished h
      obtain ⟨m', hbody, hend⟩ := run_append_eq_finished hrest
      obtain ⟨q', hlast, hnil⟩ := run_cons_eq_finished hend
      cases hbegin
      cases hlast
      cases hnil
      rw [ih hbody]
      rfl

/-- The stages of a walk begin and end assignments around a list of them, or not at
all. -/
theorem nodeStages_marks (n : NodeId) (x : Node) :
    (∀ stage ∈ nodeStages n x, stage.isMark = false) ∨
      ∃ first target nodes second,
        nodeStages n x = first ++ (assignments target nodes ++ second) ∧
        (∀ stage ∈ first, stage.isMark = false) ∧ ∀ stage ∈ second, stage.isMark = false := by
  cases x
  case update s =>
    refine Or.inr ⟨.own (.enter n .update false) :: (visitOption s.commonTables ++
      .visit s.target :: visitOption s.source), s.target, s.assignments,
      visitOption s.condition ++ (visitOption s.output ++ [.own .leave]), ?_, ?_, ?_⟩
    · simp [nodeStages, inScope]
    all_goals
      simp only [visitOption, List.forall_mem_append, List.forall_mem_cons, List.forall_mem_map]
      simp [Stage.isMark, Step.isMark]
  case upsert s =>
    refine Or.inr ⟨.own (.enter n .upsert false) :: (visitOption s.commonTables ++
      .visit s.target :: .visit s.source :: visitOption s.condition), s.target, s.assignments,
      [.own .leave], ?_, ?_, ?_⟩
    · simp [nodeStages, inScope]
    all_goals
      simp only [visitOption, List.forall_mem_append, List.forall_mem_cons, List.forall_mem_map]
      simp [Stage.isMark, Step.isMark]
  all_goals
    left
    simp only [nodeStages, block, blockBody, inScope, visitAll, visitOption,
      List.forall_mem_append, List.forall_mem_cons, List.forall_mem_map, List.not_mem_nil]
    simp [Stage.isMark, Step.isMark]

theorem queryStages_marks (tree : Tree) (correlated : Bool) (n : NodeId) :
    ∀ stage ∈ queryStages tree correlated n, stage.isMark = false := by
  unfold queryStages
  split
  · simp only [block, blockBody, inScope, visitAll, visitOption, List.forall_mem_append,
      List.forall_mem_cons, List.forall_mem_map, List.not_mem_nil]
    simp [Stage.isMark, Step.isMark]
  all_goals simp [Stage.isMark]

variable {tree : Tree} {n target : NodeId} {nodes : List NodeId} {word : Stage → List Step}

/-- The steps of a list of assignments, with the steps that begin and end them. -/
theorem flatMap_assignments
    (hword : ∀ stage ∈ assignments target nodes, Spells tree n stage (word stage))
    (hlegal : Legal ((assignments target nodes).flatMap word)) :
    (assignments target nodes).flatMap word =
      .beginSet target :: (nodes.flatMap (fun a => word (.assign a)) ++ [.endSet]) := by
  have hbegin : Stage.own (.beginSet target) ∈ assignments target nodes := by simp [assignments]
  have hend : Stage.own .endSet ∈ assignments target nodes := by simp [assignments]
  have hfirst := (hword _ hbegin).own_eq (hlegal.of_mem_flatMap hbegin)
  have hlast := (hword _ hend).own_eq (hlegal.of_mem_flatMap hend)
  simp [assignments, hfirst, hlast, List.flatMap_map]

/-- **Assignments begin and end in pairs.**  So they do in the steps of a stage that does
not refuse the tree, unless the stage is to begin or end them. -/
theorem Spells.paired {owner : NodeId} {stage : Stage} {l : List Step}
    (h : Spells tree owner stage l) (hlegal : Legal l) (hstage : stage.isMark = false) :
    Paired l := by
  induction h with
  | own owner s => exact .step hstage
  | visit owner m word hword ih =>
      have ih' : ∀ stage ∈ stages tree m, stage.isMark = false → Paired (word stage) :=
        fun stage hstage => ih stage hstage (hlegal.of_mem_flatMap hstage)
      unfold stages at hword ih' hlegal ⊢
      split
      · rename_i x hx
        simp only [hx] at hword ih' hlegal
        rcases nodeStages_marks m x with
          hmarks | ⟨first, target, nodes, second, hsplit, hfirst, hsecond⟩
        · exact .flatMap fun stage hstage => ih' stage hstage (hmarks stage hstage)
        · rw [hsplit] at hword ih' hlegal ⊢
          simp only [List.flatMap_append] at hlegal ⊢
          rw [flatMap_assignments (n := m) (fun stage hmem => hword stage (by simp [hmem]))
            fun fault hfault => hlegal fault (by simp [hfault])]
          refine .append (.flatMap fun stage hmem => ih' stage (by simp [hmem]) (hfirst stage hmem))
            (.append (.pair target (.flatMap fun a ha => ih' (.assign a) ?_ rfl))
              (.flatMap fun stage hmem => ih' stage (by simp [hmem]) (hsecond stage hmem)))
          simp [assignments, ha]
      · exact .nil
  | query owner correlated m word hword ih =>
      exact .flatMap fun stage hmem => ih stage hmem (hlegal.of_mem_flatMap hmem)
        (queryStages_marks tree correlated m stage hmem)
  | orderByAlias | store | declareType => exact .step rfl
  | order columns _ ih => exact ih hlegal rfl
  | @assign owner m column initializer identifier l hset hcolumn hvisit ih =>
      have hrest := ih (fun fault hfault => hlegal fault (List.mem_cons_of_mem _ hfault)) rfl
      exact .append (.step (s := .setColumn column identifier) rfl) hrest
  | reject owner stage fault => exact (hlegal fault (List.mem_singleton_self _)).elim

/-- An assignment is a step about its column and the walk over its value. -/
theorem Spells.assign_eq {owner a : NodeId} {l : List Step} (h : Spells tree owner (.assign a) l)
    (hlegal : Legal l) :
    ∃ column initializer identifier rest,
      tree.get? a = some (.setExpression column initializer) ∧
      tree.get? column = some (.columnReference identifier) ∧
      l = .setColumn column identifier :: rest := by
  cases h with
  | assign hset hcolumn _ => exact ⟨_, _, _, _, hset, hcolumn, rfl⟩
  | reject _ _ fault => exact (hlegal fault (List.mem_singleton_self _)).elim

/-- **The step about an assigned column.**  Between the begin of the assignments and that
step, other assignments begin and end in pairs. -/
theorem exists_split_of_assignments
    (hword : ∀ stage ∈ assignments target nodes, Spells tree n stage (word stage))
    (hlegal : Legal ((assignments target nodes).flatMap word)) {a : NodeId} (ha : a ∈ nodes) :
    ∃ column initializer identifier between rest,
      tree.get? a = some (.setExpression column initializer) ∧
      tree.get? column = some (.columnReference identifier) ∧
      (assignments target nodes).flatMap word =
        .beginSet target :: (between ++ .setColumn column identifier :: rest) ∧
      Paired between := by
  have hassign : ∀ a ∈ nodes, Stage.assign a ∈ assignments target nodes := by
    intro a ha
    simp [assignments, ha]
  obtain ⟨column, initializer, identifier, rest, hset, hcolumn, hsteps⟩ :=
    (hword _ (hassign a ha)).assign_eq (hlegal.of_mem_flatMap (hassign a ha))
  have hflat := flatMap_assignments hword hlegal
  obtain ⟨earlier, later, rfl⟩ := List.append_of_mem ha
  refine ⟨column, initializer, identifier, earlier.flatMap (fun b => word (.assign b)),
    rest ++ (later.flatMap (fun b => word (.assign b)) ++ [.endSet]), hset, hcolumn, ?_,
    .flatMap fun b hb => ?_⟩
  · simp [hflat, hsteps]
  · have hmem := hassign b (List.mem_append_left _ hb)
    exact (hword _ hmem).paired (hlegal.of_mem_flatMap hmem) rfl

end Walk

end UnionScript
