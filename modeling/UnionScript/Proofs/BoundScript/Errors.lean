import UnionScript.Proofs.Walk.Failure
import UnionScript.Proofs.Walk.Refusal
import UnionScript.Proofs.Walk.Success

/-!
# Only malformed trees are errors

Binding ends in an error in two ways: the walk refuses the tree, or a scope is
entered, left or changed that cannot be (`Step.malformed_cases`).  The second never
happens inside of a scope that is no query block (`ScopeTree.Hosts`), and the
scope of a script is around everything else.  So a script whose tree is not refused
is always bound, whatever the schema does.

A schema that fails is no error.  It ends the walk, and is the last thing that is
reported.
-/

namespace UnionScript

/-- Faults in the order of scopes, as opposed to the shape of a tree. -/
def StructureFault.isOfScopes : StructureFault → Bool
  | .intoWithoutScope _ | .correlatedWithoutStatement _ | .closeWithoutOpen | .noOpenScope => true
  | _ => false

namespace ScopeTree

variable {t base : ScopeTree} {fault : StructureFault}

/-- There is a current scope, and not only query blocks can be seen from it. -/
structure Hosts (t : ScopeTree) : Prop where
  current : t.current ≠ none
  nearest : (t.nearest? t.current (fun s => s.kind != .selectExpression)).isSome

/-- A scope cannot be entered where only blocks can be seen. -/
theorem not_hosts_of_enter {owner : NodeId} {kind : NodeKind} {correlated : Bool}
    (h : t.enter owner kind correlated = .error fault) : ¬ t.Hosts ∧ fault.isOfScopes := by
  unfold enter at h
  split at h
  · rename_i hblocked
    cases h
    refine ⟨fun hhosts => ?_, rfl⟩
    have hsome := hhosts.nearest
    simp [Option.isNone_iff_eq_none.1 hblocked.2] at hsome
  · cases h

/-- No scope can be left where there is none. -/
theorem not_hosts_of_leave (h : t.leave = .error fault) : ¬ t.Hosts ∧ fault.isOfScopes := by
  unfold leave at h
  split at h
  · rename_i hcurrent
    cases h
    exact ⟨fun hhosts => hhosts.current hcurrent, rfl⟩
  · cases h

/-- No scope can be changed where there is none. -/
theorem not_hosts_of_changeCurrent {f : Scope → Scope} (h : t.changeCurrent f = .error fault) :
    ¬ t.Hosts ∧ fault.isOfScopes := by
  unfold changeCurrent at h
  split at h
  · rename_i hcurrent
    cases h
    exact ⟨fun hhosts => hhosts.current hcurrent, rfl⟩
  · cases h

/-- Rows can be stored wherever there is a current scope. -/
theorem not_hosts_of_storageScope? (h : storageScope? t = none) : ¬ t.Hosts := by
  unfold storageScope? at h
  split at h
  · simp at h
  · exact fun hhosts => hhosts.current h

/-- **Inside of a script.**  Inside of a scope that is no block, that scope can be
seen. -/
theorem Inside.hosts (hinside : Inside base t) (hbase : Nested base.frames base.current)
    (h : Nested t.frames t.current) {top : ScopeId} (htop : base.current = some top) {s : Scope}
    (hs : base.get? top = some s) (hkind : s.kind ≠ .selectExpression) : t.Hosts := by
  have hblock : s.isUncorrelatedBlock = false := by simp [Scope.isUncorrelatedBlock, hkind]
  obtain ⟨seen, hchain, -⟩ := hinside.chain hbase h htop hs hblock
  have hmem : top ∈ t.chain t.current := by
    rw [hchain, chain_some hbase hs]
    simp
  obtain ⟨s', hs', hframe⟩ := exists_of_frame (frame_persists hinside.grown (frame_of_get? hs))
  have hkind' : s'.kind = s.kind := congrArg Frame.kind hframe
  refine ⟨fun hnone => ?_, List.find?_isSome.2 ⟨top, hmem, ?_⟩⟩
  · simp [hnone, chain_none] at hmem
  · simp [hs', hkind', hkind]

end ScopeTree

namespace Step

variable {s : Surroundings} {p q : Progress} {step : Step} {fault : StructureFault}

theorem changeScopes_eq_malformed {change : ScopeTree → Except StructureFault ScopeTree}
    (h : p.changeScopes change = .malformed fault) : change p.scopes = .error fault := by
  simp only [Progress.changeScopes] at h
  split at h
  · cases h
  · rename_i hchange
    cases h
    exact hchange

theorem ask_eq_malformed {α : Type} {answer : Except Error α} {next : α → Progress → Outcome}
    (h : p.ask answer next = .malformed fault) : ∃ a, next a p = .malformed fault := by
  cases answer with
  | ok a => exact ⟨a, h⟩
  | error e => cases h

/-- **How steps go wrong.**  A step finds the tree malformed because it refuses it,
or because of the scopes it is taken in. -/
theorem malformed_cases (h : step.perform s p = .malformed fault) :
    step = .reject fault ∨ (¬ p.scopes.Hosts ∧ fault.isOfScopes) := by
  have hcurrent : ∀ {n b f}, (p.bind n b).changeScopes (·.changeCurrent f) = .malformed fault →
      ¬ p.scopes.Hosts ∧ fault.isOfScopes :=
    fun h => ScopeTree.not_hosts_of_changeCurrent (changeScopes_eq_malformed h)
  cases step with
  | enter owner kind correlated =>
      rw [perform] at h
      exact Or.inr (ScopeTree.not_hosts_of_enter (changeScopes_eq_malformed h))
  | leave => exact Or.inr (ScopeTree.not_hosts_of_leave (changeScopes_eq_malformed h))
  | defineTable n name => exact Or.inr (hcurrent h)
  | deriveTable n query aliasName => exact Or.inr (hcurrent h)
  | useTable n identifier aliasName =>
      obtain ⟨found, h⟩ := ask_eq_malformed h
      cases found with
      | none => cases h
      | some source => exact Or.inr (hcurrent h)
  | useColumn n identifier =>
      obtain ⟨found, h⟩ := ask_eq_malformed h
      cases found with
      | some member => cases h
      | none =>
          simp only [Progress.bindColumn] at h
          split at h
          · exact Or.inr (hcurrent h)
          · cases h
  | declare n typeName name initializer =>
      obtain ⟨found, h⟩ := ask_eq_malformed h
      cases found with
      | none => cases h
      | some type => exact Or.inr (hcurrent h)
  | storeInto n source target =>
      simp only [perform] at h
      split at h
      · cases changeScopes_eq_malformed h
      · rename_i hstorage
        cases h
        exact Or.inr ⟨ScopeTree.not_hosts_of_storageScope? hstorage, rfl⟩
  | useVariable | callFunction | setColumn =>
      simp only [perform] at h
      split at h <;> cases h
  | useProjection | beginSet | endSet => cases h
  | reject fault' =>
      cases h
      exact Or.inl rfl

end Step

namespace Walk

variable {s : Surroundings} {p : Progress} {l body : List Step} {fault : StructureFault}

/-- The schema fails with an error at a step that the run of some steps gets to. -/
def FailsWith (s : Surroundings) (l : List Step) (e : Error) : Prop :=
  ∃ before step behind q, l = before ++ step :: behind ∧ run s before {} = .finished q ∧
    step.FailsWith s q e

/-- A run that finds the tree malformed does so at one of its steps. -/
theorem exists_of_run_eq_malformed (h : run s l p = .malformed fault) :
    ∃ step ∈ l, ∃ q, step.perform s q = .malformed fault := by
  induction l generalizing p with
  | nil => cases h
  | cons step rest ih =>
      cases hstep : step.perform s p with
      | finished q =>
          rw [run, hstep] at h
          obtain ⟨step', hmem, hq⟩ := ih h
          exact ⟨step', List.mem_cons_of_mem step hmem, hq⟩
      | schemaFailed q detail =>
          rw [run, hstep] at h
          cases h
      | malformed fault' =>
          rw [run, hstep] at h
          cases h
          exact ⟨step, List.mem_cons_self, p, hstep⟩

/-- Where no step refuses the tree and not only blocks can be seen, runs do not
find the tree malformed. -/
theorem Keeps.run_ne_malformed
    (h : Keeps s (fun _ t => Nested t.frames t.current ∧ t.Hosts) l p) (hlegal : Legal l) :
    run s l p ≠ .malformed fault := by
  induction l generalizing p with
  | nil => exact fun hrun => by cases hrun
  | cons step rest ih =>
      intro hrun
      obtain ⟨⟨-, hhosts⟩, hrest⟩ := h
      cases hstep : step.perform s p with
      | finished q =>
          rw [run, hstep] at hrun
          refine ih (hrest q hstep) (fun fault hmem => ?_) hrun
          exact hlegal fault (List.mem_cons_of_mem step hmem)
      | schemaFailed q detail =>
          rw [run, hstep] at hrun
          cases hrun
      | malformed fault' =>
          rcases Step.malformed_cases hstep with rfl | ⟨hnot, -⟩
          · exact hlegal fault' List.mem_cons_self
          · exact hnot hhosts

/-- **Scripts are bound.**  Steps in the scope of a script that do not refuse the
tree do not find it malformed. -/
theorem run_script_ne_malformed {root : NodeId} (hbody : Balanced body)
    (hlegal : Legal (.enter root .script false :: (body ++ [.leave]))) :
    run s (.enter root .script false :: (body ++ [.leave])) {} ≠ .malformed fault := by
  have hempty : Nested ScopeTree.empty.frames ScopeTree.empty.current :=
    ScopeTree.nested_after []
  obtain ⟨entered, hentered⟩ : ∃ t, ScopeTree.empty.enter root .script false = .ok t :=
    ⟨_, ScopeTree.enter_eq_ok_iff.2 ⟨by simp, rfl⟩⟩
  have hnested := ScopeTree.nested_of_enter hempty hentered
  obtain ⟨hcurrent, hscope⟩ := ScopeTree.get?_of_enter hentered
  have hperform : (Step.enter root .script false).perform s {} =
      .finished { scopes := entered } := by
    rw [Step.perform]
    exact Progress.changeScopes_of_ok hentered
  -- Everything up to the end of the script is inside of its scope.
  have hkeeps : Keeps s (fun _ t => Nested t.frames t.current ∧ ScopeTree.Inside entered t)
      (body ++ [.leave]) { scopes := entered } := by
    refine (hbody.keeps (fun _ _ _ _ _ h hin hent => hin.enter h hent)
      (fun _ _ h h' hin hreturn => hin.returns h h' hreturn) hnested (.refl entered)).append ?_
    intro q hq
    have hnested' := run_nested hnested hq
    have hin := (ScopeTree.Inside.refl entered).returns hnested hnested' (hbody.returns hq)
    exact ⟨⟨hnested', hin⟩, fun _ _ => trivial⟩
  have hhosts : Keeps s (fun _ t => Nested t.frames t.current ∧ t.Hosts)
      (body ++ [.leave]) { scopes := entered } :=
    hkeeps.mono fun _ _ h =>
      ⟨h.1, h.2.hosts hnested h.1 hcurrent hscope (by simp [ScopeTree.fresh])⟩
  rw [run, hperform]
  exact hhosts.run_ne_malformed fun fault hmem => hlegal fault (List.mem_cons_of_mem _ hmem)

end Walk

section

variable {config : Config} {tree : Tree} {provider : Provider} {root : NodeId}

/-- Binding is an error where the run of the walk finds the tree malformed. -/
theorem bindScript_eq_error_iff {fault : StructureFault} :
    bindScript config tree provider root = .error fault ↔
      Walk.run ⟨tree, provider, config.strict⟩ (tree.walk config.maxDepth root) {} =
        .malformed fault := by
  rw [bindScript_eq_run]
  cases Walk.run ⟨tree, provider, config.strict⟩ (tree.walk config.maxDepth root) {} <;>
    simp [BoundScript.ofOutcome]

/-- A failure of the schema on the way ends the result. -/
theorem bindScript_of_failsWith {e : Error}
    (h : Walk.FailsWith ⟨tree, provider, config.strict⟩ (tree.walk config.maxDepth root) e) :
    ∃ q, Walk.run ⟨tree, provider, config.strict⟩ (tree.walk config.maxDepth root) {} =
        .schemaFailed q e.asSchemaDetail ∧
      bindScript config tree provider root = .ok (.ofFailure q e.asSchemaDetail) := by
  obtain ⟨before, step, behind, q, hsplit, hbefore, hfails⟩ := h
  have hrun := Walk.run_eq_schemaFailed_iff.2
    ⟨before, step, behind, e, hsplit, hbefore, hfails, rfl⟩
  exact ⟨q, hrun, by rw [bindScript_eq_run, hrun, BoundScript.ofOutcome]⟩

/-- A failure of the schema is reported only where there was one. -/
theorem failsWith_of_bindScript {bound : BoundScript} {detail : String}
    (hbind : bindScript config tree provider root = .ok bound)
    (hmem : Diagnostic.schema detail ∈ bound.diagnostics) :
    ∃ e, Walk.FailsWith ⟨tree, provider, config.strict⟩ (tree.walk config.maxDepth root) e ∧
      detail = e.asSchemaDetail := by
  rcases bindScript_eq_ok_cases hbind with ⟨q, hrun, rfl⟩ | ⟨q, detail', hrun, rfl⟩
  · have hnot := Walk.run_schema_not_mem (congrArg Outcome.progress? hrun) detail
    exact (hnot (by simpa [BoundScript.ofProgress] using hmem)).elim
  · have hnot := Walk.run_schema_not_mem (congrArg Outcome.progress? hrun) detail
    have hdetail : detail = detail' := by
      simpa [BoundScript.ofFailure, hnot] using hmem
    obtain ⟨before, step, behind, e, hsplit, hbefore, hfails, he⟩ :=
      Walk.run_eq_schemaFailed_iff.1 hrun
    exact ⟨e, ⟨before, step, behind, q, hsplit, hbefore, hfails⟩, hdetail.trans he⟩

end

/-- **Only malformed trees are errors.**  In a tree in which no way down goes on
forever, an error of binding is a fault in the order of scopes or one that the tree
shows, and never a query without end.  A failure of the schema is no error: it is
reported behind all else, once, and no scope is current any more.  And a script in
which everything stands where it belongs, nested no deeper than allowed, is bound in
any case. -/
theorem only_malformed_trees_are_errors (config : Config) {tree : Tree} (provider : Provider)
    {root : NodeId} (hground : tree.Grounded root) :
    (∀ fault, bindScript config tree provider root = .error fault →
      fault.toError = .structural fault.detail ∧ (∀ n, fault ≠ .endlessQuery n) ∧
        (fault.isOfScopes ∨ Walk.Refusal tree config.maxDepth config.maxDepth root fault)) ∧
    (∀ e, Walk.FailsWith ⟨tree, provider, config.strict⟩ (tree.walk config.maxDepth root) e →
      ∃ bound earlier, bindScript config tree provider root = .ok bound ∧
        bound.diagnostics = earlier ++ [.schema e.asSchemaDetail] ∧
        (∀ detail, .schema detail ∉ earlier) ∧ bound.scopes.current = none) ∧
    (∀ bound detail, bindScript config tree provider root = .ok bound →
      .schema detail ∈ bound.diagnostics →
      ∃ e, Walk.FailsWith ⟨tree, provider, config.strict⟩ (tree.walk config.maxDepth root) e ∧
        detail = e.asSchemaDetail) ∧
    (∀ statements, tree.get? root = some (.script statements) → tree.WellPlaced root →
      (∀ way, List.IsChain tree.Holds (root :: way) → (root :: way).length ≤ config.maxDepth) →
      ∃ bound, bindScript config tree provider root = .ok bound) := by
  refine ⟨fun fault herror => ⟨rfl, ?_⟩, fun e hfails => ?_, fun bound detail => ?_, ?_⟩
  · obtain ⟨step, hmem, q, hstep⟩ :=
      Walk.exists_of_run_eq_malformed (bindScript_eq_error_iff.1 herror)
    rcases Step.malformed_cases hstep with rfl | ⟨-, hscopes⟩
    · have hrefusal := Walk.steps_refusal hground hmem
      exact ⟨hrefusal.ne_endlessQuery, Or.inr hrefusal⟩
    · refine ⟨?_, Or.inl hscopes⟩
      rintro n rfl
      cases hscopes
  · obtain ⟨q, hrun, hbind⟩ := bindScript_of_failsWith hfails
    refine ⟨_, q.diagnostics.toList, hbind, rfl, fun detail hmem => ?_, rfl⟩
    exact Walk.run_schema_not_mem (congrArg Outcome.progress? hrun) detail (by simpa using hmem)
  · exact failsWith_of_bindScript
  · intro statements hroot hplaced hnesting
    have hplain : tree.slotOf root = .plain := by simp [Tree.slotOf, hroot]; rfl
    have hlegal := Walk.walk_legal hground hplaced hplain hnesting
    cases hbind : bindScript config tree provider root with
    | ok bound => exact ⟨bound, rfl⟩
    | error fault =>
        have hdepth : 1 ≤ config.maxDepth := hnesting [] (List.IsChain.singleton root)
        obtain ⟨depth, hdepth⟩ := Nat.exists_eq_add_of_le' hdepth
        have hrun := bindScript_eq_error_iff.1 hbind
        rw [Tree.walk, hdepth, Walk.steps_script hroot] at hrun hlegal
        exact (Walk.run_script_ne_malformed
          (.flatMap fun n _ => Walk.steps_balanced tree _ depth n) hlegal hrun).elim

/-- A script that declares a variable, assigns it to a column and stores the changed
rows. -/
def changedOrders : Tree :=
  ⟨#[.typeIdentifier "number", .scalarLiteral .number "1", .declare "@n" 0 (some 1),
    .tableReference "Orders" none, .columnReference "Total", .variableReference "@n",
    .setExpression 4 5, .columnReference "Ref", .columnExpression 7 none, .into "#done",
    .output [8] (some 9), .update { target := 3, assignments := [6], output := some 10 },
    .script [2, 11]]⟩

/-- A schema that cannot be asked anything. -/
def unreachable : Provider where
  object _ := .error (.structural "offline")
  member _ := .error (.structural "offline")

/-- The script has a node of its own for each slot made for certain nodes, and is bound
by any schema.  One that cannot be asked anything fails at the table and is reported. -/
theorem changedOrders_is_bound :
    changedOrders.Grounded 12 ∧ changedOrders.WellPlaced 12 ∧
      (∀ provider, ∃ bound, bindScript {} changedOrders provider 12 = .ok bound) ∧
      ∃ e bound, Walk.FailsWith ⟨changedOrders, unreachable, true⟩ (changedOrders.walk 256 12) e ∧
        e.asSchemaDetail = "Structural error: offline" ∧
        bindScript {} changedOrders unreachable 12 = .ok bound ∧
        bound.diagnostics = [.schema e.asSchemaDetail] ∧ (bound.bindings.find? 0).isSome ∧
        bound.scopes.current = none := by
  have hground : changedOrders.Grounded 12 := Tree.grounded_of_children_lt (by decide) 12
  have hplaced : changedOrders.WellPlaced 12 :=
    Tree.wellPlaced_of_nodes (by decide) (by decide) 12
  refine ⟨hground, hplaced, fun provider => ?_, ?_⟩
  · refine (only_malformed_trees_are_errors {} provider hground).2.2.2 _ rfl hplaced ?_
    intro way hway
    have hlength := hground.length_le_of_isChain hway
    exact Nat.le_trans (Nat.succ_le_succ hlength) (by decide)
  · obtain ⟨bound, hbind, hdiagnostics, htype⟩ :
        ∃ bound, bindScript {} changedOrders unreachable 12 = .ok bound ∧
          bound.diagnostics = [.schema "Structural error: offline"] ∧
          (bound.bindings.find? 0).isSome :=
      ⟨_, rfl, rfl, rfl⟩
    obtain ⟨-, hfailure, hreported, -⟩ := only_malformed_trees_are_errors {} unreachable hground
    have hmem : .schema "Structural error: offline" ∈ bound.diagnostics := by
      rw [hdiagnostics]
      exact List.mem_singleton_self _
    obtain ⟨e, hfails, hdetail⟩ := hreported bound _ hbind hmem
    obtain ⟨bound', earlier, hbind', -, -, hcurrent⟩ := hfailure e hfails
    obtain rfl : bound = bound' := by
      rw [hbind] at hbind'
      exact Except.ok.inj hbind'
    exact ⟨e, bound, hfails, hdetail.symm, hbind, hdetail ▸ hdiagnostics, htype, hcurrent⟩

end UnionScript
