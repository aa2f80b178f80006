import Mathlib.Data.List.Chain
import UnionScript.Proofs.BoundScript.Errors
import UnionScript.Proofs.Walk.Items
import UnionScript.Proofs.Walk.Levels

/-!
# The limit on nesting

A script is bound within a limit on its nesting.  The limit does nothing but refuse
scripts: one that is bound within a limit is bound in the same way within any higher one
(`depth_limit_only_rejects`).

What counts are the levels of the ways that the walk goes down (`Walk.levels`), and a
script with too many of them is always refused (`nesting_limit_counts_visits`).  The
blocks, unions and groups of a query are no levels.  So a query may be nested to any
depth within any limit that the rest of the script keeps to (`bindScript_groupedQuery`).
-/

namespace UnionScript

/-- The schema answers whatever it is asked. -/
structure Provider.Answers (provider : Provider) : Prop where
  object : ∀ name, ∃ found, provider.object name = .ok found
  member : ∀ name, ∃ found, provider.member name = .ok found

/-- A node holds another one, and the walk over the one visits the other by itself. -/
def Tree.Visits (t : Tree) (n c : NodeId) : Prop :=
  t.Holds n c ∧ Part.visit c ∈ Walk.parts t n

/-- No step fails where the schema answers. -/
theorem Step.not_failsWith {s : Surroundings} {p : Progress} {step : Step} {e : Error}
    (h : s.provider.Answers) : ¬ step.FailsWith s p e := by
  intro hfails
  cases hfails with
  | @table n identifier _ _ _ _ herror =>
      obtain ⟨found, hfound⟩ := h.object identifier
      cases herror.symm.trans hfound
  | @member n identifier _ _ herror =>
      obtain ⟨found, hfound⟩ := h.member identifier
      cases herror.symm.trans hfound
  | @type n typeName _ _ _ _ herror =>
      obtain ⟨found, hfound⟩ := h.object typeName
      cases herror.symm.trans hfound

section

variable {config : Config} {tree : Tree} {provider : Provider} {root : NodeId}

/-- Where the schema answers, a walk with a refusal in it ends in an error. -/
theorem exists_error_of_reject (hprovider : provider.Answers) {fault : StructureFault}
    (h : Step.reject fault ∈ tree.walk config.maxDepth root) :
    ∃ fault', bindScript config tree provider root = .error fault' := by
  cases hbind : bindScript config tree provider root with
  | error fault' => exact ⟨fault', rfl⟩
  | ok bound =>
      rcases bindScript_eq_ok_cases hbind with ⟨q, hrun, -⟩ | ⟨q, detail, hrun, -⟩
      · exact (Walk.legal_of_run hrun fault h).elim
      · obtain ⟨before, step, behind, e, -, -, hfails, -⟩ := Walk.run_eq_schemaFailed_iff.1 hrun
        exact (Step.not_failsWith hprovider hfails).elim

/-- Where no way down goes on forever, no query is refused for containing itself. -/
theorem ne_endlessQuery_of_bindScript (hground : tree.Grounded root) {fault : StructureFault}
    (h : bindScript config tree provider root = .error fault) (n : NodeId) :
    fault ≠ .endlessQuery n := by
  obtain ⟨step, hmem, q, hstep⟩ := Walk.exists_of_run_eq_malformed (bindScript_eq_error_iff.1 h)
  rcases Step.malformed_cases hstep with rfl | ⟨-, hscopes⟩
  · exact (Walk.steps_refusal hground hmem).ne_endlessQuery n
  · rintro rfl
    cases hscopes

/-- A script is refused for its nesting where a way has one level too many. -/
theorem exists_way_of_bindScript {limit : Nat} {m : NodeId}
    (h : bindScript config tree provider root = .error (.nesting limit m)) :
    limit = config.maxDepth ∧ ∃ way, Walk.WayTo tree (.visit root) m (config.maxDepth + 1) way := by
  obtain ⟨step, hmem, q, hstep⟩ := Walk.exists_of_run_eq_malformed (bindScript_eq_error_iff.1 h)
  rcases Step.malformed_cases hstep with rfl | ⟨-, hscopes⟩
  · exact Walk.exists_way_of_nesting hmem
  · cases hscopes

end

/-- **The limit only refuses.**  Binding within a limit gives what binding within a higher
limit gives, or the error that the limit is exceeded at a node, to which then leads a way
with one level more than the limit allows. -/
theorem depth_limit_only_rejects (strict : Bool) (tree : Tree) (provider : Provider)
    (root : NodeId) {limit limit' : Nat} (hle : limit ≤ limit') :
    bindScript ⟨strict, limit⟩ tree provider root =
        bindScript ⟨strict, limit'⟩ tree provider root ∨
      ∃ m way, bindScript ⟨strict, limit⟩ tree provider root = .error (.nesting limit m) ∧
        Walk.WayTo tree (.visit root) m (limit + 1) way := by
  have hcut : (Walk.follow ⟨tree, provider, strict⟩ limit limit root {}).CutBy limit
      (Walk.follow ⟨tree, provider, strict⟩ limit' limit' root {}) :=
    Walk.follow_cut hle root {}
  rcases hcut with hsame | ⟨m, hm⟩
  · exact Or.inl (congrArg BoundScript.ofOutcome hsame)
  · have herror : bindScript ⟨strict, limit⟩ tree provider root = .error (.nesting limit m) :=
      congrArg BoundScript.ofOutcome hm
    obtain ⟨-, way, hway⟩ := exists_way_of_bindScript herror
    exact Or.inr ⟨m, way, herror, hway⟩

/-- **The limit counts visits.**  In a tree in which no way down goes on forever, and with
a schema that answers, a way down over more visited nodes than the limit allows is an
error, and so is any way of the walk with more levels than that.  In turn, an error of
nesting comes from a way with one level too many. -/
theorem nesting_limit_counts_visits (config : Config) {tree : Tree} {provider : Provider}
    {root : NodeId} (hground : tree.Grounded root) (hprovider : provider.Answers) :
    (∀ way, List.IsChain tree.Visits (root :: way) → config.maxDepth < (root :: way).length →
      ∃ fault, bindScript config tree provider root = .error fault ∧
        fault.toError = .structural fault.detail ∧ ∀ n, fault ≠ .endlessQuery n) ∧
    (∀ way, List.IsChain (Walk.GoesOn tree) (.visit root :: way) →
      config.maxDepth < Walk.levels (.visit root :: way) →
      ∃ fault, bindScript config tree provider root = .error fault ∧
        fault.toError = .structural fault.detail ∧ ∀ n, fault ≠ .endlessQuery n) ∧
    (∀ limit m, bindScript config tree provider root = .error (.nesting limit m) →
      limit = config.maxDepth ∧
        ∃ way, Walk.WayTo tree (.visit root) m (config.maxDepth + 1) way) := by
  have hway : ∀ way, List.IsChain (Walk.GoesOn tree) (.visit root :: way) →
      config.maxDepth < Walk.levels (.visit root :: way) →
      ∃ fault, bindScript config tree provider root = .error fault ∧
        fault.toError = .structural fault.detail ∧ ∀ n, fault ≠ .endlessQuery n := by
    intro way hway hdeep
    have hreject : ∃ fault, .reject fault ∈ tree.walk config.maxDepth root :=
      Walk.exists_reject_of_way 0 hway hdeep
    obtain ⟨fault, hfault⟩ := hreject
    obtain ⟨fault', herror⟩ := exists_error_of_reject hprovider hfault
    exact ⟨fault', herror, rfl, ne_endlessQuery_of_bindScript hground herror⟩
  refine ⟨fun way hvisits hlong => ?_, hway, fun limit m => exists_way_of_bindScript⟩
  refine hway (way.map .visit) ?_ ?_
  · exact List.isChain_map_of_isChain Part.visit (fun n c hc => .visit hc.2) hvisits
  · rwa [← List.map_cons, Walk.levels_map_visit]

/-- The nodes of a script that projects a number by a query in groups. -/
def groupedNode (groups : Nat) : Nat → Node
  | 0 => .scalarLiteral .number "1"
  | 1 => .columnExpression 0 (some "one")
  | 2 => .selectExpression { columns := [1] }
  | n + 3 =>
    if n < groups then .group (n + 2)
    else if n = groups then .select none (n + 2)
    else .script [n + 2]

/-- A script that projects a number by a query in groups, each around the one before. -/
def groupedQuery (groups : Nat) : Tree :=
  ⟨(Array.range (groups + 5)).map (groupedNode groups)⟩

section

variable {groups n : Nat}

theorem get?_groupedQuery (h : n < groups + 5) :
    (groupedQuery groups).get? n = some (groupedNode groups n) := by
  simp [Tree.get?, groupedQuery, h]

/-- Every node of the script holds the node before it. -/
theorem children_groupedNode (groups n : Nat) : (groupedNode groups (n + 1)).children = [n] := by
  match n with
  | 0 | 1 => rfl
  | n + 2 =>
      simp only [groupedNode]
      split
      · rfl
      · split <;> rfl

theorem grounded_groupedQuery (groups n : Nat) : (groupedQuery groups).Grounded n := by
  induction n with
  | zero =>
      refine Tree.grounded_of_children fun c hc => ?_
      cases hc.mem_children (get?_groupedQuery (Nat.succ_pos _))
  | succ n ih =>
      refine Tree.grounded_of_children fun c ⟨x, hx, hc⟩ => ?_
      have hlt : n + 1 < groups + 5 := by
        simpa [groupedQuery] using (Array.getElem?_eq_some_iff.1 hx).1
      obtain rfl : groupedNode groups (n + 1) = x :=
        Option.some.inj ((get?_groupedQuery hlt).symm.trans hx)
      rw [children_groupedNode, List.mem_singleton] at hc
      exact hc ▸ ih

/-- One way down leads over all nodes of the script. -/
theorem isChain_groupedQuery (h : n < groups + 5) :
    List.IsChain (groupedQuery groups).Holds (n :: (List.range n).reverse) := by
  induction n with
  | zero => exact List.IsChain.singleton 0
  | succ n ih =>
      rw [List.range_succ, List.reverse_append, List.reverse_singleton, List.singleton_append,
        List.isChain_cons_cons]
      refine ⟨⟨_, get?_groupedQuery h, ?_⟩, ih (Nat.lt_of_succ_lt h)⟩
      rw [children_groupedNode]
      exact List.mem_singleton_self n

/-- Groups in the place of a query lead on to the block in them. -/
theorem querySteps_groupedQuery {visit : NodeId → List Step} {fuel : Nat} (h : n ≤ groups)
    (hfuel : n < fuel) (hcolumn : visit 1 = []) :
    Walk.querySteps (groupedQuery groups) visit fuel false (n + 2) =
      [.enter 2 .selectExpression false, .leave] := by
  obtain ⟨fuel, rfl⟩ := Nat.exists_eq_add_one_of_ne_zero (Nat.ne_zero_of_lt hfuel)
  induction n generalizing fuel with
  | zero =>
      have hblock : (groupedQuery groups).get? 2 = some (.selectExpression { columns := [1] }) :=
        get?_groupedQuery (by omega)
      simp [Walk.querySteps, Walk.queryParts, Walk.queryStages, hblock, Walk.block, Walk.inScope,
        Walk.blockBody, Walk.visitAll, Walk.visitOption, Walk.stageParts, Walk.expand, hcolumn]
  | succ n ih =>
      have hgroup : (groupedQuery groups).get? (n + 3) = some (.group (n + 2)) := by
        rw [get?_groupedQuery (by omega), groupedNode, if_pos (Nat.lt_of_succ_le h)]
      have hpositive : fuel ≠ 0 := by omega
      obtain ⟨fuel, rfl⟩ := Nat.exists_eq_add_one_of_ne_zero hpositive
      have hrest := ih (Nat.le_of_succ_le h) fuel (by omega)
      simpa [Walk.querySteps, Walk.queryParts, Walk.queryStages, hgroup, Walk.stageParts,
        Walk.expand] using hrest

/-- The walk over the script does not show how many groups there are. -/
theorem walk_groupedQuery (groups depth : Nat) :
    (groupedQuery groups).walk (depth + 4) (groups + 4) =
      [.enter (groups + 4) .script false, .enter (groups + 3) .select false,
        .enter 2 .selectExpression false, .leave, .leave, .leave] := by
  have hscript : (groupedQuery groups).get? (groups + 4) = some (.script [groups + 3]) := by
    rw [get?_groupedQuery (by omega), groupedNode, if_neg (by omega), if_neg (by omega)]
  have hselect : (groupedQuery groups).get? (groups + 3) = some (.select none (groups + 2)) := by
    rw [get?_groupedQuery (by omega), groupedNode, if_neg (by omega), if_pos rfl]
  have hcolumn : (groupedQuery groups).get? 1 = some (.columnExpression 0 (some "one")) :=
    get?_groupedQuery (by omega)
  have hnumber : (groupedQuery groups).get? 0 = some (.scalarLiteral .number "1") :=
    get?_groupedQuery (by omega)
  have hvisit : Walk.steps (groupedQuery groups) (depth + 4) (depth + 2) 1 = [] := by
    simp [Walk.steps_eq_flatMap hcolumn, Walk.steps_eq_flatMap hnumber, Walk.nodeStages,
      Walk.stageSteps, Walk.stageParts, Walk.expand]
  have hfuel : groups < Walk.queryFuel (groupedQuery groups) := by
    rw [Walk.queryFuel, Tree.size, groupedQuery, Array.size_map, Array.size_range]
    omega
  have hquery := querySteps_groupedQuery (Nat.le_refl groups) hfuel hvisit
  rw [Tree.walk, Walk.steps_script hscript, List.flatMap_singleton, Walk.steps_eq_flatMap hselect,
    Walk.nodeStages, Walk.flatMap_inScope]
  simp [Walk.visitOption, Walk.stageSteps, Walk.stageParts, Walk.expand, hquery]

/-- **Queries are nested without a limit.**  However many groups there are around the
query, the script is bound within any limit that allows four levels. -/
theorem bindScript_groupedQuery (config : Config) (hdepth : 4 ≤ config.maxDepth)
    (provider : Provider) (groups : Nat) :
    ∃ bound, bindScript config (groupedQuery groups) provider (groups + 4) = .ok bound ∧
      bound.diagnostics = [] := by
  obtain ⟨depth, hdepth⟩ := Nat.exists_eq_add_of_le' hdepth
  rw [bindScript_eq_run, hdepth, walk_groupedQuery]
  exact ⟨_, rfl, rfl⟩

end

/-- A catalog answers whatever it is asked. -/
theorem Catalog.answers (catalog : Catalog) : catalog.toProvider.Answers :=
  ⟨fun _ => ⟨_, rfl⟩, fun _ => ⟨_, rfl⟩⟩

/-- **A way longer than the limit.**  The query stands in three hundred groups.  A way
down leads over more nodes than the limit allows, and the script is bound. -/
theorem groupedQuery_exceeds_limit :
    (groupedQuery 300).Grounded 304 ∧ Catalog.empty.toProvider.Answers ∧
      (∃ way, List.IsChain (groupedQuery 300).Holds (304 :: way) ∧
        Config.maxDepth {} < (304 :: way).length) ∧
      ∃ bound, bindScript {} (groupedQuery 300) Catalog.empty.toProvider 304 = .ok bound ∧
        bound.diagnostics = [] := by
  refine ⟨grounded_groupedQuery 300 304, Catalog.empty.answers,
    ⟨_, isChain_groupedQuery (Nat.lt_succ_self 304), ?_⟩, ?_⟩
  · simp
  · exact bindScript_groupedQuery {} (by decide) Catalog.empty.toProvider 300

/-- Below two groups, the column and its number are the third and the fourth level of
the script, which is refused if only three are allowed. -/
theorem groupedQuery_is_refused :
    (groupedQuery 2).Grounded 6 ∧ Catalog.empty.toProvider.Answers ∧
      ∃ way, List.IsChain (Walk.GoesOn (groupedQuery 2)) (.visit 6 :: way) ∧
        Walk.levels (.visit 6 :: way) = 4 ∧
        ∃ fault, bindScript ⟨true, 3⟩ (groupedQuery 2) Catalog.empty.toProvider 6 =
          .error fault := by
  have hground := grounded_groupedQuery 2 6
  have hway : List.IsChain (Walk.GoesOn (groupedQuery 2))
      [.visit 6, .visit 5, .query false 4, .query false 3, .query false 2, .visit 1, .visit 0] := by
    refine List.isChain_cons_cons.2 ⟨.visit (by decide +kernel), ?_⟩
    refine List.isChain_cons_cons.2 ⟨.visit (by decide +kernel), ?_⟩
    refine List.isChain_cons_cons.2 ⟨.query (by decide +kernel), ?_⟩
    refine List.isChain_cons_cons.2 ⟨.query (by decide +kernel), ?_⟩
    refine List.isChain_cons_cons.2 ⟨.query (by decide +kernel), ?_⟩
    exact List.isChain_cons_cons.2 ⟨.visit (by decide +kernel), List.IsChain.singleton _⟩
  obtain ⟨fault, hfault, -⟩ := (nesting_limit_counts_visits ⟨true, 3⟩ hground
    Catalog.empty.answers).2.1 _ hway (by decide)
  exact ⟨hground, Catalog.empty.answers, _, hway, rfl, fault, hfault⟩

/-- Three levels are too few for the script, and four are as good as any more. -/
theorem groupedQuery_between_limits :
    (∃ m way, bindScript ⟨true, 3⟩ (groupedQuery 2) Catalog.empty.toProvider 6 =
        .error (.nesting 3 m) ∧ Walk.WayTo (groupedQuery 2) (.visit 6) m 4 way) ∧
      bindScript ⟨true, 4⟩ (groupedQuery 2) Catalog.empty.toProvider 6 =
        bindScript ⟨true, 256⟩ (groupedQuery 2) Catalog.empty.toProvider 6 := by
  have hfew : (bindScript ⟨true, 3⟩ (groupedQuery 2) Catalog.empty.toProvider 6).toBool = false := by
    decide +kernel
  obtain ⟨bound, hbind, -⟩ :=
    bindScript_groupedQuery ⟨true, 4⟩ (Nat.le_refl 4) Catalog.empty.toProvider 2
  constructor
  · rcases depth_limit_only_rejects true (groupedQuery 2) Catalog.empty.toProvider 6
      (show 3 ≤ 4 by decide) with hsame | hrefused
    · rw [hsame, hbind] at hfew
      cases hfew
    · exact hrefused
  · rcases depth_limit_only_rejects true (groupedQuery 2) Catalog.empty.toProvider 6
      (show 4 ≤ 256 by decide) with hsame | ⟨m, way, hrefused, -⟩
    · exact hsame
    · rw [hbind] at hrefused
      cases hrefused

end UnionScript
