import UnionScript.Proofs.Lists
import UnionScript.Proofs.Syntax.Leftmost
import UnionScript.Proofs.Walk.Coverage

/-!
# What comes before what in a walk

Columns are projected before they are referred to.  A place in a walk is a split
of its steps, and a node is *finished* there if the steps before the split cover
what is below it.

* `Walk.Spells.needs_finished` — what a step takes columns from is finished before
  the step;
* `Walk.Spells.finished_or_reaches_of_define` — after the definition of a common
  table, its leftmost block is finished at every step that is not about a node
  inside of the block;
* `Walk.Spells.finished_or_reaches_table` — and so is the table at every step that is
  not about a node inside of the table.
-/

namespace UnionScript

/-- The nodes that a step takes columns from: the query of a derived table, the
column behind an alias, the columns of stored rows, and the table under
assignment. -/
def Step.Needs (tree : Tree) (c : NodeId) : Step → Prop
  | .deriveTable _ query _ => c = query
  | .useProjection _ column => c = column
  | .storeInto _ source _ => ∃ x, tree.get? source = some x ∧ c ∈ x.columns
  | .beginSet target => c = target
  | _ => False

/-- The nodes that a stage of the walk over a node may take columns from without
visiting them. -/
def Stage.Awaits (tree : Tree) (owner c : NodeId) : Stage → Prop
  | .own s => s.Needs tree c
  | .order columns _ => c ∈ columns
  | .store _ => ∃ x, tree.get? owner = some x ∧ c ∈ x.columns
  | .visit _ | .query _ _ | .assign _ | .declareType _ _ _ => False

/-- The node that a stage walks over. -/
def Stage.over? : Stage → Option NodeId
  | .visit n | .query _ n => some n
  | _ => none

theorem Stage.child?_of_over? {stage : Stage} {n : NodeId} (h : stage.over? = some n) :
    stage.child? = some n := by
  cases stage <;> cases h <;> rfl

namespace Walk

variable {tree : Tree} {done done' rest l : List Step} {step : Step} {n m c b owner : NodeId}
  {stage : Stage}

/-- The steps cover what is below a node. -/
def Finished (tree : Tree) (done : List Step) (n : NodeId) : Prop :=
  ∀ m x, tree.Reaches n m → tree.get? m = some x → x.kind.hasStep → m ∈ subjects done

theorem Finished.mono (h : Finished tree done n) (hsub : done ⊆ done') :
    Finished tree done' n := by
  intro m x hm hx hstep
  obtain ⟨s, hs, hsubject⟩ := mem_subjects.1 (h m x hm hx hstep)
  exact mem_subjects.2 ⟨s, hsub hs, hsubject⟩

/-- What is below a finished node is finished. -/
theorem Finished.of_reaches (h : Finished tree done n) (hm : tree.Reaches n m) :
    Finished tree done m :=
  fun m' x hm' => h m' x (hm.trans hm')

theorem Finished.of_holds (h : Finished tree done n) (hm : tree.Holds n m) :
    Finished tree done m :=
  h.of_reaches (Relation.ReflTransGen.single hm)

section

variable {before after first second : List Stage} {correlated : Bool}

/-- Stages in two parts, where the first part awaits nothing and visits all that
the second part awaits: what a stage awaits is visited before it. -/
theorem mem_slots_of_awaits (h : first ++ second = before ++ stage :: after)
    (hfirst : ∀ s ∈ first, ¬ s.Awaits tree n c)
    (hsecond : ∀ s ∈ second, s.Awaits tree n c → c ∈ slots first)
    (hc : stage.Awaits tree n c) : c ∈ slots before := by
  rcases List.append_eq_append_iff.1 h with ⟨middle, rfl, hmiddle⟩ | ⟨middle, rfl, hmiddle⟩
  · have hstage : stage ∈ second := by simp [hmiddle]
    simp [hsecond stage hstage hc]
  · cases middle with
    | nil =>
        have hstage : stage ∈ second := by
          rw [← List.nil_append second, ← hmiddle]
          exact List.mem_cons_self
        simpa using hsecond stage hstage hc
    | cons s middle =>
        obtain ⟨rfl, -⟩ := List.cons.inj hmiddle
        exact (hfirst stage (by simp) hc).elim

/-- The items and clauses of a block stand after its columns. -/
theorem block_awaits {b : SelectExpression} (hn : tree.get? n = some (.selectExpression b))
    (h : block n b correlated = before ++ stage :: after) (hc : stage.Awaits tree n c) :
    c ∈ slots before := by
  have hsplit : ([.own (.enter n .selectExpression correlated)] ++ visitOption b.source ++
      visitOption b.top ++ visitAll b.columns) ++ (visitOption b.condition ++
      visitAll b.grouping ++ visitOption b.having ++ b.ordering.map (.order b.columns) ++
      b.into.toList.map .store ++ [.own .leave]) = before ++ stage :: after := by
    simp [← h, block, blockBody, inScope]
  have hcolumns : slots (b.columns.map .visit) = b.columns := slots_map (fun _ => rfl) _
  refine mem_slots_of_awaits hsplit ?_ ?_ hc <;>
    simp only [slots_append, hcolumns, visitAll, visitOption, List.forall_mem_append,
      List.forall_mem_cons, List.forall_mem_map, List.not_mem_nil]
  · simp [Stage.Awaits, Step.Needs]
  · simp +contextual [Stage.Awaits, Step.Needs, hn, Node.columns]

/-- The assignments to a table stand after the visit to that table. -/
theorem target_awaits {kind : NodeKind} {target : NodeId} {tables : Option NodeId}
    (h : .own (.enter n kind false) :: (visitOption tables ++ .visit target :: second) =
      before ++ stage :: after)
    (hsecond : ∀ s ∈ second, s.Awaits tree n c → c = target) (hc : stage.Awaits tree n c) :
    c ∈ slots before := by
  have hsplit : (.own (.enter n kind false) :: (visitOption tables ++ [.visit target])) ++
      second = before ++ stage :: after := by
    simp [← h]
  refine mem_slots_of_awaits hsplit ?_ (fun s hs hawaits => ?_) hc
  · simp only [visitOption, List.forall_mem_append, List.forall_mem_map, List.forall_mem_cons]
    simp [Stage.Awaits, Step.Needs]
  · simp [hsecond s hs hawaits, Stage.child?]

/-- The nodes of most kinds have no stage that takes columns from others. -/
theorem nodeStages_not_awaits {x : Node}
    (hkind : x.kind ∉ [.selectExpression, .output, .tableExpression, .update, .upsert]) :
    ∀ s ∈ nodeStages n x, ¬ s.Awaits tree n c := by
  cases x
  case selectExpression | output | tableExpression | update | upsert =>
    simp [Node.kind] at hkind
  all_goals
    simp only [nodeStages, inScope, visitAll, visitOption, List.forall_mem_append,
      List.forall_mem_cons, List.forall_mem_map, List.not_mem_nil]
  all_goals simp [Stage.Awaits, Step.Needs]

/-- A stage that takes columns from a node stands after the visit to that node. -/
theorem nodeStages_awaits {x : Node} (hn : tree.get? n = some x)
    (h : nodeStages n x = before ++ stage :: after) (hc : stage.Awaits tree n c) :
    c ∈ slots before := by
  have hmem : stage ∈ nodeStages n x := by simp [h]
  cases x
  case selectExpression b => exact block_awaits hn h hc
  case output columns target =>
    have hcolumns : slots (visitAll columns) = columns := slots_map (fun _ => rfl) _
    refine mem_slots_of_awaits h ?_ ?_ hc
    · simp [visitAll, Stage.Awaits]
    · simp [hcolumns, Stage.Awaits, hn, Node.columns]
  case tableExpression query aliasName =>
    change [Stage.query false query] ++ [_] = _ at h
    refine mem_slots_of_awaits h ?_ ?_ hc
    · simp [Stage.Awaits]
    · simp [Stage.Awaits, Step.Needs, Stage.child?]
  case update s =>
    simp only [nodeStages, inScope, List.append_assoc, List.cons_append, List.nil_append] at h
    refine target_awaits h ?_ hc
    simp only [visitOption, assignments, List.forall_mem_append, List.forall_mem_map,
      List.forall_mem_cons]
    simp [Stage.Awaits, Step.Needs]
  case upsert s =>
    simp only [nodeStages, inScope, List.append_assoc, List.cons_append, List.nil_append] at h
    refine target_awaits h ?_ hc
    simp only [visitOption, assignments, List.forall_mem_append, List.forall_mem_map,
      List.forall_mem_cons]
    simp [Stage.Awaits, Step.Needs]
  all_goals exact (nodeStages_not_awaits (by simp [Node.kind]) stage hmem hc).elim

theorem stages_awaits (h : stages tree n = before ++ stage :: after)
    (hc : stage.Awaits tree n c) : c ∈ slots before := by
  unfold stages at h
  split at h
  · rename_i hx
    exact nodeStages_awaits hx h hc
  · simp at h

theorem queryStages_awaits (h : queryStages tree correlated n = before ++ stage :: after)
    (hc : stage.Awaits tree n c) : c ∈ slots before := by
  have hmem : stage ∈ before ++ stage :: after := by simp
  unfold queryStages at h
  split at h
  · rename_i hx
    exact block_awaits hx h hc
  all_goals
    rw [← h] at hmem
    simp only [List.mem_cons, List.not_mem_nil, or_false] at hmem
  · rcases hmem with rfl | rfl <;> exact hc.elim
  · subst hmem
    exact hc.elim
  · subst hmem
    exact hc.elim

variable {word : Stage → List Step} {own : List Step}

/-- What stages are for is finished after them. -/
theorem finished_of_mem_slots (hword : ∀ s ∈ before, Spells tree n s (word s))
    (hlegal : Legal (before.flatMap word ++ own)) (hc : c ∈ slots before) :
    Finished tree (before.flatMap word ++ own) c := by
  obtain ⟨s, hs, hchild⟩ := List.mem_filterMap.1 hc
  have hsub : word s ⊆ before.flatMap word ++ own := fun step hstep =>
    List.mem_append_left _ (List.mem_flatMap.2 ⟨s, hs, hstep⟩)
  have hcovers := (hword s hs).covers (fun fault hfault => hlegal fault (hsub hfault)) hchild
  exact Finished.mono hcovers.complete hsub

/-- What a step takes columns from is finished before the step if each stage of a
list takes columns from what was visited before. -/
theorem finished_of_split {list : List Stage} (hl : list.flatMap word = done ++ step :: rest)
    (hword : ∀ s ∈ list, Spells tree n s (word s)) (hlegal : Legal done)
    (hlist : ∀ before s after, list = before ++ s :: after → s.Awaits tree n c → c ∈ slots before)
    (ih : ∀ s ∈ list, ∀ own rest', word s = own ++ step :: rest' → Legal own →
      Finished tree own c ∨ s.Awaits tree n c) : Finished tree done c := by
  obtain ⟨before, s, after, own, rest', hsplit, rfl, hs⟩ := exists_split_of_flatMap hl
  rcases ih s (by simp [hsplit]) own rest' hs
    (fun fault hfault => hlegal fault (List.mem_append_right _ hfault)) with hfinished | hawaits
  · exact hfinished.mono (List.subset_append_right _ _)
  · exact finished_of_mem_slots (fun s hs => hword s (by simp [hsplit, hs])) hlegal
      (hlist before s after hsplit hawaits)

end

/-- A place in a single step is before it. -/
theorem split_singleton {s : Step} (h : [s] = done ++ step :: rest) : done = [] ∧ s = step := by
  rcases List.cons_eq_append_iff.1 h with ⟨rfl, heq⟩ | ⟨_, -, hempty⟩
  · exact ⟨rfl, (List.cons.inj heq).1.symm⟩
  · simp at hempty

/-- **Needs are met.**  What a step takes columns from is finished before the
step, unless the stage takes it from outside. -/
theorem Spells.finished_or_awaits (h : Spells tree owner stage l) (hl : l = done ++ step :: rest)
    (hlegal : Legal done) (hc : step.Needs tree c) :
    Finished tree done c ∨ stage.Awaits tree owner c := by
  induction h generalizing done rest with
  | own owner s =>
      obtain ⟨-, rfl⟩ := split_singleton hl
      exact Or.inr hc
  | visit owner n word hword ih =>
      exact Or.inl (finished_of_split hl hword hlegal (fun _ _ _ => stages_awaits)
        fun s hs own rest' => ih s hs)
  | query owner correlated n word hword ih =>
      exact Or.inl (finished_of_split hl hword hlegal (fun _ _ _ => queryStages_awaits)
        fun s hs own rest' => ih s hs)
  | orderByAlias owner hitem hreference hplain hcolumn =>
      obtain ⟨-, rfl⟩ := split_singleton hl
      obtain rfl := hc
      exact Or.inr (List.mem_of_find?_eq_some hcolumn)
  | order columns _ ih => exact Or.inl ((ih hl hlegal).resolve_right id)
  | assign hset hcolumn hvisit ih =>
      cases done with
      | nil =>
          obtain ⟨rfl, -⟩ := List.cons.inj hl
          exact hc.elim
      | cons first done =>
          obtain ⟨-, hl⟩ := List.cons.inj hl
          have hfinished := (ih hl fun fault hfault =>
            hlegal fault (List.mem_cons_of_mem _ hfault)).resolve_right id
          exact Or.inl (hfinished.mono (List.subset_cons_self _ _))
  | store owner hclause =>
      obtain ⟨-, rfl⟩ := split_singleton hl
      exact Or.inr hc
  | declareType owner name initializer htype =>
      obtain ⟨-, rfl⟩ := split_singleton hl
      exact hc.elim
  | reject owner stage fault =>
      obtain ⟨-, rfl⟩ := split_singleton hl
      exact hc.elim

/-- What a step of a walk takes columns from is finished before the step. -/
theorem Spells.needs_finished (h : Spells tree owner (.visit n) (done ++ step :: rest))
    (hlegal : Legal done) (hc : step.Needs tree c) : Finished tree done c :=
  (h.finished_or_awaits rfl hlegal hc).resolve_right id

/-- The stages for a node that leads on to a leftmost block: before the stage that
leads on, there is at most the definition of the node as a common table. -/
structure LeadsOn (tree : Tree) (q b : NodeId) (first : List Stage) (s : Stage) : Prop where
  defines : ∀ s' ∈ first, ∃ name, s' = .own (.defineTable q name)
  leads : ∃ q', s.over? = some q' ∧ tree.Leftmost q' b

variable {q : NodeId}

theorem stages_leadsOn (h : tree.Leftmost q b) :
    b = q ∨ ∃ first s second, stages tree q = first ++ s :: second ∧ LeadsOn tree q b first s := by
  cases h with
  | block | output => exact Or.inl rfl
  | @union _ left right _ all hn h =>
      refine Or.inr ⟨[], .query true left, [.query true right], ?_, by simp, left, rfl, h⟩
      simp [stages, hn, nodeStages]
  | @group _ expression _ hn h =>
      refine Or.inr ⟨[], .visit expression, [], ?_, by simp, expression, rfl, h⟩
      simp [stages, hn, nodeStages]
  | @commonTable _ expression _ name hn h =>
      refine Or.inr ⟨[.own (.defineTable q name)], .query false expression, [], ?_, by simp,
        expression, rfl, h⟩
      simp [stages, hn, nodeStages]

theorem queryStages_leadsOn (correlated : Bool) (h : tree.Leftmost q b) :
    b = q ∨ ∃ first s second, queryStages tree correlated q = first ++ s :: second ∧
      LeadsOn tree q b first s := by
  have hleft := h
  cases h with
  | block | output => exact Or.inl rfl
  | @union _ left right _ all hn h =>
      refine Or.inr ⟨[], .query correlated left, [.query correlated right], ?_, by simp, left,
        rfl, h⟩
      simp [queryStages, hn]
  | @group _ expression _ hn h =>
      refine Or.inr ⟨[], .query correlated expression, [], ?_, by simp, expression, rfl, h⟩
      simp [queryStages, hn]
  | @commonTable _ expression _ name hn h =>
      refine Or.inr ⟨[], .visit q, [], ?_, by simp, q, rfl, hleft⟩
      simp [queryStages, hn]

/-- A step of stages that lead on to a leftmost block comes after the block unless
it is about a node inside of the block. -/
theorem LeadsOn.finished_or_reaches {first second : List Stage} {s : Stage}
    {word : Stage → List Step} (hlist : LeadsOn tree q b first s)
    (hl : (first ++ s :: second).flatMap word = done ++ step :: rest)
    (hword : ∀ a ∈ first ++ s :: second, Spells tree q a (word a)) (hlegal : Legal done)
    (hm : step.subject? = some m) (hdefine : ∀ n name, step ≠ .defineTable n name)
    (ih : ∀ q' own rest', s.over? = some q' → tree.Leftmost q' b →
      word s = own ++ step :: rest' → Legal own → Finished tree own b ∨ tree.Reaches b m) :
    Finished tree done b ∨ tree.Reaches b m := by
  obtain ⟨q', hs, hleft⟩ := hlist.leads
  obtain ⟨before, a, after, own, rest', hsplit, rfl, ha⟩ := exists_split_of_flatMap hl
  have hown : Legal own := fun fault hfault => hlegal fault (List.mem_append_right _ hfault)
  -- The step belongs to a definition, to the stage that leads on, or to a later one.
  rcases mem_or_eq_or_mem hsplit.symm with hmem | rfl | hmem
  · obtain ⟨name, rfl⟩ := hlist.defines a hmem
    rcases (hword (.own (.defineTable q name)) (by simp [hsplit])).own_cases with
      heq | ⟨fault, heq⟩
    · obtain ⟨-, rfl⟩ := split_singleton (heq.symm.trans ha)
      exact (hdefine _ _ rfl).elim
    · obtain ⟨-, rfl⟩ := split_singleton (heq.symm.trans ha)
      cases hm
  · rcases ih q' own rest' hs hleft ha hown with hfinished | hreach
    · exact Or.inl (hfinished.mono (List.subset_append_right _ _))
    · exact Or.inr hreach
  · have hq' : q' ∈ slots before := List.mem_filterMap.2 ⟨s, hmem, Stage.child?_of_over? hs⟩
    have hfinished := finished_of_mem_slots (fun a ha => hword a (by simp [hsplit, ha])) hlegal hq'
    exact Or.inl (hfinished.of_reaches hleft.reaches)

/-- **Leftmost blocks come first.**  In the walk over a node, a step is about a node
inside of the leftmost block or comes after that block. -/
theorem Spells.leftmost_finished_or_reaches (h : Spells tree owner stage l)
    (hstage : stage.over? = some q) (hleft : tree.Leftmost q b) (hl : l = done ++ step :: rest)
    (hlegal : Legal done) (hm : step.subject? = some m)
    (hdefine : ∀ n name, step ≠ .defineTable n name) :
    Finished tree done b ∨ tree.Reaches b m := by
  induction h generalizing done rest q with
  | visit owner n word hword ih =>
      obtain rfl := Option.some.inj hstage
      rcases stages_leadsOn hleft with rfl | ⟨first, s, second, hsplit, hlist⟩
      · exact Or.inr ((Spells.visit owner b word hword).reaches_of_visit (by simp [hl]) hm)
      · rw [hsplit] at hl hword ih
        exact hlist.finished_or_reaches hl hword hlegal hm hdefine
          fun q' own rest' => ih s (by simp)
  | query owner correlated n word hword ih =>
      obtain rfl := Option.some.inj hstage
      rcases queryStages_leadsOn correlated hleft with rfl | ⟨first, s, second, hsplit, hlist⟩
      · obtain ⟨top, htop, hreach⟩ :=
          (Spells.query owner correlated b word hword).reaches (s := step) (by simp [hl]) hm
        obtain rfl := Option.some.inj htop
        exact Or.inr hreach
      · rw [hsplit] at hl hword ih
        exact hlist.finished_or_reaches hl hword hlegal hm hdefine
          fun q' own rest' => ih s (by simp)
  | reject owner stage fault =>
      obtain ⟨-, rfl⟩ := split_singleton hl
      cases hm
  | own | orderByAlias | order | assign | store | declareType => cases hstage

section

variable {ct : NodeId} {name : String}

/-- A common table is defined by its own stage only. -/
theorem eq_of_define_mem_stages (h : .own (.defineTable ct name) ∈ stages tree n) : ct = n := by
  unfold stages at h
  split at h
  · rename_i x hx
    cases x <;>
      simp_all [nodeStages, block, blockBody, inScope, assignments, visitAll, visitOption]
  · cases h

theorem define_not_mem_queryStages {correlated : Bool} :
    .own (.defineTable ct name) ∉ queryStages tree correlated n := by
  unfold queryStages
  split <;> simp [block, blockBody, inScope, visitAll, visitOption]

/-- A step of stages that come after a definition: the definition was inside of an
earlier stage, so all of it was visited, or inside of the same one. -/
theorem finished_or_reaches_of_define {list : List Stage} {word : Stage → List Step}
    (hl : list.flatMap word = done ++ step :: rest)
    (hword : ∀ s ∈ list, Spells tree n s (word s)) (hlegal : Legal done)
    (hdone : .defineTable ct name ∈ done) (hown : .own (.defineTable ct name) ∉ list)
    (hb : tree.Reaches ct b)
    (ih : ∀ s ∈ list, ∀ own rest', word s = own ++ step :: rest' → Legal own →
      .defineTable ct name ∈ own → Finished tree own b ∨ tree.Reaches b m) :
    Finished tree done b ∨ tree.Reaches b m := by
  obtain ⟨before, a, after, own, rest', hsplit, rfl, ha⟩ := exists_split_of_flatMap hl
  rcases List.mem_append.1 hdone with hbefore | hinside
  · obtain ⟨s, hs, hdefine⟩ := List.mem_flatMap.1 hbefore
    obtain ⟨top, htop, hreach⟩ := (hword s (by simp [hsplit, hs])).reaches hdefine rfl
    have hslot : top ∈ slots before := by
      refine List.mem_filterMap.2 ⟨s, hs, ?_⟩
      cases s with
      | own s' =>
          rcases (hword (.own s') (by simp [hsplit, hs])).own_cases with heq | ⟨fault, heq⟩ <;>
            rw [heq, List.mem_singleton] at hdefine
          · exact (hown (by simp [hsplit, hdefine, hs])).elim
          · cases hdefine
      | _ => exact htop
    have hfinished := finished_of_mem_slots (fun s hs => hword s (by simp [hsplit, hs]))
      hlegal hslot
    exact Or.inl (hfinished.of_reaches (hreach.trans hb))
  · have hlegal' : Legal own := fun fault hfault => hlegal fault (List.mem_append_right _ hfault)
    rcases ih a (by simp [hsplit]) own rest' ha hlegal' hinside with hfinished | hreach
    · exact Or.inl (hfinished.mono (List.subset_append_right _ _))
    · exact Or.inr hreach

/-- A step that comes after the definition of a common table comes after a part of
the table or is about a node inside of the part, if this holds of the steps of the
walk over the table. -/
theorem Spells.finished_or_reaches_of_visit (h : Spells tree owner stage l)
    (hl : l = done ++ step :: rest) (hlegal : Legal done) (hdone : .defineTable ct name ∈ done)
    (hb : tree.Reaches ct b)
    (hvisit : ∀ owner done rest, Spells tree owner (.visit ct) (done ++ step :: rest) →
      Legal done → Finished tree done b ∨ tree.Reaches b m) :
    Finished tree done b ∨ tree.Reaches b m := by
  induction h generalizing done rest with
  | visit owner n word hword ih =>
      by_cases hn : ct = n
      · subst hn
        exact hvisit owner done rest (hl ▸ .visit owner ct word hword) hlegal
      · exact Walk.finished_or_reaches_of_define hl hword hlegal hdone
          (fun hmem => hn (eq_of_define_mem_stages hmem)) hb fun s hs own rest' => ih s hs
  | query owner correlated n word hword ih =>
      exact Walk.finished_or_reaches_of_define hl hword hlegal hdone define_not_mem_queryStages
        hb fun s hs own rest' => ih s hs
  | order columns _ ih => exact ih hl hlegal hdone
  | assign hset hcolumn hvisit' ih =>
      cases done with
      | nil => cases hdone
      | cons first done =>
          obtain ⟨rfl, htail⟩ := List.cons.inj hl
          have hdone : .defineTable ct name ∈ done := by simpa using hdone
          have hlegal' : Legal done := fun fault hfault =>
            hlegal fault (List.mem_cons_of_mem _ hfault)
          rcases ih htail hlegal' hdone with hfinished | hreach
          · exact Or.inl (hfinished.mono (List.subset_cons_self _ _))
          · exact Or.inr hreach
  | own | orderByAlias | store | declareType | reject =>
      obtain ⟨rfl, -⟩ := split_singleton hl
      cases hdone

/-- **Common tables after their definition.**  A step that comes after the
definition of a common table is about a node inside of the leftmost block of the
table or comes after that block. -/
theorem Spells.finished_or_reaches_of_define (h : Spells tree owner stage l)
    (hl : l = done ++ step :: rest) (hlegal : Legal done) (hdone : .defineTable ct name ∈ done)
    (hleft : tree.Leftmost ct b) (hm : step.subject? = some m)
    (hdefine : ∀ n name, step ≠ .defineTable n name) :
    Finished tree done b ∨ tree.Reaches b m :=
  h.finished_or_reaches_of_visit hl hlegal hdone hleft.reaches fun _ _ _ hvisit hlegal' =>
    hvisit.leftmost_finished_or_reaches rfl hleft rfl hlegal' hm hdefine

/-- **Common tables are left once.**  A step that comes after the definition of a
common table is about a node inside of the table or comes after the whole table. -/
theorem Spells.finished_or_reaches_table (h : Spells tree owner stage l)
    (hl : l = done ++ step :: rest) (hlegal : Legal done) (hdone : .defineTable ct name ∈ done)
    (hm : step.subject? = some m) : Finished tree done ct ∨ tree.Reaches ct m :=
  h.finished_or_reaches_of_visit hl hlegal hdone .refl fun _ _ _ hvisit _ =>
    Or.inr (hvisit.reaches_of_visit (by simp) hm)

end

end Walk

end UnionScript
