import UnionScript.Proofs.Walk.Effect
import UnionScript.Proofs.Walk.Placement

/-!
# Scopes are the skeleton of the tree

The scopes of a bound script mirror its tree: there is one for each node that
opens one, it stands in the scope of the nearest such node above, and a query
block is correlated unless it is held as a query of its own.

A walk in a scope comes back to that scope and only adds scopes, each in its
place (`ScopeTree.Grows`).  This is proved along the spelling of the walk
(`Walk.Spells.grows`).  That no node has two scopes and none is left out follows
from what the walk covers, since only entering a scope adds one
(`Walk.run_owners`).
-/

namespace UnionScript

/-- A frame stands where its owner does in the tree. -/
structure Frame.Placed (tree : Tree) (frames : List Frame) (f : Frame) : Prop where
  kind : ∃ x, tree.get? f.owner = some x ∧ x.kind = f.kind
  parent : ∃ id outer, f.physicalParent = some id ∧ frames[id]? = some outer ∧
    tree.Encloses outer.owner f.owner
  correlated : f.kind = .selectExpression → (f.correlated = false ↔ tree.Standalone f.owner)

/-- Later frames do not move a frame. -/
theorem Frame.Placed.append {tree : Tree} {frames : List Frame} {f : Frame}
    (h : f.Placed tree frames) (more : List Frame) : f.Placed tree (frames ++ more) := by
  obtain ⟨hkind, ⟨id, outer, hid, houter, hencloses⟩, hcorrelated⟩ := h
  have hlt : id < frames.length := (List.getElem?_eq_some_iff.1 houter).1
  refine ⟨hkind, ⟨id, outer, hid, ?_, hencloses⟩, hcorrelated⟩
  rw [List.getElem?_append_left hlt, houter]

namespace ScopeTree

/-- The current scope stays, and scopes are added in their places. -/
structure Grows (tree : Tree) (t t' : ScopeTree) : Prop where
  current : t'.current = t.current
  frames : ∃ new, t'.frames = t.frames ++ new ∧ ∀ f ∈ new, f.Placed tree t'.frames

variable {tree : Tree} {t t' t'' : ScopeTree}

/-- Scopes that look the same have grown by nothing. -/
theorem Grows.of_same (hframes : t'.frames = t.frames) (hcurrent : t'.current = t.current) :
    Grows tree t t' :=
  ⟨hcurrent, [], by simp [hframes], by simp⟩

theorem Grows.trans (h : Grows tree t t') (h' : Grows tree t' t'') : Grows tree t t'' := by
  obtain ⟨hcurrent, new, hnew, hplaced⟩ := h
  obtain ⟨hcurrent', new', hnew', hplaced'⟩ := h'
  refine ⟨hcurrent'.trans hcurrent, new ++ new', by rw [hnew', hnew, List.append_assoc], ?_⟩
  intro f hf
  rcases List.mem_append.1 hf with hf | hf
  · exact hnew' ▸ (hplaced f hf).append new'
  · exact hplaced' f hf

/-- The current scope keeps its frame. -/
theorem Grows.currentFrame? (h : Grows tree t t') {f : Frame} (hf : t.currentFrame? = some f) :
    t'.currentFrame? = some f := by
  obtain ⟨hcurrent, new, hnew, -⟩ := h
  obtain ⟨id, hid, hf⟩ := Option.bind_eq_some_iff.1 hf
  have hlt : id < t.frames.length := (List.getElem?_eq_some_iff.1 hf).1
  simp [ScopeTree.currentFrame?, hcurrent, hid, hnew, List.getElem?_append_left hlt, hf]

/-- Where all frames but the first are placed and no two have the same owner, a
scope has the first frame, or is placed and has another owner. -/
theorem first_or_placed {first : Frame} {new : List Frame} (hframes : t.frames = first :: new)
    (hplaced : ∀ f ∈ new, f.Placed tree t.frames)
    (hnodup : (t.frames.map Frame.owner).Nodup) {id : ScopeId} {scope : Scope}
    (hscope : t.get? id = some scope) :
    scope.frame = first ∨ (scope.frame.Placed tree t.frames ∧ scope.owner ≠ first.owner) := by
  have hmem : scope.frame ∈ first :: new := hframes ▸ List.mem_of_getElem? (frame_of_get? hscope)
  rcases List.mem_cons.1 hmem with heq | hnew
  · exact Or.inl heq
  · rw [hframes, List.map_cons, List.nodup_cons] at hnodup
    refine Or.inr ⟨hplaced _ hnew, fun howner => hnodup.1 ?_⟩
    exact List.mem_map.2 ⟨scope.frame, hnew, howner⟩

end ScopeTree

namespace Step

/-- The node whose scope a step enters. -/
def entered? : Step → Option NodeId
  | .enter n _ _ => some n
  | _ => none

theorem subject?_of_entered? {step : Step} {n : NodeId} (h : step.entered? = some n) :
    step.subject? = some n := by
  cases step <;> cases h
  rfl

/-- A step about a node that opens a scope enters it. -/
theorem Fits.entered? {tree : Tree} {step : Step} {n : NodeId} {x : Node}
    (hfits : step.Fits tree) (hn : step.subject? = some n) (hx : tree.get? n = some x)
    (hopens : x.kind.opensScope) : step.entered? = some n := by
  have hkind := hfits.subjectKind? hn hx
  cases step <;> cases hn
  case enter => rfl
  all_goals
    rw [← Option.some.inj hkind] at hopens
    cases hopens

/-- Only entering a scope adds one. -/
theorem Takes.owners {s : Surroundings} {p q : Progress} {step : Step}
    (h : step.Takes s p q) :
    q.scopes.frames.map Frame.owner =
      p.scopes.frames.map Frame.owner ++ step.entered?.toList := by
  cases h with
  | binds hn hb hscopes =>
      have hnone : step.entered? = none := by cases hb <;> rfl
      simp [hnone, hscopes.same_frames.1]
  | reports hd =>
      have hnone : step.entered? = none := by cases step <;> cases hd <;> rfl
      simp [hnone]
  | enters hstep hscopes =>
      subst hstep
      simp [(ScopeTree.frames_of_enter hscopes).1, Step.entered?, Scope.frame, ScopeTree.fresh]
  | leaves hstep hscopes =>
      subst hstep
      obtain ⟨id, -, rfl⟩ := ScopeTree.leave_eq_ok_iff.1 hscopes
      simp [Step.entered?, ScopeTree.frames]
  | passes targets hstep =>
      have hnone : step.entered? = none := by cases step <;> cases hstep <;> rfl
      simp [hnone]

end Step

namespace Walk

variable {s : Surroundings} {p q : Progress} {l : List Step} {n : NodeId}

/-- The owners of scopes are the nodes whose scopes were entered. -/
theorem run_owners (h : run s l p = .finished q) :
    q.scopes.frames.map Frame.owner =
      p.scopes.frames.map Frame.owner ++ l.filterMap Step.entered? := by
  induction l generalizing p with
  | nil =>
      cases h
      simp
  | cons step rest ih =>
      obtain ⟨m, hstep, hrest⟩ := run_cons_eq_finished h
      rw [ih hrest, (Step.takes_of_perform hstep).owners, List.append_assoc, List.filterMap_cons]
      cases step.entered? <;> rfl

/-- A walk enters the scopes of exactly the nodes that open one. -/
theorem mem_entered_iff {tree : Tree} {root : NodeId} (hlegal : Legal l)
    (hspells : Spells tree root (.visit root) l) :
    n ∈ l.filterMap Step.entered? ↔
      tree.Reaches root n ∧ ∃ x, tree.get? n = some x ∧ x.kind.opensScope := by
  have hfits := hspells.fits trivial
  rw [List.mem_filterMap]
  constructor
  · rintro ⟨step, hmem, hn⟩
    have hreach := hspells.reaches_of_visit hmem (Step.subject?_of_entered? hn)
    cases step <;> cases hn
    obtain ⟨hopens, x, hx, rfl⟩ := hfits _ hmem
    exact ⟨hreach, x, hx, hopens⟩
  · rintro ⟨hreach, x, hx, hopens⟩
    have hstep : x.kind.hasStep := by simp [NodeKind.hasStep, hopens]
    have hcovers := hspells.covers hlegal rfl
    obtain ⟨step, hmem, hn⟩ := mem_subjects.1 (hcovers.complete n x hreach hx hstep)
    exact ⟨step, hmem, (hfits step hmem).entered? hn hx hopens⟩

/-- A quiet step leaves the frames and the current scope alone. -/
theorem grows_of_quiet {step : Step} (hquiet : (Stage.own step).isQuiet)
    (h : step.perform s p = .finished q) : p.scopes.Grows s.tree q.scopes := by
  cases Step.takes_of_perform h with
  | binds hn hb hscopes =>
      obtain ⟨hframes, hcurrent⟩ := hscopes.same_frames
      exact .of_same hframes hcurrent
  | reports | passes => exact .of_same rfl rfl
  | enters hstep => subst hstep; cases hquiet
  | leaves hstep => subst hstep; cases hquiet

/-- Steps of a stage let the scopes grow, if the scope they are taken in is that
around the node of the stage. -/
def GrowsBy (s : Surroundings) (stage : Stage) (l : List Step) : Prop :=
  ∀ p q outer, run s l p = .finished q → p.scopes.currentFrame? = some outer →
    (∀ c, stage.child? = some c → s.tree.Encloses outer.owner c) →
    p.scopes.Grows s.tree q.scopes

/-- Stages in one scope let the scopes grow one after the other. -/
theorem grows_flatMap {stages : List Stage} {word : Stage → List Step}
    (ih : ∀ stage ∈ stages, GrowsBy s stage (word stage))
    (hrun : run s (stages.flatMap word) p = .finished q) {outer : Frame}
    (houter : p.scopes.currentFrame? = some outer)
    (hencloses : ∀ stage ∈ stages, ∀ c, stage.child? = some c →
      s.tree.Encloses outer.owner c) :
    p.scopes.Grows s.tree q.scopes := by
  induction stages generalizing p with
  | nil =>
      cases hrun
      exact .of_same rfl rfl
  | cons stage rest ihrest =>
      rw [List.flatMap_cons] at hrun
      obtain ⟨m, hfirst, hrest⟩ := run_append_eq_finished hrun
      rw [List.forall_mem_cons] at ih hencloses
      have hgrows := ih.1 p m outer hfirst houter hencloses.1
      exact hgrows.trans (ihrest ih.2 hrest (hgrows.currentFrame? houter) hencloses.2)

/-- **A scope and its body.**  The scope of a node is added, then what its body
adds, and the scope that was current is so again. -/
theorem run_inScope {kind : NodeKind} {correlated : Bool} {body : List Stage}
    {word : Stage → List Step}
    (hword : ∀ stage ∈ inScope n kind correlated body, Spells s.tree n stage (word stage))
    (hbody : Body s.tree n body) (ih : ∀ stage ∈ body, GrowsBy s stage (word stage))
    {x : Node} (hx : s.tree.get? n = some x) (hopens : x.kind.opensScope)
    (hrun : run s ((inScope n kind correlated body).flatMap word) p = .finished q) :
    q.scopes.current = p.scopes.current ∧
      ∃ new, q.scopes.frames =
          p.scopes.frames ++ (p.scopes.fresh n kind correlated).frame :: new ∧
        ∀ f ∈ new, f.Placed s.tree q.scopes.frames := by
  have hlegal := legal_of_run hrun
  have henter := (hword (.own (.enter n kind correlated)) (by simp [inScope])).own_eq
    (hlegal.of_mem_flatMap (by simp [inScope]))
  have hleave := (hword (.own .leave) (by simp [inScope])).own_eq
    (hlegal.of_mem_flatMap (by simp [inScope]))
  simp only [inScope, List.flatMap_append, List.flatMap_singleton, henter, hleave] at hrun
  -- Three runs: into the scope, through its body, and out of it.
  obtain ⟨m', hrun, hlast⟩ := run_append_eq_finished hrun
  obtain ⟨m, hfirst, hmiddle⟩ := run_append_eq_finished hrun
  simp only [run_singleton, Step.perform] at hfirst hlast
  obtain ⟨entered, hentered, rfl⟩ := Step.changeScopes_eq_finished hfirst
  obtain ⟨left, hleft, rfl⟩ := Step.changeScopes_eq_finished hlast
  obtain ⟨hframes, hcurrent⟩ := ScopeTree.frames_of_enter hentered
  have hgrows := grows_flatMap ih hmiddle hcurrent fun stage hstage c hc =>
    .child hx hopens ((hbody.holds stage hstage c hc).mem_children hx)
  obtain ⟨hframes', hcurrent'⟩ := ScopeTree.frames_of_leave hleft (hgrows.currentFrame? hcurrent)
  obtain ⟨new, hnew, hplaced⟩ := hgrows.frames
  refine ⟨hcurrent', new, ?_, fun f hf => hframes' ▸ hplaced f hf⟩
  rw [hframes', hnew, hframes, List.append_assoc, List.singleton_append]

/-- The stages of a node let the scopes grow: in the scope that the node opens
and that stands in the current one, or in the current one. -/
theorem Layout.grows {x : Node} {stages : List Stage} {word : Stage → List Step}
    (h : Layout s.tree n x stages) (hx : s.tree.get? n = some x)
    (hword : ∀ stage ∈ stages, Spells s.tree n stage (word stage))
    (ih : ∀ stage ∈ stages, stage.isQuiet → stage.Places s.tree →
      GrowsBy s stage (word stage))
    (hrun : run s (stages.flatMap word) p = .finished q) {outer : Frame}
    (houter : p.scopes.currentFrame? = some outer)
    (hencloses : s.tree.Encloses outer.owner n) : p.scopes.Grows s.tree q.scopes := by
  cases h with
  | @ownScope correlated body hopens hcorrelated hbody =>
      have hmem : ∀ stage ∈ body, stage ∈ inScope n x.kind correlated body := by
        intro stage hstage
        simp [inScope, hstage]
      obtain ⟨hcurrent, new, hnew, hplaced⟩ := run_inScope hword hbody
        (fun stage hstage => ih stage (hmem stage hstage) (hbody.quiet stage hstage)
          (hbody.places stage hstage)) hx hopens hrun
      obtain ⟨id, hid, hframe⟩ := Option.bind_eq_some_iff.1 houter
      have hlt : id < p.scopes.frames.length := (List.getElem?_eq_some_iff.1 hframe).1
      refine ⟨hcurrent, _, hnew, List.forall_mem_cons.2 ⟨?_, hplaced⟩⟩
      refine ⟨⟨x, hx, rfl⟩, ⟨id, outer, hid, ?_, hencloses⟩, hcorrelated⟩
      rw [hnew, List.getElem?_append_left hlt, hframe]
  | outerScope hcloses hbody =>
      refine grows_flatMap (fun stage hstage => ih stage hstage (hbody.quiet stage hstage)
        (hbody.places stage hstage)) hrun houter fun stage hstage c hc => ?_
      exact .through hencloses hx hcloses ((hbody.holds stage hstage c hc).mem_children hx)

/-- **Walks only add scopes.**  A stage of a walk over a tree-shaped tree comes
back to the scope that it is taken in and adds scopes in their places. -/
theorem Spells.grows (hshape : s.tree.TreeShaped) {owner : NodeId} {stage : Stage}
    (h : Spells s.tree owner stage l) (hquiet : stage.isQuiet)
    (hplaces : stage.Places s.tree) : GrowsBy s stage l := by
  induction h with
  | own owner step =>
      intro p q outer hrun _ _
      rw [run_singleton] at hrun
      exact grows_of_quiet hquiet hrun
  | visit owner n word hword ih =>
      intro p q outer hrun houter hencloses
      cases hx : s.tree.get? n with
      | none =>
          simp only [stages, hx, List.flatMap_nil] at hrun
          cases hrun
          exact .of_same rfl rfl
      | some x =>
          exact (stages_layout hshape hx hplaces).grows hx hword ih hrun houter (hencloses n rfl)
  | query owner correlated n word hword ih =>
      intro p q outer hrun houter hencloses
      rcases queryStages_layout hshape hplaces with ⟨hstages, hvisit⟩ | ⟨x, hx, hlayout⟩
      · rw [hstages] at hrun hword ih
        simp only [List.flatMap_cons, List.flatMap_nil, List.append_nil] at hrun
        exact ih (.visit n) (List.mem_singleton_self _) rfl hvisit p q outer hrun houter
          hencloses
      · exact hlayout.grows hx hword ih hrun houter (hencloses n rfl)
  | orderByAlias owner hitem hreference hplain hcolumn =>
      intro p q outer hrun _ _
      rw [run_singleton] at hrun
      exact grows_of_quiet rfl hrun
  | order columns hvisit ih => exact ih rfl hplaces
  | @assign owner n column initializer identifier l hset hcolumn hvisit ih =>
      intro p q outer hrun houter hencloses
      obtain ⟨m, hfirst, hrest⟩ := run_cons_eq_finished hrun
      have hgrows := grows_of_quiet rfl hfirst
      have hmem : initializer ∈ (Node.setExpression column initializer).children := by
        simp [Node.children]
      refine hgrows.trans (ih rfl ?_ m q outer hrest (hgrows.currentFrame? houter) ?_)
      · exact fun _ _ _ hstand => by
          simpa [Node.querySlots] using (hshape.standalone_slot_iff hset hmem rfl).1 hstand
      · rintro c ⟨⟩
        exact .through (hencloses n rfl) hset rfl hmem
  | store owner hclause =>
      intro p q outer hrun _ _
      rw [run_singleton] at hrun
      exact grows_of_quiet rfl hrun
  | declareType owner name initializer htype =>
      intro p q outer hrun _ _
      rw [run_singleton] at hrun
      exact grows_of_quiet rfl hrun
  | reject owner stage fault =>
      intro p q outer hrun _ _
      cases hrun

/-- The walk over a node goes through its stages or refuses the tree. -/
theorem Spells.visit_cases {tree : Tree} {owner : NodeId}
    (h : Spells tree owner (.visit n) l) :
    (∃ word : Stage → List Step, l = (stages tree n).flatMap word ∧
      ∀ stage ∈ stages tree n, Spells tree n stage (word stage)) ∨
    ∃ fault, l = [.reject fault] := by
  cases h with
  | visit _ _ word hword => exact Or.inl ⟨word, rfl, hword⟩
  | reject _ _ fault => exact Or.inr ⟨fault, rfl⟩

/-- **Scopes of a script.**  A walk over a script enters the scope of the script
first, and all others in their places. -/
theorem run_script (hshape : s.tree.TreeShaped) {root : NodeId} {statements : List NodeId}
    (hroot : s.tree.get? root = some (.script statements))
    (hspells : Spells s.tree root (.visit root) l) (hrun : run s l {} = .finished q) :
    q.scopes.current = none ∧ ∃ first new, q.scopes.frames = first :: new ∧
      (first.owner = root ∧ first.kind = .script ∧ first.physicalParent = none) ∧
      ∀ f ∈ new, f.Placed s.tree q.scopes.frames := by
  rcases hspells.visit_cases with ⟨word, rfl, hword⟩ | ⟨fault, rfl⟩
  · have hstages : stages s.tree root =
        inScope root .script false (visitAll statements) := by
      simp [stages, hroot, nodeStages]
    rw [hstages] at hword hrun
    have hsubset : visitAll statements ⊆ nodeStages root (.script statements) := by
      intro stage hstage
      simp [nodeStages, inScope, hstage]
    have hbody : Body s.tree root (visitAll statements) :=
      body_of_subset hshape hroot (fun h => (by cases h)) hsubset
        (by simp [visitAll, Stage.isQuiet])
    have ih : ∀ stage ∈ visitAll statements, GrowsBy s stage (word stage) :=
      fun stage hstage => (hword stage (by simp [inScope, hstage])).grows hshape
        (hbody.quiet stage hstage) (hbody.places stage hstage)
    obtain ⟨hcurrent, new, hnew, hplaced⟩ := run_inScope hword hbody ih hroot rfl hrun
    exact ⟨hcurrent, _, new, hnew, ⟨rfl, rfl, rfl⟩, hplaced⟩
  · cases hrun

end Walk

/-- **Scopes are the skeleton of the tree.**  After binding a script no scope is
current.  Exactly the nodes that open a scope have one, each a single one of its
own kind.  The scope stands in that of the nearest such node above, and a query
block is uncorrelated exactly if it is held as a query of its own. -/
theorem scopes_are_skeleton {config : Config} {tree : Tree} {provider : Provider}
    {root : NodeId} {statements : List NodeId} {bound : BoundScript}
    (hshape : tree.TreeShaped) (hroot : tree.get? root = some (.script statements))
    (hbind : bindScript config tree provider root = .ok bound)
    (hschema : ∀ detail, Diagnostic.schema detail ∉ bound.diagnostics) :
    bound.scopes.current = none ∧
    (bound.scopes.scopes.toList.map Scope.owner).Nodup ∧
    (∀ n, n ∈ bound.scopes.scopes.toList.map Scope.owner ↔
      tree.Reaches root n ∧ ∃ x, tree.get? n = some x ∧ x.kind.opensScope) ∧
    ∀ id scope, bound.scopes.get? id = some scope →
      (∃ x, tree.get? scope.owner = some x ∧ x.kind = scope.kind) ∧
      (scope.physicalParent = none ↔ scope.owner = root) ∧
      (∀ parent, scope.physicalParent = some parent →
        ∃ outer, bound.scopes.get? parent = some outer ∧
          tree.Encloses outer.owner scope.owner) ∧
      (scope.kind = .selectExpression →
        (scope.correlated = false ↔ tree.Standalone scope.owner)) := by
  obtain ⟨q, hrun, rfl⟩ := exists_run_of_bindScript hbind hschema
  have hspells : Walk.Spells tree root _ _ := Walk.walk_spells config.maxDepth root
  have hlegal := Walk.legal_of_run hrun
  have howners : q.scopes.frames.map Frame.owner =
      (tree.walk config.maxDepth root).filterMap Step.entered? := Walk.run_owners hrun
  have hnodup : (q.scopes.frames.map Frame.owner).Nodup := by
    rw [howners]
    exact ((hspells.covers hlegal rfl).nodup hshape).sublist
      (Walk.filterMap_sublist_subjects (fun _ _ => Step.subject?_of_entered?) _)
  obtain ⟨hcurrent, first, new, hframes, ⟨howner, hkind, hparent⟩, hplaced⟩ :=
    Walk.run_script hshape hroot hspells hrun
  refine ⟨hcurrent, q.scopes.map_owner_frames ▸ hnodup, fun n => ?_, fun id scope hscope => ?_⟩
  · rw [← Walk.mem_entered_iff hlegal hspells, ← howners, ScopeTree.map_owner_frames]
    rfl
  · rcases ScopeTree.first_or_placed hframes hplaced hnodup hscope with rfl | ⟨hscope, hne⟩
    · change scope.owner = root at howner
      change scope.kind = .script at hkind
      change scope.physicalParent = none at hparent
      rw [howner, hkind, hparent]
      exact ⟨⟨_, hroot, rfl⟩, ⟨fun _ => rfl, fun _ => rfl⟩, fun _ h => (by cases h),
        fun h => (by cases h)⟩
    · obtain ⟨parent, outer, hsome, houter, hencloses⟩ := hscope.parent
      change scope.physicalParent = some parent at hsome
      rw [hsome]
      refine ⟨hscope.kind, ⟨fun h => (by cases h), fun h => ?_⟩, ?_, hscope.correlated⟩
      · exact (hne (h.trans howner.symm)).elim
      · rintro _ ⟨⟩
        obtain ⟨around, haround, rfl⟩ := ScopeTree.exists_of_frame houter
        exact ⟨around, haround, hencloses⟩

/-- A script with a query on a union of two blocks under the condition that a
third one has rows. -/
def unionUnderCondition : Tree :=
  ⟨#[.selectExpression {}, .selectExpression {}, .tableUnion 0 1 true, .group 2,
    .tableExpression 3 "t", .selectExpression {}, .existsQuery 5,
    .selectExpression { source := some 4, condition := some 6 }, .select none 7,
    .script [8]]⟩

/-- Both blocks of the union are uncorrelated and the third block is not. -/
theorem skeleton_of_unionUnderCondition :
    ∃ bound, bindScript {} unionUnderCondition Catalog.empty.toProvider 9 = .ok bound ∧
      unionUnderCondition.TreeShaped ∧
      unionUnderCondition.get? 9 = some (.script [8]) ∧
      bound.diagnostics = [] ∧
      bound.scopes.frames.map Frame.owner = [9, 8, 7, 0, 1, 5] ∧
      bound.scopes.frames.map Frame.physicalParent =
        [none, some 0, some 1, some 2, some 2, some 2] ∧
      bound.scopes.current = none ∧
      unionUnderCondition.Standalone 1 ∧ ¬ unionUnderCondition.Standalone 5 := by
  obtain ⟨bound, hbind, hdiagnostics, howners, hparents, ⟨union, hunion, huk, huc, huo⟩,
      third, hthird, htk, htc, hto⟩ :
      ∃ bound, bindScript {} unionUnderCondition Catalog.empty.toProvider 9 = .ok bound ∧
        bound.diagnostics = [] ∧
        bound.scopes.frames.map Frame.owner = [9, 8, 7, 0, 1, 5] ∧
        bound.scopes.frames.map Frame.physicalParent =
          [none, some 0, some 1, some 2, some 2, some 2] ∧
        (∃ scope, bound.scopes.get? 4 = some scope ∧ scope.kind = .selectExpression ∧
          scope.correlated = false ∧ scope.owner = 1) ∧
        ∃ scope, bound.scopes.get? 5 = some scope ∧ scope.kind = .selectExpression ∧
          scope.correlated = true ∧ scope.owner = 5 :=
    ⟨_, rfl, rfl, rfl, rfl, ⟨_, rfl, rfl, rfl, rfl⟩, _, rfl, rfl, rfl, rfl⟩
  obtain ⟨hcurrent, -, -, hscopes⟩ :=
    scopes_are_skeleton (by decide) rfl hbind (by simp [hdiagnostics])
  refine ⟨bound, hbind, by decide, rfl, hdiagnostics, howners, hparents, hcurrent, ?_, ?_⟩
  · exact huo ▸ ((hscopes 4 union hunion).2.2.2 huk).1 huc
  · intro h
    have := ((hscopes 5 third hthird).2.2.2 htk).2 (hto ▸ h)
    simp [htc] at this

end UnionScript
