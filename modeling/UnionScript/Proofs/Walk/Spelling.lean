import Mathlib.Data.List.Perm.Basic
import UnionScript.Proofs.Syntax.Shape
import UnionScript.Walk.Step

/-!
# How walks are spelled

The walk over a node is computed with a limit on nesting and a bound on the
links of a query.  `Walk.Spells` says without either of them which steps a
stage of a walk is spelled by, and `Walk.walk_spells` that every walk is
spelled that way.  Statements about walks are proved along this relation.

* `Walk.stages_traverse`, `Walk.queryStages_traverse` — the stages of a walk
  over a node go through its slots, each once;
* `Walk.Spells.fits` — every step of a walk is about a node of its kind;
* `Walk.Spells.reaches` — every step of a walk is about a node below.
-/

namespace UnionScript

/-- The nodes of these kinds open a scope. -/
def NodeKind.opensScope (k : NodeKind) : Bool :=
  k == .script || k.isStatement || k == .selectExpression

/-- Walks have a step about each node of these kinds. -/
def NodeKind.hasStep (k : NodeKind) : Bool :=
  k.opensScope || k ∈ [.commonTable, .tableReference, .tableExpression,
    .columnReference, .variableReference, .functionCall, .typeIdentifier, .into]

/-- The node that a step is about. -/
def Step.subject? : Step → Option NodeId
  | .enter n _ _ | .defineTable n _ | .deriveTable n _ _ | .useTable n _ _
  | .useColumn n _ | .useProjection n _ | .useVariable n _ | .callFunction n _
  | .storeInto n _ _ | .declare n _ _ _ | .setColumn n _ => some n
  | .leave | .beginSet _ | .endSet | .reject _ => none

namespace Stage

/-- The node in the slot that a stage is for. -/
def child? : Stage → Option NodeId
  | .own _ => none
  | .visit n | .query _ n | .order _ n | .assign n | .store n
  | .declareType _ n _ => some n

/-- The node that a stage of its own is about. -/
def ownSubject? : Stage → Option NodeId
  | .own s => s.subject?
  | _ => none

/-- The node that a stage is about. -/
def subject? (stage : Stage) : Option NodeId :=
  stage.ownSubject?.or stage.child?

theorem subject?_own (s : Step) : (Stage.own s).subject? = s.subject? :=
  Option.or_none

end Stage

/-- A step says of its nodes what they are in the tree. -/
def Step.Fits (tree : Tree) : Step → Prop
  | .enter n kind _ => kind.opensScope ∧ ∃ x, tree.get? n = some x ∧ x.kind = kind
  | .defineTable n name => ∃ query, tree.get? n = some (.commonTable name query)
  | .deriveTable n query aliasName => tree.get? n = some (.tableExpression query aliasName)
  | .useTable n identifier shown =>
    ∃ aliasName, tree.get? n = some (.tableReference identifier aliasName) ∧
      shown = aliasName.getD identifier
  | .useColumn n identifier => tree.get? n = some (.columnReference identifier)
  | .useProjection n column =>
    ∃ name, tree.get? n = some (.columnReference name) ∧ '.' ∉ name.toList ∧
      Walk.hasAlias tree name column
  | .useVariable n name => tree.get? n = some (.variableReference name)
  | .callFunction n name =>
    ∃ arguments window, tree.get? n = some (.functionCall name arguments window)
  | .storeInto n source target =>
    tree.get? n = some (.into target) ∧
      ∃ x, tree.get? source = some x ∧ (x.kind = .selectExpression ∨ x.kind = .output)
  | .declare n typeName name initializer =>
    tree.get? n = some (.typeIdentifier typeName) ∧
      ∃ d, tree.get? d = some (.declare name n initializer)
  | .setColumn n identifier => tree.get? n = some (.columnReference identifier)
  | .leave | .beginSet _ | .endSet | .reject _ => True

/-- The kind of the node that a step is about. -/
def Step.subjectKind? : Step → Option NodeKind
  | .enter _ kind _ => some kind
  | .defineTable _ _ => some .commonTable
  | .deriveTable _ _ _ => some .tableExpression
  | .useTable _ _ _ => some .tableReference
  | .useColumn _ _ | .useProjection _ _ | .setColumn _ _ => some .columnReference
  | .useVariable _ _ => some .variableReference
  | .callFunction _ _ => some .functionCall
  | .storeInto _ _ _ => some .into
  | .declare _ _ _ _ => some .typeIdentifier
  | .leave | .beginSet _ | .endSet | .reject _ => none

/-- A step knows the kind of the node that it is about. -/
theorem Step.Fits.subjectKind? {tree : Tree} {step : Step} {n : NodeId} {x : Node}
    (hfits : step.Fits tree) (hn : step.subject? = some n) (hx : tree.get? n = some x) :
    step.subjectKind? = some x.kind := by
  cases step <;> cases hn
  case enter =>
    obtain ⟨-, y, hy, rfl⟩ := hfits
    obtain rfl : x = y := Option.some.inj (hx.symm.trans hy)
    rfl
  case deriveTable | useColumn | useVariable | setColumn =>
    cases hx.symm.trans hfits
    rfl
  case defineTable =>
    obtain ⟨_, h⟩ := hfits
    cases hx.symm.trans h
    rfl
  case useTable | useProjection =>
    obtain ⟨_, h, -⟩ := hfits
    cases hx.symm.trans h
    rfl
  case callFunction =>
    obtain ⟨_, _, h⟩ := hfits
    cases hx.symm.trans h
    rfl
  case storeInto | declare =>
    cases hx.symm.trans hfits.1
    rfl

/-- The step about a common table defines it. -/
theorem Step.Fits.eq_defineTable {tree : Tree} {step : Step} {c query : NodeId} {name : String}
    (hfits : step.Fits tree) (hc : step.subject? = some c)
    (hx : tree.get? c = some (.commonTable name query)) : step = .defineTable c name := by
  have hkind := hfits.subjectKind? hc hx
  cases step <;> cases hc <;> cases hkind
  case enter => cases hfits.1
  case defineTable =>
    obtain ⟨_, hx'⟩ := hfits
    cases hx.symm.trans hx'
    rfl

/-- A stage of the walk over a node is one that this node can have. -/
def Stage.Fits (tree : Tree) (owner : NodeId) : Stage → Prop
  | .own s => s.Fits tree
  | .store _ =>
    ∃ x, tree.get? owner = some x ∧ (x.kind = .selectExpression ∨ x.kind = .output)
  | .declareType name type initializer =>
    tree.get? owner = some (.declare name type initializer)
  | .visit _ | .query _ _ | .order _ _ | .assign _ => True

namespace Walk

/-- The steps that a stage of the walk over a node is spelled by.  Any stage
may end in the refusal of the tree. -/
inductive Spells (tree : Tree) : NodeId → Stage → List Step → Prop
  | own (owner : NodeId) (s : Step) : Spells tree owner (.own s) [s]
  | visit (owner n : NodeId) (word : Stage → List Step)
      (hword : ∀ stage ∈ stages tree n, Spells tree n stage (word stage)) :
      Spells tree owner (.visit n) ((stages tree n).flatMap word)
  | query (owner : NodeId) (correlated : Bool) (n : NodeId) (word : Stage → List Step)
      (hword : ∀ stage ∈ queryStages tree correlated n,
        Spells tree n stage (word stage)) :
      Spells tree owner (.query correlated n)
        ((queryStages tree correlated n).flatMap word)
  | orderByAlias (owner : NodeId) {columns : List NodeId} {item reference column : NodeId}
      {descending : Bool} {name : String}
      (hitem : tree.get? item = some (.orderItem reference descending))
      (hreference : tree.get? reference = some (.columnReference name))
      (hplain : '.' ∉ name.toList)
      (hcolumn : columns.find? (hasAlias tree name) = some column) :
      Spells tree owner (.order columns item) [.useProjection reference column]
  | order {owner item : NodeId} (columns : List NodeId) {l : List Step}
      (hvisit : Spells tree owner (.visit item) l) :
      Spells tree owner (.order columns item) l
  | assign {owner n column initializer : NodeId} {identifier : String} {l : List Step}
      (hset : tree.get? n = some (.setExpression column initializer))
      (hcolumn : tree.get? column = some (.columnReference identifier))
      (hvisit : Spells tree owner (.visit initializer) l) :
      Spells tree owner (.assign n) (.setColumn column identifier :: l)
  | store (owner : NodeId) {clause : NodeId} {target : String}
      (hclause : tree.get? clause = some (.into target)) :
      Spells tree owner (.store clause) [.storeInto clause owner target]
  | declareType (owner : NodeId) (name : String) {type : NodeId} {typeName : String}
      (initializer : Option NodeId)
      (htype : tree.get? type = some (.typeIdentifier typeName)) :
      Spells tree owner (.declareType name type initializer)
        [.declare type typeName name initializer]
  | reject (owner : NodeId) (stage : Stage) (fault : StructureFault) :
      Spells tree owner stage [.reject fault]

variable {tree : Tree}

/-- What `plainKey?` finds at an item. -/
theorem plainKey?_eq_some {item reference : NodeId} {name : String}
    (h : plainKey? tree item = some (reference, name)) :
    (∃ descending, tree.get? item = some (.orderItem reference descending)) ∧
      tree.get? reference = some (.columnReference name) ∧ '.' ∉ name.toList := by
  simp only [plainKey?, Option.bind_eq_bind, Option.bind_eq_some_iff] at h
  obtain ⟨x, hx, h⟩ := h
  split at h
  · obtain ⟨y, hy, h⟩ := Option.bind_eq_some_iff.1 h
    split at h
    · split at h
      · cases h
      · rename_i hplain
        cases h
        exact ⟨⟨_, hx⟩, hy, by simpa using hplain⟩
    · cases h
  · cases h

/-- A stage is spelled by the steps of its parts if the walks over the nodes
below are spelled by theirs. -/
theorem stageParts_spells {visit : NodeId → List Step} {query : Bool → NodeId → List Step}
    (hvisit : ∀ owner n, Spells tree owner (.visit n) (visit n))
    (hquery : ∀ owner c n, Spells tree owner (.query c n) (query c n))
    (owner : NodeId) (stage : Stage) :
    Spells tree owner stage ((stageParts tree owner stage).flatMap (expand visit query)) := by
  cases stage with
  | own s => exact Spells.own owner s
  | visit n => simpa [stageParts, expand] using hvisit owner n
  | query c n => simpa [stageParts, expand] using hquery owner c n
  | order columns item =>
      simp only [stageParts, List.flatMap_singleton, orderItem]
      split
      · rename_i reference name hkey
        split
        · rename_i column hcolumn
          obtain ⟨⟨_, hitem⟩, hreference, hplain⟩ := plainKey?_eq_some hkey
          exact Spells.orderByAlias owner hitem hreference hplain hcolumn
        · exact Spells.order columns (hvisit owner item)
      · exact Spells.order columns (hvisit owner item)
  | assign n =>
      simp only [stageParts, assignment]
      split
      · rename_i hset
        split
        · rename_i hcolumn
          simpa [expand] using Spells.assign hset hcolumn (hvisit owner _)
        · exact Spells.reject owner _ _
      · exact Spells.reject owner _ _
  | store clause =>
      simp only [stageParts, List.flatMap_singleton, into]
      split
      · rename_i hclause
        exact Spells.store owner hclause
      · exact Spells.reject owner _ _
  | declareType name type initializer =>
      simp only [stageParts, List.flatMap_singleton, declaredType]
      split
      · rename_i htype
        exact Spells.declareType owner name initializer htype
      · exact Spells.reject owner _ _

/-- A query is spelled by its steps if the walks over nodes are. -/
theorem querySteps_spells {visit : NodeId → List Step}
    (hvisit : ∀ owner n, Spells tree owner (.visit n) (visit n)) (fuel : Nat) :
    ∀ owner c n, Spells tree owner (.query c n) (querySteps tree visit fuel c n) := by
  induction fuel with
  | zero => exact fun owner c n => Spells.reject owner _ _
  | succ fuel ih =>
      intro owner c n
      simp only [querySteps, queryParts, List.flatMap_assoc]
      exact Spells.query owner c n _ (fun stage _ => stageParts_spells hvisit ih n stage)

/-- A walk within any depth is spelled by its steps. -/
theorem steps_spells (limit depth : Nat) :
    ∀ owner n, Spells tree owner (.visit n) (steps tree limit depth n) := by
  induction depth with
  | zero => exact fun owner n => Spells.reject owner _ _
  | succ depth ih =>
      intro owner n
      simp only [steps, parts, List.flatMap_assoc]
      exact Spells.visit owner n _
        (fun stage _ => stageParts_spells ih (querySteps_spells ih _) n stage)

/-- **Every walk is spelled.**  The limit on nesting and the bound on links
show only where a walk ends in the refusal of the tree. -/
theorem walk_spells (limit : Nat) (root : NodeId) :
    Spells tree root (.visit root) (tree.walk limit root) :=
  steps_spells limit limit root root

/-- The nodes in the slots that stages are for. -/
def slots (stages : List Stage) : List NodeId :=
  stages.filterMap Stage.child?

@[simp]
theorem slots_nil : slots [] = [] := rfl

@[simp]
theorem slots_cons (stage : Stage) (rest : List Stage) :
    slots (stage :: rest) = stage.child?.toList ++ slots rest := by
  cases h : stage.child? <;> simp [slots, h]

@[simp]
theorem slots_append (first second : List Stage) :
    slots (first ++ second) = slots first ++ slots second :=
  List.filterMap_append

/-- Stages that are each for a node of a list are for the list. -/
theorem slots_map {f : NodeId → Stage} (hf : ∀ n, (f n).child? = some n)
    (nodes : List NodeId) : slots (nodes.map f) = nodes := by
  induction nodes with
  | nil => rfl
  | cons n rest ih => simp [hf, ih]

/-- The nodes that stages of their own are about. -/
def ownSubjects (stages : List Stage) : List NodeId :=
  stages.filterMap Stage.ownSubject?

@[simp]
theorem ownSubjects_nil : ownSubjects [] = [] := rfl

@[simp]
theorem ownSubjects_cons (stage : Stage) (rest : List Stage) :
    ownSubjects (stage :: rest) = stage.ownSubject?.toList ++ ownSubjects rest := by
  cases h : stage.ownSubject? <;> simp [ownSubjects, h]

@[simp]
theorem ownSubjects_append (first second : List Stage) :
    ownSubjects (first ++ second) = ownSubjects first ++ ownSubjects second :=
  List.filterMap_append

/-- Stages for slots are not of the node's own. -/
theorem ownSubjects_map {f : NodeId → Stage} (hf : ∀ n, (f n).ownSubject? = none)
    (nodes : List NodeId) : ownSubjects (nodes.map f) = [] := by
  simp [ownSubjects, hf]

/-- Stages go through a node: one is for each slot, and one is about the node
itself if walks have a step about it. -/
structure Traverse (n : NodeId) (x : Node) (stages : List Stage) : Prop where
  slots_perm : (slots stages).Perm x.children
  own : ownSubjects stages = if x.kind.hasStep then [n] else []

/-- **Every slot has its stage.**  Unless the walk over a node refuses the tree
at once, its stages go through the node. -/
theorem nodeStages_traverse (n : NodeId) (x : Node) :
    (∃ fault, nodeStages n x = [.own (.reject fault)]) ∨ Traverse n x (nodeStages n x) := by
  have hvisit := @slots_map Stage.visit (fun _ => rfl)
  have hquery := @slots_map (Stage.query false) (fun _ => rfl)
  have horder := fun columns => @slots_map (Stage.order columns) (fun _ => rfl)
  have hassign := @slots_map Stage.assign (fun _ => rfl)
  have hstore := @slots_map Stage.store (fun _ => rfl)
  have hvisit' := @ownSubjects_map Stage.visit (fun _ => rfl)
  have hquery' := @ownSubjects_map (Stage.query false) (fun _ => rfl)
  have horder' := fun columns => @ownSubjects_map (Stage.order columns) (fun _ => rfl)
  have hassign' := @ownSubjects_map Stage.assign (fun _ => rfl)
  have hstore' := @ownSubjects_map Stage.store (fun _ => rfl)
  cases x
  case typeIdentifier => exact Or.inl ⟨_, rfl⟩
  case setExpression => exact Or.inl ⟨_, rfl⟩
  case into => exact Or.inl ⟨_, rfl⟩
  all_goals
    refine Or.inr ⟨List.perm_iff_count.2 fun m => ?_, ?_⟩
    · simp [nodeStages, block, blockBody, inScope, assignments, visitAll, visitOption,
        Stage.child?, Node.children, List.count_cons, hvisit, hquery, horder, hassign,
        hstore] <;>
      omega
    · simp [nodeStages, block, blockBody, inScope, assignments, visitAll, visitOption,
        Stage.ownSubject?, Step.subject?, Node.kind, NodeKind.hasStep, NodeKind.opensScope,
        NodeKind.isStatement, hvisit', hquery', horder', hassign', hstore']

/-- The walk over a number has no stages, refuses the tree, or goes through the
node of the number. -/
theorem stages_traverse (tree : Tree) (n : NodeId) :
    (tree.get? n = none ∧ stages tree n = []) ∨
      (∃ fault, stages tree n = [.own (.reject fault)]) ∨
      ∃ x, tree.get? n = some x ∧ Traverse n x (stages tree n) := by
  unfold stages
  cases hx : tree.get? n with
  | none => exact Or.inl ⟨rfl, rfl⟩
  | some x =>
      rcases nodeStages_traverse n x with hreject | h
      · exact Or.inr (Or.inl hreject)
      · exact Or.inr (Or.inr ⟨x, rfl, h⟩)

/-- A walk in the place of a query visits the node there or goes through it. -/
theorem queryStages_traverse (tree : Tree) (c : Bool) (n : NodeId) :
    queryStages tree c n = [.visit n] ∨
      ∃ x, tree.get? n = some x ∧ Traverse n x (queryStages tree c n) := by
  unfold queryStages
  split
  · rename_i b hx
    rcases nodeStages_traverse n (.selectExpression b) with ⟨fault, h⟩ | h
    · simp [nodeStages, block, inScope] at h
    · exact Or.inr ⟨_, hx, h.slots_perm, h.own⟩
  · rename_i left right all hx
    exact Or.inr ⟨_, hx, List.Perm.refl _, rfl⟩
  · rename_i expression hx
    exact Or.inr ⟨_, hx, List.Perm.refl _, rfl⟩
  · exact Or.inl rfl

/-- Stages that go through a node are about the node or a child. -/
theorem Traverse.reaches {n m : NodeId} {x : Node} {l : List Stage} {stage : Stage}
    (h : Traverse n x l) (hx : tree.get? n = some x) (hstage : stage ∈ l)
    (hm : stage.subject? = some m) : tree.Reaches n m := by
  rw [Tree.reaches_iff_of_get? hx]
  rcases Option.or_eq_some_iff.1 hm with hown | ⟨-, hchild⟩
  · left
    have hmem : m ∈ ownSubjects l := List.mem_filterMap.2 ⟨stage, hstage, hown⟩
    rw [h.own] at hmem
    split at hmem <;> simp_all
  · have hmem : m ∈ slots l := List.mem_filterMap.2 ⟨stage, hstage, hchild⟩
    exact Or.inr ⟨m, h.slots_perm.mem_iff.1 hmem, Relation.ReflTransGen.refl⟩

/-- A stage of the walk over a node is about a node below. -/
theorem reaches_of_mem_stages {n m : NodeId} {stage : Stage}
    (hstage : stage ∈ stages tree n) (hm : stage.subject? = some m) : tree.Reaches n m := by
  rcases stages_traverse tree n with ⟨-, h⟩ | ⟨fault, h⟩ | ⟨x, hx, h⟩
  · rw [h] at hstage
    cases hstage
  · rw [h, List.mem_singleton] at hstage
    subst hstage
    cases hm
  · exact h.reaches hx hstage hm

/-- A stage of a walk in the place of a query is about a node below. -/
theorem reaches_of_mem_queryStages {c : Bool} {n m : NodeId} {stage : Stage}
    (hstage : stage ∈ queryStages tree c n) (hm : stage.subject? = some m) :
    tree.Reaches n m := by
  rcases queryStages_traverse tree c n with h | ⟨x, hx, h⟩
  · rw [h, List.mem_singleton] at hstage
    subst hstage
    obtain rfl : n = m := Option.some.inj hm
    exact Relation.ReflTransGen.refl
  · exact h.reaches hx hstage hm

/-- Every stage of the walk over a node is one that the node can have. -/
theorem nodeStages_fits {n : NodeId} {x : Node} (hx : tree.get? n = some x) :
    ∀ stage ∈ nodeStages n x, stage.Fits tree n := by
  cases x <;>
    simp only [nodeStages, block, blockBody, inScope, assignments, visitAll, visitOption,
      List.forall_mem_append, List.forall_mem_cons, List.forall_mem_map, List.not_mem_nil,
      Stage.Fits, Step.Fits, hx, implies_true, and_true, IsEmpty.forall_iff, true_and,
      Option.some.injEq]
  all_goals simp [Node.kind, NodeKind.opensScope, NodeKind.isStatement]

theorem stages_fits {n : NodeId} {stage : Stage} (hstage : stage ∈ stages tree n) :
    stage.Fits tree n := by
  unfold stages at hstage
  split at hstage
  · rename_i x hx
    exact nodeStages_fits hx stage hstage
  · cases hstage

theorem queryStages_fits {c : Bool} {n : NodeId} {stage : Stage}
    (hstage : stage ∈ queryStages tree c n) : stage.Fits tree n := by
  unfold queryStages at hstage
  split at hstage
  · rename_i b hx
    simp only [block, inScope, List.mem_append, List.mem_singleton] at hstage
    rcases hstage with (rfl | hbody) | rfl
    · exact ⟨rfl, _, hx, rfl⟩
    · refine nodeStages_fits hx stage ?_
      simp [nodeStages, block, inScope, hbody]
    · trivial
  · simp only [List.mem_cons, List.not_mem_nil, or_false] at hstage
    rcases hstage with rfl | rfl <;> trivial
  · obtain rfl := List.mem_singleton.1 hstage
    trivial
  · obtain rfl := List.mem_singleton.1 hstage
    trivial

/-- **Steps fit.**  Every step of a stage says of its nodes what they are. -/
theorem Spells.fits {owner : NodeId} {stage : Stage} {l : List Step}
    (h : Spells tree owner stage l) (hstage : stage.Fits tree owner) :
    ∀ s ∈ l, s.Fits tree := by
  induction h with
  | own owner s =>
      intro s' hs
      obtain rfl := List.mem_singleton.1 hs
      exact hstage
  | visit owner n word _ ih =>
      intro s hs
      obtain ⟨inner, hinner, hs⟩ := List.mem_flatMap.1 hs
      exact ih inner hinner (stages_fits hinner) s hs
  | query owner c n word _ ih =>
      intro s hs
      obtain ⟨inner, hinner, hs⟩ := List.mem_flatMap.1 hs
      exact ih inner hinner (queryStages_fits hinner) s hs
  | orderByAlias owner hitem hreference hplain hcolumn =>
      intro s hs
      obtain rfl := List.mem_singleton.1 hs
      exact ⟨_, hreference, hplain, by simpa using List.find?_some hcolumn⟩
  | order columns _ ih => exact ih trivial
  | assign hset hcolumn _ ih =>
      intro s hs
      rcases List.mem_cons.1 hs with rfl | hs
      · exact hcolumn
      · exact ih trivial s hs
  | store owner hclause =>
      intro s hs
      obtain rfl := List.mem_singleton.1 hs
      exact ⟨hclause, hstage⟩
  | declareType owner name initializer htype =>
      intro s hs
      obtain rfl := List.mem_singleton.1 hs
      exact ⟨htype, owner, hstage⟩
  | reject owner stage fault =>
      intro s hs
      obtain rfl := List.mem_singleton.1 hs
      trivial

/-- **Steps stay below.**  Every step of a stage that is about a node is about
one below the node that the stage is about. -/
theorem Spells.reaches {owner : NodeId} {stage : Stage} {l : List Step}
    (h : Spells tree owner stage l) {s : Step} (hs : s ∈ l) {m : NodeId}
    (hm : s.subject? = some m) :
    ∃ top, stage.subject? = some top ∧ tree.Reaches top m := by
  induction h generalizing s m with
  | own owner s' =>
      obtain rfl := List.mem_singleton.1 hs
      exact ⟨m, (Stage.subject?_own s).trans hm, Relation.ReflTransGen.refl⟩
  | visit owner n word _ ih =>
      obtain ⟨inner, hinner, hs⟩ := List.mem_flatMap.1 hs
      obtain ⟨top, htop, hreach⟩ := ih inner hinner hs hm
      exact ⟨n, rfl, (reaches_of_mem_stages hinner htop).trans hreach⟩
  | query owner c n word _ ih =>
      obtain ⟨inner, hinner, hs⟩ := List.mem_flatMap.1 hs
      obtain ⟨top, htop, hreach⟩ := ih inner hinner hs hm
      exact ⟨n, rfl, (reaches_of_mem_queryStages hinner htop).trans hreach⟩
  | @orderByAlias owner columns item reference column descending name hitem hreference _ _ =>
      obtain rfl := List.mem_singleton.1 hs
      obtain rfl : reference = m := Option.some.inj hm
      exact ⟨item, rfl, Relation.ReflTransGen.single ⟨_, hitem, by simp [Node.children]⟩⟩
  | order columns _ ih => exact ih hs hm
  | @assign owner n column initializer identifier l hset hcolumn _ ih =>
      refine ⟨n, rfl, ?_⟩
      rcases List.mem_cons.1 hs with rfl | hs
      · obtain rfl : column = m := Option.some.inj hm
        exact Relation.ReflTransGen.single ⟨_, hset, by simp [Node.children]⟩
      · obtain ⟨top, htop, hreach⟩ := ih hs hm
        obtain rfl : initializer = top := Option.some.inj htop
        exact Relation.ReflTransGen.head ⟨_, hset, by simp [Node.children]⟩ hreach
  | store owner hclause =>
      obtain rfl := List.mem_singleton.1 hs
      exact ⟨m, hm, Relation.ReflTransGen.refl⟩
  | declareType owner name initializer htype =>
      obtain rfl := List.mem_singleton.1 hs
      exact ⟨m, hm, Relation.ReflTransGen.refl⟩
  | reject owner stage fault =>
      obtain rfl := List.mem_singleton.1 hs
      cases hm

/-- Every step of the walk over a node that is about a node is about one below. -/
theorem Spells.reaches_of_visit {owner n : NodeId} {l : List Step}
    (h : Spells tree owner (.visit n) l) {s : Step} (hs : s ∈ l) {m : NodeId}
    (hm : s.subject? = some m) : tree.Reaches n m := by
  obtain ⟨top, htop, hreach⟩ := h.reaches hs hm
  obtain rfl : n = top := Option.some.inj htop
  exact hreach

end Walk

end UnionScript
