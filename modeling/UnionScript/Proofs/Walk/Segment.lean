import Mathlib.Data.List.Basic
import UnionScript.Proofs.Syntax.Script
import UnionScript.Proofs.Walk.Coverage

/-!
# The walk over a nested node

Statements, declarations, common tables and query blocks may stand anywhere in a tree.  Whatever
they stand in, the walk over that visits them as a whole: the steps about a nested node are one
segment of the walk around it, spelled by the stages of its own.

* `Walk.HoldsWalk` — a walk over a node is a segment of some steps;
* `Walk.Spells.holdsWalk` — a walk that does not refuse the tree holds a walk over each
  node below, except for the few kinds of nodes that are taken apart by the node around them;
* `Walk.Spells.holds`, `Walk.Spells.holds_block` — what follows for nodes that have the same
  stages wherever they stand, and for query blocks.
-/

namespace UnionScript

/-- The nodes of these kinds are visited as a whole wherever they stand.  The others may be taken
apart by the node around them: an item by whose alias rows are ordered, an assignment, the column
in either of them, a clause that rows are stored by, and the type of a declaration. -/
def NodeKind.isWhole (k : NodeKind) : Bool :=
  k ∉ [.orderItem, .setExpression, .columnReference, .into, .typeIdentifier]

/-- The walks over nodes of these kinds have the same stages wherever they stand.  Blocks, unions
and groups have others in the place of a query. -/
def NodeKind.keepsStages (k : NodeKind) : Bool :=
  k.isWhole && k ∉ [.selectExpression, .tableUnion, .group]

theorem NodeKind.keepsStages_of_isItem {k : NodeKind} (h : k.isItem) : k.keepsStages := by
  cases k <;> cases h <;> rfl

namespace Walk

variable {tree : Tree} {n : NodeId} {x : Node}

/-- The stages that a walk over a node goes through, by itself or in the place of a query. -/
inductive StagesOf (tree : Tree) (n : NodeId) : List Stage → Prop
  | visit : StagesOf tree n (stages tree n)
  | query {correlated : Bool} (h : queryStages tree correlated n ≠ [.visit n]) :
      StagesOf tree n (queryStages tree correlated n)

/-- Some of the steps, in one piece, are a walk over a node. -/
def HoldsWalk (tree : Tree) (n : NodeId) (l : List Step) : Prop :=
  ∃ (list : List Stage) (word : Stage → List Step), StagesOf tree n list ∧
    (∀ stage ∈ list, Spells tree n stage (word stage)) ∧ list.flatMap word <:+: l

/-- Some of the steps, in one piece, are the walk over a node. -/
def Holds (tree : Tree) (n : NodeId) (x : Node) (l : List Step) : Prop :=
  ∃ word : Stage → List Step, (∀ stage ∈ nodeStages n x, Spells tree n stage (word stage)) ∧
    (nodeStages n x).flatMap word <:+: l

theorem HoldsWalk.mono {l l' : List Step} (h : HoldsWalk tree n l) (hl : l <:+: l') :
    HoldsWalk tree n l' := by
  obtain ⟨list, word, hlist, hword, hinfix⟩ := h
  exact ⟨list, word, hlist, hword, hinfix.trans hl⟩

/-- The steps of a stage are one piece of the steps of all. -/
theorem infix_flatMap {stages : List Stage} {stage : Stage} (hstage : stage ∈ stages)
    (word : Stage → List Step) : word stage <:+: stages.flatMap word :=
  List.infix_of_mem_flatten (List.mem_map_of_mem hstage)

/-- Stages that go through a node hold the walk over what is below if those for its slots
do. -/
theorem Traverse.holdsWalk {m : NodeId} {y : Node} {stages : List Stage}
    {word : Stage → List Step} (h : Traverse m y stages) (hy : tree.get? m = some y)
    (hreach : tree.Reaches m n) (hne : n ≠ m)
    (ih : ∀ stage ∈ stages, ∀ c, stage.child? = some c → tree.Reaches c n →
      HoldsWalk tree n (word stage)) : HoldsWalk tree n (stages.flatMap word) := by
  rcases (Tree.reaches_iff_of_get? hy).1 hreach with rfl | ⟨c, hc, hcn⟩
  · exact (hne rfl).elim
  · obtain ⟨stage, hstage, hchild⟩ := List.mem_filterMap.1 (h.slots_perm.mem_iff.2 hc)
    exact (ih stage hstage c hchild hcn).mono (infix_flatMap hstage word)

/-- What stands in the place of a query is visited unless it is a block, a union or a
group. -/
theorem queryStages_of_keepsStages (hx : tree.get? n = some x) (hkeeps : x.kind.keepsStages)
    (correlated : Bool) : queryStages tree correlated n = [.visit n] := by
  unfold queryStages
  split
  case h_4 => rfl
  all_goals
    rename_i hquery
    cases hx.symm.trans hquery
    cases hkeeps

/-- Below a leaf that may be taken apart there is no node that is visited as a whole. -/
theorem not_reaches_leaf {m : NodeId} {y : Node} (hy : tree.get? m = some y)
    (hleaf : y.children = []) (hkind : y.kind.isWhole = false) (hx : tree.get? n = some x)
    (hwhole : x.kind.isWhole) : ¬ tree.Reaches m n := by
  intro hreach
  obtain rfl := (Tree.reaches_leaf_iff hy hleaf).1 hreach
  obtain rfl : x = y := Option.some.inj (hx.symm.trans hy)
  rw [hwhole] at hkind
  cases hkind

/-- **Nodes are visited as a whole.**  The steps of a stage that does not refuse the tree hold a
walk over each node below the slot that the stage is for, unless the node may be taken apart. -/
theorem Spells.holdsWalk {owner top : NodeId} {stage : Stage} {l : List Step}
    (h : Spells tree owner stage l) (hlegal : Legal l) (htop : stage.child? = some top)
    (hreach : tree.Reaches top n) (hx : tree.get? n = some x) (hwhole : x.kind.isWhole) :
    HoldsWalk tree n l := by
  induction h generalizing top with
  | own owner s => cases htop
  | visit owner m word hword ih =>
      obtain rfl := Option.some.inj htop
      by_cases hn : n = m
      · subst hn
        exact ⟨_, word, .visit, hword, List.infix_rfl⟩
      · rcases stages_traverse tree m with ⟨hnone, -⟩ | ⟨fault, hreject⟩ | ⟨y, hy, htraverse⟩
        · exact (hn ((Tree.reaches_missing_iff hnone).1 hreach)).elim
        · have hown : Stage.own (.reject fault) ∈ stages tree m := by simp [hreject]
          have hword' := (hword _ hown).own_eq (hlegal.of_mem_flatMap hown)
          exact (hlegal.of_mem_flatMap hown fault (by simp [hword'])).elim
        · exact htraverse.holdsWalk hy hreach hn fun stage hstage c hc hcn =>
            ih stage hstage (hlegal.of_mem_flatMap hstage) hc hcn
  | query owner correlated m word hword ih =>
      obtain rfl := Option.some.inj htop
      have ih' : ∀ stage ∈ queryStages tree correlated m, ∀ c, stage.child? = some c →
          tree.Reaches c n → HoldsWalk tree n (word stage) := fun stage hstage c hc hcn =>
        ih stage hstage (hlegal.of_mem_flatMap hstage) hc hcn
      by_cases hvisit : queryStages tree correlated m = [.visit m]
      · rw [hvisit] at ih' ⊢
        exact (ih' (.visit m) (List.mem_singleton_self _) m rfl hreach).mono
          (infix_flatMap (List.mem_singleton_self _) word)
      · by_cases hn : n = m
        · subst hn
          exact ⟨_, word, .query hvisit, hword, List.infix_rfl⟩
        · obtain ⟨y, hy, htraverse⟩ := (queryStages_traverse tree correlated m).resolve_left hvisit
          exact htraverse.holdsWalk hy hreach hn ih'
  | @orderByAlias owner columns item reference column descending name hitem hreference _ _ =>
      obtain rfl := Option.some.inj htop
      rcases (Tree.reaches_iff_of_get? hitem).1 hreach with rfl | ⟨c, hc, hcn⟩
      · cases hx.symm.trans hitem
        cases hwhole
      · obtain rfl : c = reference := by simpa [Node.children] using hc
        exact (not_reaches_leaf hreference rfl rfl hx hwhole hcn).elim
  | order columns _ ih => exact ih hlegal htop hreach
  | @assign owner m column initializer identifier l hset hcolumn hvisit ih =>
      obtain rfl := Option.some.inj htop
      have hlegal' : Legal l := fun fault hfault => hlegal fault (List.mem_cons_of_mem _ hfault)
      rcases (Tree.reaches_iff_of_get? hset).1 hreach with rfl | ⟨c, hc, hcn⟩
      · cases hx.symm.trans hset
        cases hwhole
      · have hchildren : c = column ∨ c = initializer := by simpa [Node.children] using hc
        rcases hchildren with rfl | rfl
        · exact (not_reaches_leaf hcolumn rfl rfl hx hwhole hcn).elim
        · exact (ih hlegal' rfl hcn).mono (List.suffix_cons _ _).isInfix
  | store owner hclause =>
      obtain rfl := Option.some.inj htop
      exact (not_reaches_leaf hclause rfl rfl hx hwhole hreach).elim
  | declareType owner name initializer htype =>
      obtain rfl := Option.some.inj htop
      exact (not_reaches_leaf htype rfl rfl hx hwhole hreach).elim
  | reject owner stage fault => exact (hlegal fault (List.mem_singleton_self _)).elim

/-- **Walks hold walks.**  The steps of a stage that does not refuse the tree hold the walk over
each node below the slot that the stage is for, if the node has the same stages wherever it
stands. -/
theorem Spells.holds {owner top : NodeId} {stage : Stage} {l : List Step}
    (h : Spells tree owner stage l) (hlegal : Legal l) (htop : stage.child? = some top)
    (hreach : tree.Reaches top n) (hx : tree.get? n = some x) (hkeeps : x.kind.keepsStages) :
    Holds tree n x l := by
  obtain ⟨list, word, hlist, hword, hinfix⟩ :=
    h.holdsWalk hlegal htop hreach hx (Bool.and_eq_true_iff.1 hkeeps).1
  cases hlist with
  | visit =>
      have hstages : stages tree n = nodeStages n x := by simp [stages, hx]
      rw [hstages] at hword hinfix
      exact ⟨word, hword, hinfix⟩
  | query hquery => exact (hquery (queryStages_of_keepsStages hx hkeeps _)).elim

/-- The stages of a block, wherever it stands. -/
theorem StagesOf.eq_block {list : List Stage} {b : SelectExpression} (h : StagesOf tree n list)
    (hx : tree.get? n = some (.selectExpression b)) :
    ∃ correlated, list = block n b correlated := by
  cases h with
  | visit => exact ⟨true, by simp [stages, hx, nodeStages]⟩
  | @query correlated _ => exact ⟨correlated, by simp [queryStages, hx]⟩

/-- **Blocks are visited as a whole.**  The steps of a stage that does not refuse the tree hold
the walk over each query block below the slot that the stage is for. -/
theorem Spells.holds_block {owner top : NodeId} {stage : Stage} {l : List Step}
    {b : SelectExpression} (h : Spells tree owner stage l) (hlegal : Legal l)
    (htop : stage.child? = some top) (hreach : tree.Reaches top n)
    (hx : tree.get? n = some (.selectExpression b)) :
    ∃ (correlated : Bool) (word : Stage → List Step),
      (∀ stage ∈ block n b correlated, Spells tree n stage (word stage)) ∧
        (block n b correlated).flatMap word <:+: l := by
  obtain ⟨list, word, hlist, hword, hinfix⟩ := h.holdsWalk hlegal htop hreach hx rfl
  obtain ⟨correlated, rfl⟩ := hlist.eq_block hx
  exact ⟨correlated, word, hword, hinfix⟩

end Walk

end UnionScript
