import UnionScript.Proofs.Lists
import UnionScript.Proofs.Walk.Coverage

/-!
# Where stages stand

Which scope a stage is taken in, and whether the query blocks at it are
correlated, depends on where its node stands in the tree.

* `Tree.Encloses` — the scope around a node is that of the nearest node above it
  that opens one;
* `Tree.Standalone` — a query is not correlated if a node holds it as a query of
  its own, directly or through groups and unions;
* `Walk.Layout` — the stages of the walk over a node stand in the scope that the
  node opens, or in the scope around it if it opens none;
* `Walk.stages_layout`, `Walk.queryStages_layout` — in a tree-shaped tree every
  walk is laid out this way, and hands the right correlation on.
-/

namespace UnionScript

/-- The slots that hold a query which does not see the tables around it. -/
def Node.querySlots : Node → List NodeId
  | .select _ query | .consume query | .commonTable _ query | .tableExpression query _ => [query]
  | .insert s => [s.source]
  | .declare _ _ initializer => initializer.toList
  | _ => []

/-- The nodes of these kinds stand in the place of the queries in them. -/
def NodeKind.isQueryLink (k : NodeKind) : Bool :=
  k == .group || k == .tableUnion

namespace Tree

/-- The nearest node above a node that opens a scope. -/
inductive Encloses (t : Tree) (outer : NodeId) : NodeId → Prop
  | child {x : Node} {c : NodeId} (hx : t.get? outer = some x) (hopens : x.kind.opensScope)
      (hc : c ∈ x.children) : Encloses t outer c
  | through {m c : NodeId} {x : Node} (hm : Encloses t outer m) (hx : t.get? m = some x)
      (hcloses : x.kind.opensScope = false) (hc : c ∈ x.children) : Encloses t outer c

/-- The nearest node above a node that is neither a group nor a union holds it
as a query that does not see the tables around it. -/
inductive Standalone (t : Tree) : NodeId → Prop
  | slot {m c : NodeId} {x : Node} (hx : t.get? m = some x) (hc : c ∈ x.querySlots) :
      Standalone t c
  | through {m c : NodeId} {x : Node} (hm : Standalone t m) (hx : t.get? m = some x)
      (hlink : x.kind.isQueryLink) (hc : c ∈ x.children) : Standalone t c

variable {t : Tree}

theorem mem_children_of_mem_querySlots {x : Node} {c : NodeId} (h : c ∈ x.querySlots) :
    c ∈ x.children := by
  cases x <;> simp_all [Node.querySlots, Node.children]

/-- Groups and unions hold no queries as their own. -/
theorem querySlots_of_isQueryLink {x : Node} (h : x.kind.isQueryLink) : x.querySlots = [] := by
  cases x <;> simp_all [Node.kind, NodeKind.isQueryLink, Node.querySlots]

/-- What stands below a group or union of a tree-shaped tree is standalone
exactly if the group or union is. -/
theorem TreeShaped.standalone_link_iff (hshape : t.TreeShaped) {n c : NodeId} {x : Node}
    (hx : t.get? n = some x) (hc : c ∈ x.children) (hlink : x.kind.isQueryLink) :
    t.Standalone c ↔ t.Standalone n := by
  refine ⟨fun h => ?_, fun h => .through h hx hlink hc⟩
  cases h with
  | @slot m _ y hy hslot =>
      obtain rfl : m = n :=
        hshape.parent_unique ⟨y, hy, mem_children_of_mem_querySlots hslot⟩ ⟨x, hx, hc⟩
      obtain rfl : x = y := Option.some.inj (hx.symm.trans hy)
      simp [querySlots_of_isQueryLink hlink] at hslot
  | @through m _ y hm hy _ hcy =>
      obtain rfl : m = n := hshape.parent_unique ⟨y, hy, hcy⟩ ⟨x, hx, hc⟩
      exact hm

/-- What stands below any other node of a tree-shaped tree is standalone exactly
if it stands in one of the slots for such queries. -/
theorem TreeShaped.standalone_slot_iff (hshape : t.TreeShaped) {n c : NodeId} {x : Node}
    (hx : t.get? n = some x) (hc : c ∈ x.children) (hlink : x.kind.isQueryLink = false) :
    t.Standalone c ↔ c ∈ x.querySlots := by
  refine ⟨fun h => ?_, fun h => .slot hx h⟩
  cases h with
  | @slot m _ y hy hslot =>
      obtain rfl : m = n :=
        hshape.parent_unique ⟨y, hy, mem_children_of_mem_querySlots hslot⟩ ⟨x, hx, hc⟩
      obtain rfl : x = y := Option.some.inj (hx.symm.trans hy)
      exact hslot
  | @through m _ y _ hy hlink' hcy =>
      obtain rfl : m = n := hshape.parent_unique ⟨y, hy, hcy⟩ ⟨x, hx, hc⟩
      obtain rfl : x = y := Option.some.inj (hx.symm.trans hy)
      simp [hlink] at hlink'

end Tree

namespace Stage

/-- The stage neither enters nor leaves a scope by itself. -/
def isQuiet : Stage → Bool
  | .own (.enter _ _ _) | .own .leave => false
  | _ => true

/-- The node that a stage takes for a standalone query. -/
def standalone? : Stage → Option NodeId
  | .query false n => some n
  | _ => none

/-- A stage has the right idea of the correlation of its queries.  Only blocks,
groups and unions make a difference to it. -/
def Places (tree : Tree) : Stage → Prop
  | .visit n | .order _ n =>
    ∀ x, tree.get? n = some x → (x.kind.isQueryLink ∨ x.kind = .selectExpression) →
      ¬ tree.Standalone n
  | .query correlated n => correlated = false ↔ tree.Standalone n
  | _ => True

end Stage

namespace Walk

/-- Stages for the slots of a node that are taken in one scope. -/
structure Body (tree : Tree) (n : NodeId) (stages : List Stage) : Prop where
  quiet : ∀ stage ∈ stages, stage.isQuiet
  places : ∀ stage ∈ stages, stage.Places tree
  holds : ∀ stage ∈ stages, ∀ c, stage.child? = some c → tree.Holds n c

/-- The stages of a node are taken in the scope that it opens, or in the scope
around it if it opens none. -/
inductive Layout (tree : Tree) (n : NodeId) (x : Node) : List Stage → Prop
  | ownScope {correlated : Bool} {body : List Stage} (hopens : x.kind.opensScope)
      (hcorrelated : x.kind = .selectExpression → (correlated = false ↔ tree.Standalone n))
      (hbody : Body tree n body) : Layout tree n x (inScope n x.kind correlated body)
  | outerScope {body : List Stage} (hcloses : x.kind.opensScope = false)
      (hbody : Body tree n body) : Layout tree n x body

variable {tree : Tree} {n : NodeId} {x : Node}

theorem standalone?_eq_some {stage : Stage} {c : NodeId} (h : stage.standalone? = some c) :
    stage = .query false c := by
  cases stage with
  | query correlated m =>
      cases correlated
      · exact congrArg _ (Option.some.inj h)
      · cases h
  | _ => cases h

/-- **Standalone queries.**  The stages of a node take exactly the nodes in its
slots for such queries for standalone. -/
theorem nodeStages_standalone (n : NodeId) (x : Node) :
    (nodeStages n x).filterMap Stage.standalone? = x.querySlots := by
  cases x <;>
    simp only [nodeStages, block, blockBody, inScope, assignments, visitAll, visitOption,
      List.filterMap_append, List.filterMap_cons, List.filterMap_nil, List.filterMap_map,
      Function.comp_def, Stage.standalone?, List.filterMap_none, List.filterMap_some,
      List.append_nil, List.nil_append, Node.querySlots]

/-- A child that is not taken for a standalone query is none. -/
theorem not_standalone_of_mem_nodeStages (hshape : tree.TreeShaped)
    (hx : tree.get? n = some x) (hlink : x.kind.isQueryLink → ¬ tree.Standalone n)
    {stage : Stage} (hstage : stage ∈ nodeStages n x) {c : NodeId}
    (hc : stage.child? = some c) (hne : stage.standalone? = none) : ¬ tree.Standalone c := by
  rcases nodeStages_traverse n x with ⟨fault, h⟩ | h
  · rw [h, List.mem_singleton] at hstage
    subst hstage
    cases hc
  · have hmem : c ∈ x.children :=
      h.slots_perm.mem_iff.1 (List.mem_filterMap.2 ⟨stage, hstage, hc⟩)
    cases hkind : x.kind.isQueryLink with
    | true => exact fun hstand => hlink hkind ((hshape.standalone_link_iff hx hmem hkind).1 hstand)
    | false =>
        intro hstand
        have hslot := (hshape.standalone_slot_iff hx hmem hkind).1 hstand
        rw [← nodeStages_standalone n x] at hslot
        -- Some stage takes the child for standalone, and no slot has two stages.
        obtain ⟨other, hother, hsome⟩ := List.mem_filterMap.1 hslot
        have hchild : other.child? = some c := by
          rw [standalone?_eq_some hsome]
          rfl
        have hnodup : (slots (nodeStages n x)).Nodup :=
          h.slots_perm.nodup_iff.2 (hshape.children_nodup hx)
        obtain rfl := eq_of_nodup_filterMap hnodup hstage hother hc hchild
        simp [hne] at hsome

/-- The stages of a node have the right idea of the correlation of its queries
if groups and unions among them are not standalone. -/
theorem nodeStages_places (hshape : tree.TreeShaped) (hx : tree.get? n = some x)
    (hlink : x.kind.isQueryLink → ¬ tree.Standalone n) :
    ∀ stage ∈ nodeStages n x, stage.Places tree := by
  intro stage hstage
  cases stage with
  | own | assign | store | declareType => trivial
  | visit c | order _ c =>
      exact fun _ _ _ => not_standalone_of_mem_nodeStages hshape hx hlink hstage rfl rfl
  | query correlated c =>
      cases correlated with
      | true =>
          have hnot := not_standalone_of_mem_nodeStages hshape hx hlink hstage rfl rfl
          exact ⟨fun h => (by cases h), fun h => (hnot h).elim⟩
      | false =>
          have hslot : c ∈ (nodeStages n x).filterMap Stage.standalone? :=
            List.mem_filterMap.2 ⟨_, hstage, rfl⟩
          rw [nodeStages_standalone] at hslot
          exact ⟨fun _ => .slot hx hslot, fun _ => rfl⟩

/-- The stages of a node that hold a child stand for its slots. -/
theorem nodeStages_holds (hx : tree.get? n = some x) :
    ∀ stage ∈ nodeStages n x, ∀ c, stage.child? = some c → tree.Holds n c := by
  intro stage hstage c hc
  rcases nodeStages_traverse n x with ⟨fault, h⟩ | h
  · rw [h, List.mem_singleton] at hstage
    subst hstage
    cases hc
  · exact ⟨x, hx, h.slots_perm.mem_iff.1 (List.mem_filterMap.2 ⟨stage, hstage, hc⟩)⟩

/-- Nothing in a query block enters or leaves a scope but the block itself. -/
theorem blockBody_quiet (b : SelectExpression) : ∀ stage ∈ blockBody b, stage.isQuiet := by
  simp only [blockBody, visitAll, visitOption, List.forall_mem_append, List.forall_mem_map]
  simp [Stage.isQuiet]

/-- A node that opens a scope has its stages in it, and the stages of any other
node are quiet. -/
theorem nodeStages_quiet (n : NodeId) (x : Node) :
    (x.kind.opensScope ∧ ∃ body,
      nodeStages n x = inScope n x.kind (x.kind == .selectExpression) body ∧
        ∀ stage ∈ body, stage.isQuiet) ∨
    (x.kind.opensScope = false ∧ ∀ stage ∈ nodeStages n x, stage.isQuiet) := by
  cases x
  case selectExpression b => exact Or.inl ⟨rfl, _, rfl, blockBody_quiet b⟩
  case script | select | insert | update | delete | upsert | consume =>
    refine Or.inl ⟨rfl, _, rfl, ?_⟩
    simp only [assignments, visitAll, visitOption, List.forall_mem_append,
      List.forall_mem_cons, List.forall_mem_map, List.not_mem_nil]
    simp [Stage.isQuiet]
  all_goals
    refine Or.inr ⟨rfl, ?_⟩
    simp only [nodeStages, visitAll, visitOption, List.forall_mem_append,
      List.forall_mem_cons, List.forall_mem_map, List.not_mem_nil]
    simp [Stage.isQuiet]

/-- Quiet stages out of those of a node are taken in one scope. -/
theorem body_of_subset (hshape : tree.TreeShaped) (hx : tree.get? n = some x)
    (hlink : x.kind.isQueryLink → ¬ tree.Standalone n) {body : List Stage}
    (hbody : body ⊆ nodeStages n x) (hquiet : ∀ stage ∈ body, stage.isQuiet) :
    Body tree n body where
  quiet := hquiet
  places stage hstage := nodeStages_places hshape hx hlink stage (hbody hstage)
  holds stage hstage := nodeStages_holds hx stage (hbody hstage)

/-- **Layout of walks.**  The stages of a node are taken in the scope that it
opens or in the scope around it. -/
theorem stages_layout (hshape : tree.TreeShaped) (hx : tree.get? n = some x)
    (hplaces : (Stage.visit n).Places tree) : Layout tree n x (stages tree n) := by
  have hlink : x.kind.isQueryLink → ¬ tree.Standalone n := fun h => hplaces x hx (Or.inl h)
  have hstages : stages tree n = nodeStages n x := by simp [stages, hx]
  rw [hstages]
  rcases nodeStages_quiet n x with ⟨hopens, body, hbody, hquiet⟩ | ⟨hcloses, hquiet⟩
  · have hsubset : body ⊆ nodeStages n x := by
      rw [hbody]
      intro stage hstage
      simp [inScope, hstage]
    rw [hbody]
    refine .ownScope hopens (fun hblock => ?_) (body_of_subset hshape hx hlink hsubset hquiet)
    simp [hblock, hplaces x hx (Or.inr hblock)]
  · exact .outerScope hcloses (body_of_subset hshape hx hlink (List.Subset.refl _) hquiet)

/-- The stages of a group or union hand the correlation on. -/
theorem link_body (hshape : tree.TreeShaped) (hx : tree.get? n = some x)
    (hlink : x.kind.isQueryLink) {correlated : Bool}
    (hplaces : (Stage.query correlated n).Places tree) :
    Body tree n (x.children.map (.query correlated)) := by
  refine ⟨?_, ?_, ?_⟩ <;> simp only [List.forall_mem_map]
  · exact fun _ _ => rfl
  · exact fun c hc => Iff.trans hplaces (hshape.standalone_link_iff hx hc hlink).symm
  · rintro c hc _ ⟨⟩
    exact ⟨x, hx, hc⟩

/-- **Layout of queries.**  In the place of a query, groups and unions hand the
correlation on to the blocks in them, and other nodes are visited. -/
theorem queryStages_layout (hshape : tree.TreeShaped) {correlated : Bool}
    (hplaces : (Stage.query correlated n).Places tree) :
    (queryStages tree correlated n = [.visit n] ∧ (Stage.visit n).Places tree) ∨
      ∃ x, tree.get? n = some x ∧ Layout tree n x (queryStages tree correlated n) := by
  unfold queryStages
  split
  · rename_i b hx
    refine Or.inr ⟨_, hx, .ownScope rfl (fun _ => hplaces) ?_⟩
    refine body_of_subset hshape hx (fun h => (by cases h)) ?_ (blockBody_quiet b)
    intro stage hstage
    simp [nodeStages, block, inScope, hstage]
  · rename_i hx
    exact Or.inr ⟨_, hx, .outerScope rfl (link_body hshape hx rfl hplaces)⟩
  · rename_i hx
    exact Or.inr ⟨_, hx, .outerScope rfl (link_body hshape hx rfl hplaces)⟩
  · rename_i hblock hunion hgroup
    refine Or.inl ⟨rfl, fun x hx hkind => ?_⟩
    cases x <;> simp_all [Node.kind, NodeKind.isQueryLink]

end Walk

end UnionScript
