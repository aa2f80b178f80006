import UnionScript.Proofs.Walk.Tidy

/-!
# Steps are taken in the scope around their nodes

A step about a node is taken in the scope of the nearest node above that opens one.  This is
proved along the spelling of a walk.  The stages of a node that opens a scope are taken between
entering and leaving it, all others in the scope that is current; and after each stage the scope
before it is current again (`Walk.Spells.balanced`).

* `Tree.TreeShaped.encloses_unique` — a node stands in one scope;
* `ScopeTree.Around` — the current scope is the one around a node;
* `Walk.Spells.keeps_inPlace` — along a walk, every step is taken in the scope around its node.
-/

namespace UnionScript

/-- **One scope around.**  In a tree-shaped tree there is no second nearest node above a node
that opens a scope. -/
theorem Tree.TreeShaped.encloses_unique {t : Tree} (hshape : t.TreeShaped) {a b n : NodeId}
    (ha : t.Encloses a n) (hb : t.Encloses b n) : a = b := by
  induction ha generalizing b with
  | @child x c hx hopens hc =>
      cases hb with
      | @child y _ hy _ hc' => exact hshape.parent_unique ⟨x, hx, hc⟩ ⟨y, hy, hc'⟩
      | @through m _ y _ hy hcloses hc' =>
          obtain rfl : a = m := hshape.parent_unique ⟨x, hx, hc⟩ ⟨y, hy, hc'⟩
          cases hx.symm.trans hy
          rw [hopens] at hcloses
          cases hcloses
  | @through m c x hm hx hcloses hc ih =>
      cases hb with
      | @child y _ hy hopens hc' =>
          obtain rfl : m = b := hshape.parent_unique ⟨x, hx, hc⟩ ⟨y, hy, hc'⟩
          cases hx.symm.trans hy
          rw [hopens] at hcloses
          cases hcloses
      | @through m' _ y hm' hy _ hc' =>
          obtain rfl : m = m' := hshape.parent_unique ⟨x, hx, hc⟩ ⟨y, hy, hc'⟩
          exact ih hm'

namespace ScopeTree

variable {tree : Tree} {t t' : ScopeTree} {n c : NodeId} {x : Node}

/-- The current scope, if there is one, is that of the nearest node above a node that opens
one. -/
def Around (tree : Tree) (t : ScopeTree) (n : NodeId) : Prop :=
  ∀ id, t.current = some id → ∃ f, t.frames[id]? = some f ∧ tree.Encloses f.owner n

theorem Around.through (h : t.Around tree n) (hx : tree.get? n = some x)
    (hcloses : x.kind.opensScope = false) (hc : c ∈ x.children) : t.Around tree c := by
  intro id hid
  obtain ⟨f, hf, hencloses⟩ := h id hid
  exact ⟨f, hf, .through hencloses hx hcloses hc⟩

theorem Around.of_returns (h : t.Around tree n) (hreturns : t.Returns t') :
    t'.Around tree n := by
  intro id hid
  obtain ⟨f, hf, hencloses⟩ := h id (hreturns.current ▸ hid)
  exact ⟨f, frame_persists hreturns.frames hf, hencloses⟩

/-- An entered scope is around the children of its owner. -/
theorem around_of_enter {kind : NodeKind} {correlated : Bool}
    (hentered : t.enter n kind correlated = .ok t') (hx : tree.get? n = some x)
    (hopens : x.kind.opensScope) (hc : c ∈ x.children) : t'.Around tree c := by
  intro id hid
  have hframe := (frames_of_enter hentered).2
  rw [currentFrame?, hid, Option.bind_some] at hframe
  exact ⟨_, hframe, .child hx hopens hc⟩

end ScopeTree

/-- The current scope is that around the node that a step is about. -/
def Step.InPlace (tree : Tree) (step : Step) (t : ScopeTree) : Prop :=
  ∀ n, step.subject? = some n → t.Around tree n

/-- The current scope is that around the node that a stage is about. -/
def Stage.InPlace (tree : Tree) (stage : Stage) (t : ScopeTree) : Prop :=
  ∀ n, stage.subject? = some n → t.Around tree n

theorem Stage.InPlace.of_returns {tree : Tree} {stage : Stage} {t t' : ScopeTree}
    (h : stage.InPlace tree t) (hreturns : t.Returns t') : stage.InPlace tree t' :=
  fun n hn => (h n hn).of_returns hreturns

namespace Walk

variable {tree : Tree} {s : Surroundings} {p q : Progress} {l : List Step} {n owner : NodeId}
  {x : Node} {stage : Stage} {body list : List Stage} {word : Stage → List Step}
  {kind : NodeKind} {correlated : Bool}

/-- The stages between entering and leaving a scope that are quiet are balanced with it. -/
theorem inScope_balanced
    (hword : ∀ stage ∈ inScope n kind correlated body, Spells tree n stage (word stage))
    (hlegal : Legal ((inScope n kind correlated body).flatMap word))
    (ih : ∀ stage ∈ body, Balanced (word stage)) :
    Balanced ((inScope n kind correlated body).flatMap word) := by
  rw [inScope_eq hword hlegal]
  exact .scope n kind correlated (.flatMap ih)

/-- **Stages are balanced.**  A stage that neither enters nor leaves a scope by itself and does
not refuse the tree leaves exactly the scopes that it enters. -/
theorem Spells.balanced (h : Spells tree owner stage l) (hlegal : Legal l)
    (hquiet : stage.isQuiet) : Balanced l := by
  induction h with
  | own owner step => exact .step hquiet
  | visit owner n word hword ih =>
      have ih' := fun stage hstage => ih stage hstage (hlegal.of_mem_flatMap hstage)
      cases hx : tree.get? n with
      | none => simpa [stages, hx] using Balanced.nil
      | some x =>
          simp only [stages, hx] at hword hlegal ih' ⊢
          rcases nodeStages_quiet n x with ⟨-, body, hbody, hquiet⟩ | ⟨-, hquiet⟩
          · rw [hbody] at hword hlegal ih' ⊢
            exact inScope_balanced hword hlegal fun stage hstage =>
              ih' stage (by simp [inScope, hstage]) (hquiet stage hstage)
          · exact .flatMap fun stage hstage => ih' stage hstage (hquiet stage hstage)
  | query owner correlated n word hword ih =>
      have ih' := fun stage hstage => ih stage hstage (hlegal.of_mem_flatMap hstage)
      rcases queryStages_cases tree correlated n with ⟨b, hblock⟩ | hplain
      · rw [hblock, block] at hword hlegal ih' ⊢
        exact inScope_balanced hword hlegal fun stage hstage =>
          ih' stage (by simp [inScope, hstage]) (blockBody_quiet b stage hstage)
      · exact .flatMap fun stage hstage => ih' stage hstage (hplain stage hstage).1
  | orderByAlias | store | declareType | reject => exact .step rfl
  | order columns _ ih => exact ih hlegal rfl
  | @assign owner n column initializer identifier l hset hcolumn hvisit ih =>
      have hlegal' : Legal l := fun fault hfault => hlegal fault (List.mem_cons_of_mem _ hfault)
      have hset' : Balanced [.setColumn column identifier] := .step rfl
      exact .append hset' (ih hlegal' rfl)

/-- What stands in the place of a query is visited.  Only a block, a union or a group is gone
through there: a block in a scope of its own, the others by quiet stages. -/
theorem queryStages_quiet (tree : Tree) (correlated : Bool) (n : NodeId) :
    queryStages tree correlated n = [.visit n] ∨
      ∃ x, tree.get? n = some x ∧ Traverse n x (queryStages tree correlated n) ∧
        ((x.kind.opensScope ∧ ∃ body, queryStages tree correlated n =
            inScope n x.kind correlated body ∧ ∀ stage ∈ body, stage.isQuiet) ∨
          (x.kind.opensScope = false ∧
            ∀ stage ∈ queryStages tree correlated n, stage.isQuiet)) := by
  by_cases hvisit : queryStages tree correlated n = [.visit n]
  · exact Or.inl hvisit
  · obtain ⟨x, hx, htraverse⟩ := (queryStages_traverse tree correlated n).resolve_left hvisit
    refine Or.inr ⟨x, hx, htraverse, ?_⟩
    unfold queryStages at hvisit ⊢
    rw [hx] at hvisit ⊢
    cases x
    case selectExpression b => exact Or.inl ⟨rfl, _, rfl, blockBody_quiet b⟩
    case tableUnion | group => exact Or.inr ⟨rfl, by simp [Stage.isQuiet]⟩
    all_goals exact (hvisit rfl).elim

/-- Nothing comes after the refusal of a tree. -/
theorem keeps_reject (fault : StructureFault) (rest : List Step) (p : Progress) :
    Keeps s (Step.InPlace s.tree) (.reject fault :: rest) p :=
  ⟨nofun, nofun⟩

section

variable (hword : ∀ stage ∈ list, Spells s.tree n stage (word stage))

include hword

/-- Stages in one scope are in place one after the other. -/
theorem keeps_flatMap (hquiet : ∀ stage ∈ list, stage.isQuiet)
    (ih : ∀ stage ∈ list, ∀ p : Progress, stage.InPlace s.tree p.scopes →
      Keeps s (Step.InPlace s.tree) (word stage) p)
    (hp : ∀ stage ∈ list, stage.InPlace s.tree p.scopes) :
    Keeps s (Step.InPlace s.tree) (list.flatMap word) p := by
  induction list generalizing p with
  | nil => trivial
  | cons stage rest ihrest =>
      rw [List.forall_mem_cons] at hword hquiet ih hp
      rw [List.flatMap_cons]
      refine (ih.1 p hp.1).append fun q hq => ?_
      have hreturns := (hword.1.balanced (legal_of_run hq) hquiet.1).returns hq
      exact ihrest hword.2 hquiet.2 ih.2 fun stage hstage => (hp.2 stage hstage).of_returns hreturns

/-- Stages that go through a node that opens no scope are in place if the node is. -/
theorem Traverse.keeps (h : Traverse n x list) (hx : s.tree.get? n = some x)
    (hcloses : x.kind.opensScope = false) (hquiet : ∀ stage ∈ list, stage.isQuiet)
    (ih : ∀ stage ∈ list, ∀ p : Progress, stage.InPlace s.tree p.scopes →
      Keeps s (Step.InPlace s.tree) (word stage) p)
    (hp : p.scopes.Around s.tree n) : Keeps s (Step.InPlace s.tree) (list.flatMap word) p := by
  refine keeps_flatMap hword hquiet ih fun stage hstage m hm => ?_
  rcases Option.or_eq_some_iff.1 hm with hown | ⟨-, hchild⟩
  · have hmem : m ∈ ownSubjects list := List.mem_filterMap.2 ⟨stage, hstage, hown⟩
    rw [h.own] at hmem
    split at hmem
    · obtain rfl := List.mem_singleton.1 hmem
      exact hp
    · cases hmem
  · have hmem : m ∈ slots list := List.mem_filterMap.2 ⟨stage, hstage, hchild⟩
    exact hp.through hx hcloses (h.slots_perm.mem_iff.1 hmem)

end

/-- Stages that go through a node that opens a scope are in place: the first one in the scope
around the node, and the others in the scope of the node. -/
theorem Traverse.keeps_inScope (h : Traverse n x (inScope n kind correlated body))
    (hx : s.tree.get? n = some x) (hopens : x.kind.opensScope)
    (hword : ∀ stage ∈ inScope n kind correlated body, Spells s.tree n stage (word stage))
    (hquiet : ∀ stage ∈ body, stage.isQuiet)
    (ih : ∀ stage ∈ body, ∀ p : Progress, stage.InPlace s.tree p.scopes →
      Keeps s (Step.InPlace s.tree) (word stage) p)
    (hp : p.scopes.Around s.tree n) :
    Keeps s (Step.InPlace s.tree) ((inScope n kind correlated body).flatMap word) p := by
  have hsplit : (inScope n kind correlated body).flatMap word =
      word (.own (.enter n kind correlated)) ++ (body.flatMap word ++ word (.own .leave)) := by
    simp [inScope]
  -- The node is its own subject only once, so all stages of the body are for slots.
  have hbody : ownSubjects body = [] := by
    have hown := h.own
    split at hown <;> simp_all [inScope, Stage.ownSubject?, Step.subject?]
  have hchild : ∀ stage ∈ body, ∀ m, stage.subject? = some m → m ∈ x.children := by
    intro stage hstage m hm
    rcases Option.or_eq_some_iff.1 hm with hown | ⟨-, hchild⟩
    · have hmem : m ∈ ownSubjects body := List.mem_filterMap.2 ⟨stage, hstage, hown⟩
      rw [hbody] at hmem
      cases hmem
    · refine h.slots_perm.mem_iff.1 (List.mem_filterMap.2 ⟨stage, ?_, hchild⟩)
      simp [inScope, hstage]
  rw [hsplit]
  rcases (hword (.own (.enter n kind correlated)) (by simp [inScope])).own_cases with
    henter | ⟨fault, henter⟩
  · rw [henter]
    refine ⟨fun m hm => ?_, fun q hq => ?_⟩
    · obtain rfl := Option.some.inj hm
      exact hp
    · simp only [Step.perform] at hq
      obtain ⟨entered, hentered, rfl⟩ := Step.changeScopes_eq_finished hq
      refine (keeps_flatMap (fun stage hstage => hword stage (by simp [inScope, hstage])) hquiet ih
        fun stage hstage m hm => ?_).append fun q' _ => ?_
      · exact ScopeTree.around_of_enter hentered hx hopens (hchild stage hstage m hm)
      · rcases (hword (.own .leave) (by simp [inScope])).own_cases with hleave | ⟨fault, hleave⟩
        · rw [hleave]
          refine ⟨fun m hm => ?_, fun _ _ => trivial⟩
          cases hm
        · rw [hleave]
          exact keeps_reject fault [] q'
  · rw [henter]
    exact keeps_reject fault _ p

/-- **Steps are in place.**  If a stage is taken in the scope around its node, each of its steps
is taken in the scope around the node that the step is about. -/
theorem Spells.keeps_inPlace (h : Spells s.tree owner stage l) (hquiet : stage.isQuiet)
    (hp : stage.InPlace s.tree p.scopes) : Keeps s (Step.InPlace s.tree) l p := by
  induction h generalizing p with
  | own owner step =>
      exact ⟨fun m hm => hp m ((Stage.subject?_own step).trans hm), fun _ _ => trivial⟩
  | visit owner n word hword ih =>
      rcases stages_traverse s.tree n with ⟨-, hnone⟩ | ⟨fault, hreject⟩ | ⟨x, hx, htraverse⟩
      · rw [hnone]
        trivial
      · have hown := hword (.own (.reject fault)) (by simp [hreject])
        rw [hreject, List.flatMap_singleton]
        rcases hown.own_cases with heq | ⟨fault', heq⟩
        · rw [heq]
          exact keeps_reject fault [] p
        · rw [heq]
          exact keeps_reject fault' [] p
      · have hstages : stages s.tree n = nodeStages n x := by simp [stages, hx]
        have hn := hp n rfl
        rw [hstages] at htraverse hword ih ⊢
        rcases nodeStages_quiet n x with ⟨hopens, body, hbody, hquiet⟩ | ⟨hcloses, hquiet⟩
        · rw [hbody] at htraverse hword ih ⊢
          exact htraverse.keeps_inScope hx hopens hword hquiet (fun stage hstage p =>
            ih stage (by simp [inScope, hstage]) (hquiet stage hstage)) hn
        · exact htraverse.keeps hword hx hcloses hquiet
            (fun stage hstage p => ih stage hstage (hquiet stage hstage)) hn
  | query owner correlated n word hword ih =>
      have hn := hp n rfl
      rcases queryStages_quiet s.tree correlated n with hvisit | ⟨x, hx, htraverse, hscope⟩
      · rw [hvisit] at ih ⊢
        simpa using ih (.visit n) (List.mem_singleton_self _) rfl hp
      · rcases hscope with ⟨hopens, body, hbody, hquiet⟩ | ⟨hcloses, hquiet⟩
        · rw [hbody] at htraverse hword ih ⊢
          exact htraverse.keeps_inScope hx hopens hword hquiet (fun stage hstage p =>
            ih stage (by simp [inScope, hstage]) (hquiet stage hstage)) hn
        · exact htraverse.keeps hword hx hcloses hquiet
            (fun stage hstage p => ih stage hstage (hquiet stage hstage)) hn
  | @orderByAlias owner columns item reference column descending name hitem hreference _ _ =>
      refine ⟨fun m hm => ?_, fun _ _ => trivial⟩
      obtain rfl := Option.some.inj hm
      exact (hp item rfl).through hitem rfl (by simp [Node.children])
  | order columns _ ih => exact ih rfl hp
  | @assign owner n column initializer identifier l hset hcolumn hvisit ih =>
      have hn := hp n rfl
      refine ⟨fun m hm => ?_, fun q hq => ih rfl fun m hm => ?_⟩
      · obtain rfl := Option.some.inj hm
        exact hn.through hset rfl (by simp [Node.children])
      · obtain rfl := Option.some.inj hm
        exact (hn.through hset rfl (by simp [Node.children])).of_returns (returns_of_quiet rfl hq)
  | store owner hclause => exact ⟨fun m hm => hp m hm, fun _ _ => trivial⟩
  | declareType owner name initializer htype => exact ⟨fun m hm => hp m hm, fun _ _ => trivial⟩
  | reject owner stage fault => exact keeps_reject fault [] p

end Walk

end UnionScript
