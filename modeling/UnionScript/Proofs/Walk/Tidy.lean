import UnionScript.Proofs.Walk.Balance

/-!
# Rows are stored last

A query block stores its rows when everything else in it was visited: right
before its scope is left.  Only an output clause may store rows elsewhere.  So
the walk over what has no outputs is *tidy* (`Walk.Spells.tidy`), and a table
that is stored in the scope of a block is not seen by anything in the block.
-/

namespace UnionScript

/-- The stage stores rows by itself. -/
def Stage.stores : Stage → Bool
  | .store _ | .own (.storeInto _ _ _) => true
  | _ => false

namespace Walk

/-- Balanced lists of steps that store rows only right before a scope is left. -/
inductive Tidy : List Step → Prop
  | nil : Tidy []
  | step {step : Step} (hquiet : (Stage.own step).isQuiet)
      (hstores : ∀ n source target, step ≠ .storeInto n source target) : Tidy [step]
  | append {first second : List Step} (h : Tidy first) (h' : Tidy second) :
      Tidy (first ++ second)
  | scope (n : NodeId) (kind : NodeKind) (correlated : Bool) {body : List Step}
      (h : Tidy body) : Tidy (.enter n kind correlated :: (body ++ [.leave]))
  | storing (n : NodeId) (kind : NodeKind) (correlated : Bool) {body : List Step}
      (clause source : NodeId) (target : String) (h : Tidy body) :
      Tidy (.enter n kind correlated :: (body ++ [.storeInto clause source target, .leave]))

variable {tree : Tree} {l : List Step}

theorem Tidy.balanced (h : Tidy l) : Balanced l := by
  induction h with
  | nil => exact .nil
  | step hquiet _ => exact .step hquiet
  | append _ _ ih ih' => exact .append ih ih'
  | scope n kind correlated _ ih => exact .scope n kind correlated ih
  | storing n kind correlated clause source target _ ih =>
      have hstore : Balanced [.storeInto clause source target] := .step rfl
      simpa using Balanced.scope n kind correlated (.append ih hstore)

theorem Tidy.flatMap {α : Type} {nodes : List α} {f : α → List Step}
    (h : ∀ a ∈ nodes, Tidy (f a)) : Tidy (nodes.flatMap f) := by
  induction nodes with
  | nil => exact .nil
  | cons a rest ih =>
      rw [List.forall_mem_cons] at h
      rw [List.flatMap_cons]
      exact .append h.1 (ih h.2)

/-- Only query blocks and outputs store rows. -/
theorem nodeStages_stores (n : NodeId) {x : Node} (hblock : x.kind ≠ .selectExpression)
    (houtput : x.kind ≠ .output) : ∀ stage ∈ nodeStages n x, stage.stores = false := by
  cases x
  case selectExpression => exact (hblock rfl).elim
  case output => exact (houtput rfl).elim
  all_goals
    simp only [nodeStages, inScope, assignments, visitAll, visitOption, List.forall_mem_append,
      List.forall_mem_cons, List.forall_mem_map, List.not_mem_nil]
    simp [Stage.stores]

/-- What stands in the place of a query is a block or has quiet stages that store
no rows. -/
theorem queryStages_cases (tree : Tree) (correlated : Bool) (n : NodeId) :
    (∃ b, queryStages tree correlated n = block n b correlated) ∨
      ∀ stage ∈ queryStages tree correlated n, stage.isQuiet ∧ stage.stores = false := by
  unfold queryStages
  split
  · exact Or.inl ⟨_, rfl⟩
  all_goals
    right
    simp [Stage.isQuiet, Stage.stores]

/-- A query block stores its rows last. -/
theorem blockBody_eq (b : SelectExpression) :
    ∃ front, blockBody b = front ++ b.into.toList.map .store ∧
      (∀ stage ∈ front, stage.isQuiet) ∧ ∀ stage ∈ front, stage.stores = false := by
  refine ⟨visitOption b.source ++ visitOption b.top ++ visitAll b.columns ++
    visitOption b.condition ++ visitAll b.grouping ++ visitOption b.having ++
    b.ordering.map (.order b.columns), rfl, ?_, ?_⟩
  all_goals
    simp only [visitAll, visitOption, List.forall_mem_append, List.forall_mem_map]
    simp [Stage.isQuiet, Stage.stores]

/-- A clause that rows are stored by is one step. -/
theorem Spells.store_eq {owner clause : NodeId}
    (h : Spells tree owner (.store clause) l) (hl : Legal l) :
    ∃ target, l = [.storeInto clause owner target] := by
  cases h with
  | store _ hclause => exact ⟨_, rfl⟩
  | reject _ _ fault => exact (hl fault (List.mem_singleton_self _)).elim

/-- No node stores rows but by a clause. -/
theorem nodeStages_own_ne (n : NodeId) (x : Node) (clause source : NodeId) (target : String) :
    ∀ stage ∈ nodeStages n x, stage ≠ .own (.storeInto clause source target) := by
  cases x
  all_goals
    simp only [nodeStages, block, blockBody, inScope, assignments, visitAll, visitOption,
      List.forall_mem_append, List.forall_mem_cons, List.forall_mem_map, List.not_mem_nil]
    simp

theorem stages_own_ne {n clause source : NodeId} {target : String} :
    ∀ stage ∈ stages tree n, stage ≠ .own (.storeInto clause source target) := by
  unfold stages
  cases tree.get? n with
  | none => simp
  | some x => exact nodeStages_own_ne n x clause source target

theorem queryStages_own_ne {correlated : Bool} {n clause source : NodeId} {target : String} :
    ∀ stage ∈ queryStages tree correlated n,
      stage ≠ .own (.storeInto clause source target) := by
  intro stage hstage heq
  subst heq
  rcases queryStages_cases tree correlated n with ⟨b, hblock⟩ | hplain
  · simp [hblock, block, blockBody, inScope, visitAll, visitOption] at hstage
  · cases (hplain _ hstage).2

/-- The stages of a walk that hold a child stand for slots. -/
theorem stages_holds {n c : NodeId} {stage : Stage} (hstage : stage ∈ stages tree n)
    (hc : stage.child? = some c) : tree.Holds n c := by
  unfold stages at hstage
  split at hstage
  · rename_i x hx
    exact nodeStages_holds hx stage hstage c hc
  · cases hstage

theorem queryStages_store {correlated : Bool} {n clause : NodeId}
    (hstage : .store clause ∈ queryStages tree correlated n) : tree.Holds n clause := by
  rcases queryStages_traverse tree correlated n with h | ⟨x, hx, h⟩
  · rw [h, List.mem_singleton] at hstage
    cases hstage
  · exact ⟨x, hx, h.slots_perm.mem_iff.1 (List.mem_filterMap.2 ⟨_, hstage, rfl⟩)⟩

/-- **The rows that are stored** are those of the node that has the clause. -/
theorem Spells.holds_of_store {owner clause source : NodeId} {stage : Stage} {target : String}
    (h : Spells tree owner stage l)
    (hown : stage ≠ .own (.storeInto clause source target))
    (hstore : stage = .store clause → tree.Holds owner clause)
    (hmem : .storeInto clause source target ∈ l) : tree.Holds source clause := by
  induction h with
  | own owner step =>
      rw [List.mem_singleton] at hmem
      exact (hown (congrArg Stage.own hmem.symm)).elim
  | visit owner n word hword ih =>
      obtain ⟨stage, hstage, hmem⟩ := List.mem_flatMap.1 hmem
      refine ih stage hstage (stages_own_ne stage hstage) (fun heq => ?_) hmem
      exact stages_holds hstage (heq ▸ rfl)
  | query owner correlated n word hword ih =>
      obtain ⟨stage, hstage, hmem⟩ := List.mem_flatMap.1 hmem
      refine ih stage hstage (queryStages_own_ne stage hstage) (fun heq => ?_) hmem
      exact queryStages_store (heq ▸ hstage)
  | orderByAlias owner hitem hreference hplain hcolumn => simp at hmem
  | order columns hvisit ih => exact ih (by simp) (by simp) hmem
  | assign hset hcolumn hvisit ih =>
      rcases List.mem_cons.1 hmem with heq | hmem
      · cases heq
      · exact ih (by simp) (by simp) hmem
  | store owner hclause =>
      rw [List.mem_singleton] at hmem
      cases hmem
      exact hstore rfl
  | declareType owner name initializer htype => simp at hmem
  | reject owner stage fault => simp at hmem

section

variable {n : NodeId} {kind : NodeKind} {correlated : Bool} {word : Stage → List Step}

/-- The steps of a scope that do not refuse the tree. -/
theorem inScope_eq {body : List Stage}
    (hword : ∀ stage ∈ inScope n kind correlated body, Spells tree n stage (word stage))
    (hlegal : Legal ((inScope n kind correlated body).flatMap word)) :
    (inScope n kind correlated body).flatMap word =
      .enter n kind correlated :: (body.flatMap word ++ [.leave]) := by
  have henter := (hword (.own (.enter n kind correlated)) (by simp [inScope])).own_eq
    (hlegal.of_mem_flatMap (by simp [inScope]))
  have hleave := (hword (.own .leave) (by simp [inScope])).own_eq
    (hlegal.of_mem_flatMap (by simp [inScope]))
  simp [inScope, henter, hleave]

/-- A block is tidy if all that is visited in it is. -/
theorem block_tidy {b : SelectExpression}
    (hword : ∀ stage ∈ block n b correlated, Spells tree n stage (word stage))
    (hlegal : Legal ((block n b correlated).flatMap word))
    (ih : ∀ stage ∈ block n b correlated, stage.isQuiet → stage.stores = false →
      Tidy (word stage)) : Tidy ((block n b correlated).flatMap word) := by
  obtain ⟨front, hbody, hquiet, hcalm⟩ := blockBody_eq b
  have hfront : Tidy (front.flatMap word) := .flatMap fun stage hstage =>
    ih stage (by simp [block, inScope, hbody, hstage]) (hquiet stage hstage) (hcalm stage hstage)
  rw [block, inScope_eq hword hlegal, hbody]
  cases hinto : b.into with
  | none => simpa using Tidy.scope n .selectExpression correlated hfront
  | some clause =>
      have hmem : .store clause ∈ block n b correlated := by
        simp [block, inScope, hbody, hinto]
      obtain ⟨target, hstore⟩ := (hword _ hmem).store_eq (hlegal.of_mem_flatMap hmem)
      simpa [hstore] using Tidy.storing n .selectExpression correlated clause n target hfront

/-- The walk over a node that is no output is tidy if all that is visited in it
is. -/
theorem nodeStages_tidy {x : Node} (houtput : x.kind ≠ .output)
    (hword : ∀ stage ∈ nodeStages n x, Spells tree n stage (word stage))
    (hlegal : Legal ((nodeStages n x).flatMap word))
    (ih : ∀ stage ∈ nodeStages n x, stage.isQuiet → stage.stores = false →
      Tidy (word stage)) : Tidy ((nodeStages n x).flatMap word) := by
  by_cases hblock : x.kind = .selectExpression
  · cases x <;> cases hblock
    exact block_tidy hword hlegal ih
  · have hcalm := nodeStages_stores n hblock houtput
    rcases nodeStages_quiet n x with ⟨-, body, hbody, hquiet⟩ | ⟨-, hquiet⟩
    · rw [hbody] at hword hlegal ih hcalm ⊢
      rw [inScope_eq hword hlegal]
      refine .scope _ _ _ (.flatMap fun stage hstage => ?_)
      have hmem : stage ∈ inScope n x.kind (x.kind == .selectExpression) body := by
        simp [inScope, hstage]
      exact ih stage hmem (hquiet stage hstage) (hcalm stage hmem)
    · exact .flatMap fun stage hstage =>
        ih stage hstage (hquiet stage hstage) (hcalm stage hstage)

end

/-- **Walks without outputs are tidy**: rows are stored right before the scope of
their block is left. -/
theorem Spells.tidy {owner : NodeId} {stage : Stage}
    (h : Spells tree owner stage l) (hlegal : Legal l) (hquiet : stage.isQuiet)
    (hstores : stage.stores = false)
    (houtput : ∀ top, stage.child? = some top → ∀ m, tree.Reaches top m → ∀ columns target,
      tree.get? m ≠ some (.output columns target)) : Tidy l := by
  have hchild : ∀ {stage : Stage} {c : NodeId}, stage.child? = some c →
      stage.subject? = some c := by
    intro stage c hc
    cases stage <;> cases hc <;> rfl
  induction h with
  | own owner step =>
      refine .step hquiet fun n source target heq => ?_
      subst heq
      cases hstores
  | visit owner n word hword ih =>
      have hlater : ∀ stage ∈ stages tree n, stage.isQuiet → stage.stores = false →
          Tidy (word stage) :=
        fun stage hstage hquiet hcalm => ih stage hstage (hlegal.of_mem_flatMap hstage) hquiet
          hcalm fun top htop m hm => houtput n rfl m
            ((reaches_of_mem_stages hstage (hchild htop)).trans hm)
      cases hx : tree.get? n with
      | none => simpa [stages, hx] using Tidy.nil
      | some x =>
          simp only [stages, hx] at hword hlegal hlater ⊢
          refine nodeStages_tidy (fun hkind => ?_) hword hlegal hlater
          cases x <;> cases hkind
          exact houtput n rfl n Relation.ReflTransGen.refl _ _ hx
  | query owner correlated n word hword ih =>
      have hlater : ∀ stage ∈ queryStages tree correlated n, stage.isQuiet →
          stage.stores = false → Tidy (word stage) :=
        fun stage hstage hquiet hcalm => ih stage hstage (hlegal.of_mem_flatMap hstage) hquiet
          hcalm fun top htop m hm => houtput n rfl m
            ((reaches_of_mem_queryStages hstage (hchild htop)).trans hm)
      rcases queryStages_cases tree correlated n with ⟨b, hblock⟩ | hplain
      · rw [hblock] at hword hlegal hlater ⊢
        exact block_tidy hword hlegal hlater
      · exact .flatMap fun stage hstage =>
          hlater stage hstage (hplain stage hstage).1 (hplain stage hstage).2
  | orderByAlias owner hitem hreference hplain hcolumn => exact .step rfl (by simp)
  | order columns hvisit ih => exact ih hlegal rfl rfl houtput
  | @assign owner n column initializer identifier l hset hcolumn hvisit ih =>
      have hlegal' : Legal l := fun fault hmem => hlegal fault (List.mem_cons_of_mem _ hmem)
      have hholds : tree.Holds n initializer := ⟨_, hset, by simp [Node.children]⟩
      have hset' : Tidy [.setColumn column identifier] := .step rfl (by simp)
      refine .append hset' (ih hlegal' rfl rfl fun top htop m hm => ?_)
      cases htop
      exact houtput n rfl m (Relation.ReflTransGen.head hholds hm)
  | store owner hclause => cases hstores
  | declareType owner name initializer htype => exact .step rfl (by simp)
  | reject owner stage fault => exact .step rfl (by simp)

end Walk

end UnionScript
