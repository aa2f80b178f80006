import UnionScript.Proofs.Walk.Spelling

/-!
# What walks cover

A walk that does not refuse the tree misses nothing: it has a step about every
node below its own for which walks have steps (`Covers.complete`).  In a
tree-shaped tree it has no more than one such step (`Covers.nodup`).  A walk
over a tree with a circle never ends, so a walk also shows that no way down
goes on forever (`Covers.grounded`).

Main statement: `Walk.Spells.covers`, by induction along the spelling of a
walk.  At a node the slots are apart, so the walks over them have no node in
common, also where a walk ends in the refusal of the tree (`Walk.Spells.nodup`).
-/

namespace UnionScript

namespace Walk

/-- The steps do not refuse the tree. -/
def Legal (l : List Step) : Prop :=
  ∀ fault, Step.reject fault ∉ l

/-- The nodes that steps are about, in the order of the steps. -/
def subjects (l : List Step) : List NodeId :=
  l.filterMap Step.subject?

variable {tree : Tree}

theorem mem_subjects {l : List Step} {m : NodeId} :
    m ∈ subjects l ↔ ∃ s ∈ l, s.subject? = some m :=
  List.mem_filterMap

/-- Where steps are about different nodes, later ones are about other nodes than earlier
ones. -/
theorem not_mem_subjects_of_nodup {first second : List Step} {n : NodeId}
    (h : (subjects (first ++ second)).Nodup) (hn : n ∈ subjects first) :
    n ∉ subjects second := by
  rw [subjects, List.filterMap_append] at h
  exact fun hmem => (List.nodup_append.1 h).2.2 n hn n hmem rfl

/-- Some of the nodes that steps are about are found in the same order. -/
theorem filterMap_sublist_subjects {f : Step → Option NodeId}
    (hf : ∀ step n, f step = some n → step.subject? = some n) (l : List Step) :
    (l.filterMap f).Sublist (subjects l) := by
  induction l with
  | nil => exact List.Sublist.refl _
  | cons step rest ih =>
      simp only [subjects, List.filterMap_cons]
      cases hn : f step with
      | some n =>
          simp only [hf step n hn]
          exact ih.cons_cons n
      | none =>
          cases step.subject? with
          | none => exact ih
          | some m => exact ih.cons m

/-- Steps out of steps that do not refuse the tree do not either. -/
theorem Legal.mono {l l' : List Step} (h : Legal l) (hsub : l' ⊆ l) : Legal l' :=
  fun fault hfault => h fault (hsub hfault)

theorem Legal.of_mem_flatMap {stages : List Stage} {word : Stage → List Step} {stage : Stage}
    (h : Legal (stages.flatMap word)) (hstage : stage ∈ stages) : Legal (word stage) :=
  h.mono fun _ hstep => List.mem_flatMap.2 ⟨stage, hstage, hstep⟩

/-- A stage of its own is its step, or refuses the tree. -/
theorem Spells.own_cases {owner : NodeId} {s : Step} {l : List Step}
    (h : Spells tree owner (.own s) l) : l = [s] ∨ ∃ fault, l = [.reject fault] := by
  cases h with
  | own => exact Or.inl rfl
  | reject _ _ fault => exact Or.inr ⟨fault, rfl⟩

/-- A stage of its own that does not refuse the tree is its step. -/
theorem Spells.own_eq {owner : NodeId} {s : Step} {l : List Step}
    (h : Spells tree owner (.own s) l) (hl : Legal l) : l = [s] := by
  rcases h.own_cases with rfl | ⟨fault, rfl⟩
  · rfl
  · exact (hl fault (List.mem_singleton_self _)).elim

/-- A stage of its own is about no node but its own. -/
theorem Spells.own_subjects {owner : NodeId} {s : Step} {l : List Step}
    (h : Spells tree owner (.own s) l) : subjects l = [] ∨ subjects l = s.subject?.toList := by
  rcases h.own_cases with rfl | ⟨fault, rfl⟩
  · right
    cases hs : s.subject? <;> simp [subjects, hs]
  · exact Or.inl rfl

/-- Steps cover what is below a node. -/
structure Covers (tree : Tree) (n : NodeId) (l : List Step) : Prop where
  grounded : tree.Grounded n
  complete : ∀ m x, tree.Reaches n m → tree.get? m = some x → x.kind.hasStep →
    m ∈ subjects l
  nodup : tree.TreeShaped → (subjects l).Nodup

/-- A node without children is covered by a step about it. -/
theorem Covers.leaf {n : NodeId} {x : Node} {l : List Step} (hx : tree.get? n = some x)
    (hleaf : x.children = []) (hl : subjects l = [n]) : Covers tree n l where
  grounded := Tree.grounded_of_children (by
    intro c hc
    have hmem := hc.mem_children hx
    simp [hleaf] at hmem)
  complete m y hm _ _ := by
    obtain rfl := (Tree.reaches_leaf_iff hx hleaf).1 hm
    simp [hl]
  nodup _ := by simp [hl]

section

variable {n : NodeId} {x : Node} {stages : List Stage} {word : Stage → List Step}

/-- A node whose children are grounded is grounded. -/
theorem Traverse.grounded (h : Traverse n x stages) (hx : tree.get? n = some x)
    (ih : ∀ stage ∈ stages, ∀ c, stage.child? = some c → Covers tree c (word stage)) :
    tree.Grounded n := by
  refine Tree.grounded_of_children ?_
  intro c hc
  obtain ⟨stage, hstage, hchild⟩ :=
    List.mem_filterMap.1 (h.slots_perm.mem_iff.2 (hc.mem_children hx))
  exact (ih stage hstage c hchild).grounded

/-- Stages that go through a node miss nothing if those for its slots do not. -/
theorem Traverse.complete (h : Traverse n x stages) (hx : tree.get? n = some x)
    (hword : ∀ stage ∈ stages, Spells tree n stage (word stage))
    (hlegal : Legal (stages.flatMap word))
    (ih : ∀ stage ∈ stages, ∀ c, stage.child? = some c → Covers tree c (word stage))
    {m : NodeId} {y : Node} (hm : tree.Reaches n m) (hy : tree.get? m = some y)
    (hstep : y.kind.hasStep) : m ∈ subjects (stages.flatMap word) := by
  have hflat : ∀ stage ∈ stages, m ∈ subjects (word stage) →
      m ∈ subjects (stages.flatMap word) := by
    intro stage hstage hmem
    obtain ⟨s, hs, hsub⟩ := mem_subjects.1 hmem
    exact mem_subjects.2 ⟨s, List.mem_flatMap.2 ⟨stage, hstage, hs⟩, hsub⟩
  rcases (Tree.reaches_iff_of_get? hx).1 hm with rfl | ⟨c, hc, hcm⟩
  · obtain rfl : x = y := Option.some.inj (hx.symm.trans hy)
    have hown : m ∈ ownSubjects stages := by simp [h.own, hstep]
    obtain ⟨stage, hstage, hsub⟩ := List.mem_filterMap.1 hown
    cases stage with
    | own s =>
        have hs := (hword _ hstage).own_eq (hlegal.of_mem_flatMap hstage)
        exact hflat _ hstage (mem_subjects.2 ⟨s, by simp [hs], hsub⟩)
    | _ => cases hsub
  · obtain ⟨stage, hstage, hchild⟩ := List.mem_filterMap.1 (h.slots_perm.mem_iff.2 hc)
    exact hflat stage hstage ((ih stage hstage c hchild).complete m y hcm hy hstep)

/-- Steps of a stage are about the node itself or about nodes below the slot that
the stage is for. -/
theorem Traverse.subject_cases (h : Traverse n x stages) (hx : tree.get? n = some x)
    (hword : ∀ stage ∈ stages, Spells tree n stage (word stage)) {stage : Stage}
    (hstage : stage ∈ stages) {m : NodeId} (hm : m ∈ subjects (word stage)) :
    (stage.ownSubject? = some m ∧ m = n) ∨
      ∃ c, stage.child? = some c ∧ tree.Holds n c ∧ tree.Reaches c m := by
  cases hchild : stage.child? with
  | none =>
      left
      cases stage with
      | own s =>
          have hsub : s.subject? = some m := by
            rcases (hword _ hstage).own_subjects with hnone | hown
            · simp [hnone] at hm
            · simpa [hown] using hm
          have hown : m ∈ ownSubjects stages := List.mem_filterMap.2 ⟨_, hstage, hsub⟩
          rw [h.own] at hown
          split at hown
          · exact ⟨hsub, List.mem_singleton.1 hown⟩
          · cases hown
      | _ => cases hchild
  | some c =>
      right
      obtain ⟨s, hs, hsub⟩ := mem_subjects.1 hm
      obtain ⟨top, htop, hreach⟩ := (hword stage hstage).reaches hs hsub
      have hown : stage.ownSubject? = none := by
        cases stage with
        | own => cases hchild
        | _ => rfl
      obtain rfl : c = top := by
        simpa [Stage.subject?, hown, hchild] using htop
      have hc : c ∈ slots stages := List.mem_filterMap.2 ⟨stage, hstage, hchild⟩
      exact ⟨c, rfl, ⟨x, hx, h.slots_perm.mem_iff.1 hc⟩, hreach⟩

/-- Stages that go through a node of a tree-shaped tree have at most one step
about each node if those for its slots do. -/
theorem Traverse.nodup (h : Traverse n x stages) (hx : tree.get? n = some x)
    (hshape : tree.TreeShaped) (hground : tree.Grounded n)
    (hword : ∀ stage ∈ stages, Spells tree n stage (word stage))
    (ih : ∀ stage ∈ stages, ∀ c, stage.child? = some c → (subjects (word stage)).Nodup) :
    (subjects (stages.flatMap word)).Nodup := by
  have hslots : (slots stages).Nodup := h.slots_perm.nodup_iff.2 (hshape.children_nodup hx)
  have hown : (ownSubjects stages).Nodup := by
    rw [h.own]
    split <;> simp
  unfold subjects
  rw [List.filterMap_flatMap, List.nodup_flatMap]
  constructor
  · intro stage hstage
    cases hchild : stage.child? with
    | some c => exact ih stage hstage c hchild
    | none =>
        cases stage with
        | own s =>
            change (subjects (word (.own s))).Nodup
            rcases (hword _ hstage).own_subjects with hnone | hown
            · simp [hnone]
            · cases hs : s.subject? <;> simp [hown, hs]
        | _ => cases hchild
  · refine ((List.pairwise_filterMap.1 hslots).and
      (List.pairwise_filterMap.1 hown)).imp_of_mem ?_
    rintro a b ha hb ⟨hslot, hself⟩ m hma hmb
    rcases h.subject_cases hx hword ha hma with ⟨hao, rfl⟩ | ⟨c, hac, hnc, hcm⟩ <;>
      rcases h.subject_cases hx hword hb hmb with ⟨hbo, hmn⟩ | ⟨d, hbd, hnd, hdm⟩
    · exact hself _ hao _ hbo rfl
    · exact hground.not_reaches_parent hnd hdm
    · subst hmn
      exact hground.not_reaches_parent hnc hcm
    · exact hslot c hac d hbd (hshape.apart hground hnc hnd hcm hdm)

/-- Stages that go through a node cover it if those for its slots cover these. -/
theorem Traverse.covers (h : Traverse n x stages) (hx : tree.get? n = some x)
    (hword : ∀ stage ∈ stages, Spells tree n stage (word stage))
    (hlegal : Legal (stages.flatMap word))
    (ih : ∀ stage ∈ stages, ∀ c, stage.child? = some c → Covers tree c (word stage)) :
    Covers tree n (stages.flatMap word) where
  grounded := h.grounded hx ih
  complete _ _ := h.complete hx hword hlegal ih
  nodup hshape := h.nodup hx hshape (h.grounded hx ih) hword
    fun stage hstage c hc => (ih stage hstage c hc).nodup hshape

end

/-- A number that stands for no node is covered by no steps. -/
theorem Covers.missing {n : NodeId} (hn : tree.get? n = none) : Covers tree n [] where
  grounded := Tree.grounded_of_children (by
    rintro c ⟨x, hx, -⟩
    rw [hn] at hx
    cases hx)
  complete m y hm hy _ := by
    obtain rfl := (Tree.reaches_missing_iff hn).1 hm
    rw [hn] at hy
    cases hy
  nodup _ := List.nodup_nil

/-- An item that is bound by the alias of a column is covered by that step. -/
theorem Covers.orderByAlias {item reference column : NodeId} {descending : Bool} {name : String}
    (hitem : tree.get? item = some (.orderItem reference descending))
    (hreference : tree.get? reference = some (.columnReference name)) :
    Covers tree item [.useProjection reference column] where
  grounded := by
    have hleaf : Covers tree reference [.useProjection reference column] :=
      Covers.leaf hreference rfl rfl
    refine Tree.grounded_of_children ?_
    rintro c ⟨x, hx, hc⟩
    obtain rfl : Node.orderItem reference descending = x :=
      Option.some.inj (hitem.symm.trans hx)
    obtain rfl : c = reference := by simpa [Node.children] using hc
    exact hleaf.grounded
  complete m y hm hy hstep := by
    rcases (Tree.reaches_iff_of_get? hitem).1 hm with rfl | ⟨c, hc, hcm⟩
    · obtain rfl : Node.orderItem reference descending = y :=
        Option.some.inj (hitem.symm.trans hy)
      cases hstep
    · obtain rfl : c = reference := by simpa [Node.children] using hc
      obtain rfl := (Tree.reaches_leaf_iff hreference rfl).1 hcm
      simp [subjects, Step.subject?]
  nodup _ := by simp [subjects, Step.subject?]

/-- The steps of the walk over a node are about nodes below. -/
theorem Spells.reaches_subject {owner n m : NodeId} {l : List Step}
    (h : Spells tree owner (.visit n) l) (hm : m ∈ subjects l) : tree.Reaches n m := by
  obtain ⟨s, hs, hsub⟩ := mem_subjects.1 hm
  exact h.reaches_of_visit hs hsub

/-- The column of an assignment is not below its initializer. -/
theorem assign_nodup (hshape : tree.TreeShaped) {n column initializer : NodeId}
    {identifier : String} {l : List Step} (hground : tree.Grounded n)
    (hset : tree.get? n = some (.setExpression column initializer))
    (hbelow : ∀ m ∈ subjects l, tree.Reaches initializer m) (hl : (subjects l).Nodup) :
    (subjects (.setColumn column identifier :: l)).Nodup := by
  have hnodup := hshape.children_nodup hset
  change (column :: subjects l).Nodup
  refine List.nodup_cons.2 ⟨fun hmem => ?_, hl⟩
  have heq := hshape.eq_of_reaches_sibling hground
    ⟨_, hset, by simp [Node.children]⟩ ⟨_, hset, by simp [Node.children]⟩
    (hbelow column hmem)
  simp [Node.children, heq] at hnodup

/-- An assignment is covered by the step about its column and by what covers its
initializer. -/
theorem Covers.assign {n column initializer : NodeId} {identifier : String} {l : List Step}
    (hset : tree.get? n = some (.setExpression column initializer))
    (hcolumn : tree.get? column = some (.columnReference identifier))
    (hbelow : ∀ m ∈ subjects l, tree.Reaches initializer m)
    (h : Covers tree initializer l) :
    Covers tree n (.setColumn column identifier :: l) := by
  have hchildren : ∀ c, tree.Holds n c → c = column ∨ c = initializer := by
    rintro c ⟨x, hx, hc⟩
    obtain rfl : Node.setExpression column initializer = x :=
      Option.some.inj (hset.symm.trans hx)
    simpa [Node.children] using hc
  have hleaf : Covers tree column [.setColumn column identifier] :=
    Covers.leaf hcolumn rfl rfl
  have hground : tree.Grounded n := by
    refine Tree.grounded_of_children ?_
    intro c hc
    rcases hchildren c hc with rfl | rfl
    · exact hleaf.grounded
    · exact h.grounded
  have hsubjects : subjects (.setColumn column identifier :: l) = column :: subjects l := rfl
  refine ⟨hground, ?_, ?_⟩
  · intro m y hm hy hstep
    rw [hsubjects, List.mem_cons]
    rcases Tree.reaches_iff.1 hm with rfl | ⟨c, hc, hcm⟩
    · obtain rfl : Node.setExpression column initializer = y :=
        Option.some.inj (hset.symm.trans hy)
      cases hstep
    · rcases hchildren c hc with rfl | rfl
      · exact Or.inl ((Tree.reaches_leaf_iff hcolumn rfl).1 hcm)
      · exact Or.inr (h.complete m y hcm hy hstep)
  · exact fun hshape => assign_nodup hshape hground hset hbelow (h.nodup hshape)

/-- **Walks cover.**  The steps of a stage that does not refuse the tree cover
what is below the slot that the stage is for. -/
theorem Spells.covers {owner : NodeId} {stage : Stage} {l : List Step}
    (h : Spells tree owner stage l) (hlegal : Legal l) {n : NodeId}
    (hn : stage.child? = some n) : Covers tree n l := by
  induction h generalizing n with
  | own owner s => cases hn
  | visit owner n' word hword ih =>
      obtain rfl : n' = n := Option.some.inj hn
      have ih' := fun stage hstage c => ih stage hstage (hlegal.of_mem_flatMap hstage) (n := c)
      rcases stages_traverse tree n' with ⟨hx, hnone⟩ | ⟨fault, hreject⟩ | ⟨x, hx, htraverse⟩
      · rw [hnone]
        exact Covers.missing hx
      · have hown : Stage.own (.reject fault) ∈ stages tree n' := by simp [hreject]
        have hword' := (hword _ hown).own_eq (hlegal.of_mem_flatMap hown)
        exact (hlegal.of_mem_flatMap hown fault (by simp [hword'])).elim
      · exact htraverse.covers hx hword hlegal ih'
  | query owner c n' word hword ih =>
      obtain rfl : n' = n := Option.some.inj hn
      have ih' := fun stage hstage c => ih stage hstage (hlegal.of_mem_flatMap hstage) (n := c)
      rcases queryStages_traverse tree c n' with hvisit | ⟨x, hx, htraverse⟩
      · rw [hvisit] at ih' ⊢
        simpa using ih' (.visit n') (List.mem_singleton_self _) n' rfl
      · exact htraverse.covers hx hword hlegal ih'
  | orderByAlias owner hitem hreference _ _ =>
      obtain rfl := Option.some.inj hn
      exact Covers.orderByAlias hitem hreference
  | order columns _ ih => exact ih hlegal hn
  | assign hset hcolumn hvisit ih =>
      obtain rfl := Option.some.inj hn
      have hlegal' : Legal _ := fun fault hfault => hlegal fault (List.mem_cons_of_mem _ hfault)
      exact Covers.assign hset hcolumn (fun m => hvisit.reaches_subject) (ih hlegal' rfl)
  | store owner hclause =>
      obtain rfl := Option.some.inj hn
      exact Covers.leaf hclause rfl rfl
  | declareType owner name initializer htype =>
      obtain rfl := Option.some.inj hn
      exact Covers.leaf htype rfl rfl
  | reject owner stage fault => exact (hlegal fault (List.mem_singleton_self _)).elim

/-- **No node twice.**  In a tree-shaped tree without circles the steps of a stage
are about different nodes, also if they end in the refusal of the tree. -/
theorem Spells.nodup (hshape : tree.TreeShaped) {owner : NodeId} {stage : Stage} {l : List Step}
    (h : Spells tree owner stage l) (hground : ∀ n, stage.child? = some n → tree.Grounded n) :
    (subjects l).Nodup := by
  have hbelow : ∀ {n x stages}, Traverse n x stages → tree.get? n = some x → tree.Grounded n →
      ∀ stage ∈ stages, ∀ c, stage.child? = some c → tree.Grounded c := by
    intro n x stages htraverse hx hn stage hstage c hc
    have hmem : c ∈ x.children :=
      htraverse.slots_perm.mem_iff.1 (List.mem_filterMap.2 ⟨stage, hstage, hc⟩)
    exact hn.of_reaches (Relation.ReflTransGen.single ⟨x, hx, hmem⟩)
  induction h with
  | own owner s => cases hs : s.subject? <;> simp [subjects, hs]
  | visit owner n word hword ih =>
      rcases stages_traverse tree n with ⟨-, hnone⟩ | ⟨fault, hreject⟩ | ⟨x, hx, htraverse⟩
      · simp [hnone, subjects]
      · have hown := (hword (.own (.reject fault)) (by simp [hreject])).own_subjects
        rw [hreject, List.flatMap_singleton]
        rcases hown with hnone | hnone <;> simp [hnone, Step.subject?]
      · have hn := hground n rfl
        exact htraverse.nodup hx hshape hn hword fun stage hstage c hc =>
          ih stage hstage fun m hm => hbelow htraverse hx hn stage hstage m hm
  | query owner c n word hword ih =>
      have hn := hground n rfl
      rcases queryStages_traverse tree c n with hvisit | ⟨x, hx, htraverse⟩
      · rw [hvisit] at ih ⊢
        simpa using ih (.visit n) (List.mem_singleton_self _) hground
      · exact htraverse.nodup hx hshape hn hword fun stage hstage c hc =>
          ih stage hstage fun m hm => hbelow htraverse hx hn stage hstage m hm
  | orderByAlias | store | declareType => simp [subjects, Step.subject?]
  | order columns _ ih => exact ih hground
  | @assign owner n column initializer identifier l hset hcolumn hvisit ih =>
      have hn := hground n rfl
      refine assign_nodup hshape hn hset (fun m => hvisit.reaches_subject) (ih fun m hm => ?_)
      obtain rfl := Option.some.inj hm
      exact hn.of_reaches (Relation.ReflTransGen.single ⟨_, hset, by simp [Node.children]⟩)
  | reject => exact List.nodup_nil

end Walk

end UnionScript
