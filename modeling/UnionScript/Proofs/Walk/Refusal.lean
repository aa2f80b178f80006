import UnionScript.Proofs.Syntax.Slots
import UnionScript.Proofs.Walk.Placement

/-!
# Why walks refuse a tree

A walk refuses a tree for a reason that the tree shows (`Walk.Refusal`): a node is
nested deeper than allowed, or the walk came to a node that does not belong where
it stands.  A third reason, a query that contains itself, is given only where some
way down never ends (`Walk.steps_refusal`).

So a walk over a well-placed tree that is nested no deeper than allowed does not
refuse it (`Walk.walk_legal`).
-/

namespace UnionScript

/-- The slot that a stage is for. -/
def Stage.slot : Stage → Slot
  | .assign _ => .assignment
  | .store _ => .store
  | .declareType _ _ _ => .type
  | .own _ | .visit _ | .query _ _ | .order _ _ => .plain

namespace Walk

/-- Why the walk over a node that may still be nested `depth` levels deep refuses
the tree. -/
inductive Refusal (tree : Tree) (limit depth : Nat) (n : NodeId) : StructureFault → Prop
  | nesting {way : List NodeId} (m : NodeId) (hway : List.IsChain tree.Holds (n :: way))
      (hlong : depth ≤ way.length) : Refusal tree limit depth n (.nesting limit m)
  | misplaced {m : NodeId} {fault : StructureFault}
      (hm : Relation.ReflTransGen tree.LeadsTo n m)
      (hfault : Part.step (.reject fault) ∈ parts tree m) : Refusal tree limit depth n fault

variable {tree : Tree} {limit depth : Nat} {n c : NodeId} {fault : StructureFault}

/-- What is wrong below a node is wrong with the walk over the node, which may be
nested one level deeper. -/
theorem Refusal.of_leadsTo (hc : tree.LeadsTo n c) (h : Refusal tree limit depth c fault) :
    Refusal tree limit (depth + 1) n fault := by
  cases h with
  | misplaced hm hfault => exact .misplaced (.head hc hm) hfault
  | nesting m hway hlong =>
      obtain ⟨longer, hlonger, hlt⟩ := hc.exists_way hway
      exact .nesting m hlonger (by omega)

/-- Where a tree is nested too deep for some depth, it is for any smaller one. -/
theorem Refusal.mono {depth' : Nat} (hle : depth' ≤ depth) (h : Refusal tree limit depth n fault) :
    Refusal tree limit depth' n fault := by
  cases h with
  | nesting m hway hlong => exact .nesting m hway (Nat.le_trans hle hlong)
  | misplaced hm hfault => exact .misplaced hm hfault

/-- Every stage of the walk over a node is for the slot that its child stands in. -/
theorem nodeStages_slots (n : NodeId) (x : Node) :
    ∀ stage ∈ nodeStages n x, ∀ c, stage.child? = some c → (stage.slot, c) ∈ x.slots := by
  cases x <;>
    simp only [nodeStages, block, blockBody, inScope, assignments, visitAll, visitOption,
      List.forall_mem_append, List.forall_mem_cons, List.forall_mem_map, List.not_mem_nil,
      Stage.child?, Stage.slot, Node.slots, Node.children, Option.some.injEq, forall_eq',
      reduceCtorEq, IsEmpty.forall_iff, implies_true, and_true, true_and]
  all_goals simp +contextual

/-- Nodes that refuse the tree when they are visited have a slot of their own. -/
theorem slot_ne_plain_of_own_reject {x : Node}
    (h : Stage.own (.reject fault) ∈ nodeStages n x) : x.kind.slot ≠ .plain := by
  cases x <;>
    simp [nodeStages, block, blockBody, inScope, assignments, visitAll, visitOption,
      Node.kind, NodeKind.slot] at h ⊢

/-- The walk over a node goes on where the node leads to. -/
theorem leadsTo_of_mem_stageParts {stage : Stage} (hstage : stage ∈ stages tree n)
    (hc : Part.visit c ∈ stageParts tree n stage ∨
      ∃ correlated, Part.query correlated c ∈ stageParts tree n stage) : tree.LeadsTo n c := by
  unfold stages at hstage
  split at hstage
  · rename_i x hx
    have hslot := nodeStages_slots n x stage hstage
    cases stage with
    | own s => simp [stageParts] at hc
    | visit child =>
        obtain rfl : c = child := by simpa [stageParts] using hc
        exact .plain hx (hslot c rfl)
    | query correlated child =>
        obtain rfl : c = child := by simpa [stageParts] using hc
        exact .plain hx (hslot c rfl)
    | order columns item =>
        obtain rfl : c = item := by
          simp only [stageParts, orderItem] at hc
          split at hc
          · split at hc
            · simp at hc
            · simpa using hc
          · simpa using hc
        exact .plain hx (hslot c rfl)
    | assign child =>
        simp only [stageParts, assignment] at hc
        split at hc
        · rename_i hset
          split at hc
          · obtain rfl : c = _ := by simpa using hc
            exact .assigned hx (hslot child rfl) hset
          · simp at hc
        · simp at hc
    | store clause =>
        simp only [stageParts, into] at hc
        split at hc <;> simp at hc
    | declareType name type initializer =>
        simp only [stageParts, declaredType] at hc
        split at hc <;> simp at hc
  · cases hstage

/-- In the place of a query the walk visits the node there or does what the walk
over the node does. -/
theorem queryStages_subset (tree : Tree) (correlated : Bool) (n : NodeId) :
    queryStages tree correlated n = [.visit n] ∨
      ∀ stage ∈ queryStages tree correlated n, stage ∈ stages tree n ∨
        (∃ s, stage = .own s ∧ ∀ fault, s ≠ .reject fault) ∨
        ∃ c, stage = .query correlated c ∧ tree.LeadsTo n c := by
  unfold queryStages
  split
  · rename_i b hx
    refine Or.inr fun stage hstage => ?_
    simp only [block, inScope, List.mem_append, List.mem_singleton] at hstage
    rcases hstage with (rfl | hbody) | rfl
    · exact Or.inr (Or.inl ⟨_, rfl, fun fault h => by cases h⟩)
    · simp [stages, hx, nodeStages, block, inScope, hbody]
    · exact Or.inr (Or.inl ⟨_, rfl, fun fault h => by cases h⟩)
  · rename_i left right all hx
    refine Or.inr fun stage hstage => Or.inr (Or.inr ?_)
    simp only [List.mem_cons, List.not_mem_nil, or_false] at hstage
    rcases hstage with rfl | rfl
    · exact ⟨left, rfl, .plain hx (by simp [Node.slots, Node.children])⟩
    · exact ⟨right, rfl, .plain hx (by simp [Node.slots, Node.children])⟩
  · rename_i expression hx
    refine Or.inr fun stage hstage => Or.inr (Or.inr ?_)
    obtain rfl := List.mem_singleton.1 hstage
    exact ⟨expression, rfl, .plain hx (by simp [Node.slots, Node.children])⟩
  · exact Or.inl rfl

/-- **Refusals of queries.**  With enough links, a query refuses the tree for the
reasons that the visits in it do. -/
theorem querySteps_refusal {visit : NodeId → List Step} {fuel : Nat} {correlated : Bool}
    (hvisit : ∀ m, tree.Reaches n m → Step.reject fault ∈ visit m →
      Refusal tree limit depth m fault)
    (hfuel : ∀ way, List.IsChain tree.Holds (n :: way) → way.length < fuel)
    (h : Step.reject fault ∈ querySteps tree visit fuel correlated n) :
    Refusal tree limit depth n fault := by
  induction fuel generalizing n correlated with
  | zero => exact absurd (hfuel [] (List.IsChain.singleton n)) (Nat.not_lt_zero _)
  | succ fuel ih =>
      -- What is refused at a node that this one leads to.
      have hbelow : ∀ c, tree.LeadsTo n c → Refusal tree limit depth c fault →
          Refusal tree limit depth n fault :=
        fun c hc hrefusal => (hrefusal.of_leadsTo hc).mono (Nat.le_succ depth)
      have hquery : ∀ c correlated, tree.LeadsTo n c →
          Step.reject fault ∈ querySteps tree visit fuel correlated c →
          Refusal tree limit depth n fault := by
        intro c correlated hc hmem
        refine hbelow c hc (ih (fun m hm => hvisit m (hc.reaches.trans hm)) ?_ hmem)
        intro way hway
        obtain ⟨longer, hlonger, hlt⟩ := hc.exists_way hway
        have hbound := hfuel longer hlonger
        omega
      rw [querySteps, List.mem_flatMap] at h
      obtain ⟨part, hpart, hmem⟩ := h
      obtain ⟨stage, hstage, hpart⟩ := List.mem_flatMap.1 hpart
      rcases queryStages_subset tree correlated n with hself | hstages
      · rw [hself, List.mem_singleton] at hstage
        subst hstage
        obtain rfl : part = .visit n := by simpa [stageParts] using hpart
        exact hvisit n .refl hmem
      · rcases hstages stage hstage with hown | ⟨s, rfl, hs⟩ | ⟨c, rfl, hc⟩
        · cases part with
          | step s =>
              obtain rfl : Step.reject fault = s := by simpa [expand] using hmem
              exact .misplaced .refl (List.mem_flatMap.2 ⟨stage, hown, hpart⟩)
          | visit c =>
              have hc := leadsTo_of_mem_stageParts hown (Or.inl hpart)
              exact hbelow c hc (hvisit c hc.reaches hmem)
          | query correlated' c =>
              exact hquery c correlated' (leadsTo_of_mem_stageParts hown (Or.inr ⟨_, hpart⟩)) hmem
        · obtain rfl : part = .step s := by simpa [stageParts] using hpart
          obtain rfl : Step.reject fault = s := by simpa [expand] using hmem
          exact (hs fault rfl).elim
        · obtain rfl : part = .query correlated c := by simpa [stageParts] using hpart
          exact hquery c correlated hc hmem

/-- **Refusals have a reason.**  Where no way down goes on forever, a walk refuses
the tree for its nesting or for a node that does not belong where it stands. -/
theorem steps_refusal (hground : tree.Grounded n)
    (h : Step.reject fault ∈ steps tree limit depth n) : Refusal tree limit depth n fault := by
  induction depth generalizing n with
  | zero =>
      obtain rfl : fault = .nesting limit n := by simpa [steps] using h
      exact .nesting n (List.IsChain.singleton n) (Nat.zero_le _)
  | succ depth ih =>
      rw [steps, List.mem_flatMap] at h
      obtain ⟨part, hpart, hmem⟩ := h
      obtain ⟨stage, hstage, hstagePart⟩ := List.mem_flatMap.1 hpart
      cases part with
      | step s =>
          obtain rfl : Step.reject fault = s := by simpa [expand] using hmem
          exact .misplaced .refl hpart
      | visit c =>
          have hc := leadsTo_of_mem_stageParts hstage (Or.inl hstagePart)
          exact (ih (hground.of_reaches hc.reaches) hmem).of_leadsTo hc
      | query correlated c =>
          have hc := leadsTo_of_mem_stageParts hstage (Or.inr ⟨_, hstagePart⟩)
          have hgroundc := hground.of_reaches hc.reaches
          refine .of_leadsTo hc
            (querySteps_refusal (fun m hm => ih (hgroundc.of_reaches hm)) ?_ hmem)
          intro way hway
          have hle := hgroundc.length_le_of_isChain hway
          rw [queryFuel]
          omega

/-- **What refuses a tree** is a node outside of its slot, or a stage for a slot that
holds something else.  It is never a query that contains itself. -/
theorem reject_mem_parts_cases (h : Part.step (.reject fault) ∈ parts tree n) :
    (∀ c, fault ≠ .endlessQuery c) ∧
      ∃ x, tree.get? n = some x ∧ ∃ stage ∈ nodeStages n x,
        Part.step (.reject fault) ∈ stageParts tree n stage ∧
          (stage = .own (.reject fault) ∨ stage.slot ≠ .plain) := by
  obtain ⟨stage, hstage, hpart⟩ := List.mem_flatMap.1 h
  unfold stages at hstage
  split at hstage
  · rename_i x hx
    suffices hcases : (∀ c, fault ≠ .endlessQuery c) ∧
        (stage = .own (.reject fault) ∨ stage.slot ≠ .plain) from
      ⟨hcases.1, x, hx, stage, hstage, hpart, hcases.2⟩
    cases stage with
    | own s =>
        obtain rfl : Step.reject fault = s := by simpa [stageParts] using hpart
        refine ⟨?_, Or.inl rfl⟩
        rintro c rfl
        cases x <;>
          simp [nodeStages, block, blockBody, inScope, assignments, visitAll, visitOption]
            at hstage
    | visit child | query correlated child => simp [stageParts] at hpart
    | order columns item =>
        simp only [stageParts, orderItem] at hpart
        split at hpart
        · split at hpart <;> simp at hpart
        · simp at hpart
    | assign child =>
        refine ⟨?_, Or.inr Slot.noConfusion⟩
        rintro c rfl
        simp only [stageParts, assignment] at hpart
        split at hpart
        · split at hpart <;> simp at hpart
        · simp at hpart
    | store clause =>
        refine ⟨?_, Or.inr Slot.noConfusion⟩
        rintro c rfl
        simp only [stageParts, into] at hpart
        split at hpart <;> simp at hpart
    | declareType name type initializer =>
        refine ⟨?_, Or.inr Slot.noConfusion⟩
        rintro c rfl
        simp only [stageParts, declaredType] at hpart
        split at hpart <;> simp at hpart
  · cases hstage

/-- Reasons that a tree shows do not include a query that contains itself. -/
theorem Refusal.ne_endlessQuery (h : Refusal tree limit depth n fault) (c : NodeId) :
    fault ≠ .endlessQuery c := by
  cases h with
  | nesting => exact StructureFault.noConfusion
  | misplaced hm hfault => exact (reject_mem_parts_cases hfault).1 c

/-- A node that belongs where it stands does not refuse the tree. -/
theorem reject_not_mem_parts {root : NodeId} (hplaced : tree.WellPlaced root)
    (hn : tree.Reaches root n) (hplain : tree.slotOf n = .plain) :
    Part.step (.reject fault) ∉ parts tree n := by
  intro h
  obtain ⟨-, x, hx, stage, hstage, hpart, rfl | hne⟩ := reject_mem_parts_cases h
  · have hne := slot_ne_plain_of_own_reject hstage
    simp [Tree.slotOf, hx, hne] at hplain
  · have hslot : ∀ c, stage.child? = some c → tree.slotOf c = stage.slot := fun c hc =>
      hplaced.placed n x hn hx _ c (nodeStages_slots n x stage hstage c hc)
    cases stage with
    | own | visit | query | order => exact hne rfl
    | assign child =>
        obtain ⟨column, initializer, hset⟩ := Tree.exists_of_slotOf_assignment (hslot child rfl)
        have hholds : tree.Holds n child := nodeStages_holds hx _ hstage child rfl
        obtain ⟨identifier, hcolumn⟩ :=
          hplaced.assigned child column initializer (hn.tail hholds) hset
        simp [stageParts, assignment, hset, hcolumn] at hpart
    | store clause =>
        obtain ⟨target, hclause⟩ := Tree.exists_of_slotOf_store (hslot clause rfl)
        simp [stageParts, into, hclause] at hpart
    | declareType name type initializer =>
        obtain ⟨typeName, htype⟩ := Tree.exists_of_slotOf_type (hslot type rfl)
        simp [stageParts, declaredType, htype] at hpart

/-- **Well-placed trees are not refused** if they are nested no deeper than the
limit. -/
theorem walk_legal {root : NodeId} (hground : tree.Grounded root) (hplaced : tree.WellPlaced root)
    (hroot : tree.slotOf root = .plain)
    (hnesting : ∀ way, List.IsChain tree.Holds (root :: way) → (root :: way).length ≤ limit) :
    Legal (tree.walk limit root) := by
  intro fault h
  cases steps_refusal hground h with
  | nesting m hway hlong =>
      have hle := hnesting _ hway
      rw [List.length_cons] at hle
      omega
  | @misplaced m _ hm hfault =>
      have hreach : ∀ {m}, Relation.ReflTransGen tree.LeadsTo root m → tree.Reaches root m := by
        intro m hm
        induction hm with
        | refl => exact .refl
        | tail _ hc ih => exact ih.trans hc.reaches
      have hplain : tree.slotOf m = .plain := by
        rcases (Relation.ReflTransGen.cases_tail_iff _ _ _).1 hm with rfl | ⟨p, hp, hc⟩
        · exact hroot
        · exact hplaced.slotOf_of_leadsTo (hreach hp) hc
      exact reject_not_mem_parts hplaced (hreach hm) hplain hfault

end Walk

end UnionScript
