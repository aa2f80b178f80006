import UnionScript.Proofs.Walk.Refusal
import UnionScript.Walk.Follow

/-!
# Levels of nesting

The walk over a part goes on with the parts of that part, and with theirs, and so on
down.  Of the parts on such a way, only the nodes that are visited by themselves are
levels of nesting.  What stands in the place of a query is none, however many blocks,
unions and groups it is made of.

* `Walk.exists_reject_of_way` — a way with more levels than allowed refuses the tree;
* `Walk.exists_way_of_nesting` — nothing else refuses it for its nesting;
* `Walk.follow_cut` — a lower limit cuts a walk short or changes nothing.
-/

namespace UnionScript

/-- The part is a visit of a node by itself. -/
def Part.isVisit : Part → Bool
  | .visit _ => true
  | .step _ | .query _ _ => false

/-- Faults of a node that does not belong where it stands. -/
def StructureFault.isMisplaced : StructureFault → Bool
  | .typeOutsideDeclare _ | .declareWithoutType _ | .setOutsideUpdate _ | .expectedSet _
  | .setTargetNotColumn _ | .intoOutsideQuery _ | .expectedInto _ => true
  | _ => false

namespace Walk

/-- The walk over a part goes on with another part. -/
inductive GoesOn (tree : Tree) : Part → Part → Prop
  | visit {n : NodeId} {part : Part} (h : part ∈ parts tree n) : GoesOn tree (.visit n) part
  | query {correlated : Bool} {n : NodeId} {part : Part}
      (h : part ∈ queryParts tree correlated n) : GoesOn tree (.query correlated n) part

/-- The number of levels on a way down. -/
def levels (way : List Part) : Nat :=
  way.countP Part.isVisit

variable {tree : Tree} {limit depth fuel : Nat} {n : NodeId} {fault : StructureFault}

@[simp]
theorem levels_visit (n : NodeId) (way : List Part) :
    levels (.visit n :: way) = levels way + 1 :=
  List.countP_cons_of_pos rfl

@[simp]
theorem levels_query (correlated : Bool) (n : NodeId) (way : List Part) :
    levels (.query correlated n :: way) = levels way :=
  List.countP_cons_of_neg Bool.false_ne_true

/-- Each of the nodes on a way of visits is a level. -/
theorem levels_map_visit (way : List NodeId) : levels (way.map .visit) = way.length := by
  induction way with
  | nil => rfl
  | cons n way ih => rw [List.map_cons, levels_visit, ih, List.length_cons]

/-- The steps of a part, within a depth and a number of links. -/
def partSteps (tree : Tree) (limit depth fuel : Nat) : Part → List Step :=
  expand (steps tree limit depth) (querySteps tree (steps tree limit depth) fuel)

/-- **Too many levels.**  A way with more levels than are left refuses the tree, unless
it is refused on the way. -/
theorem exists_reject_of_way (fuel : Nat) {part : Part} {way : List Part}
    (hway : List.IsChain (GoesOn tree) (part :: way)) (hdeep : depth < levels (part :: way)) :
    ∃ fault, Step.reject fault ∈ partSteps tree limit depth fuel part := by
  induction way generalizing part depth fuel with
  | nil =>
      cases part with
      | visit n =>
          obtain rfl : depth = 0 := Nat.lt_one_iff.1 hdeep
          exact ⟨.nesting limit n, List.mem_singleton_self _⟩
      | step s => exact absurd hdeep (Nat.not_lt_zero depth)
      | query correlated n => exact absurd hdeep (Nat.not_lt_zero depth)
  | cons next way ih =>
      obtain ⟨hnext, hrest⟩ := List.isChain_cons_cons.1 hway
      cases hnext with
      | @visit n _ hmem =>
          cases depth with
          | zero => exact ⟨.nesting limit n, List.mem_singleton_self _⟩
          | succ depth =>
              rw [levels_visit, Nat.succ_lt_succ_iff] at hdeep
              obtain ⟨fault, hfault⟩ := ih (queryFuel tree) hrest hdeep
              exact ⟨fault, List.mem_flatMap.2 ⟨next, hmem, hfault⟩⟩
      | @query correlated n _ hmem =>
          cases fuel with
          | zero => exact ⟨.endlessQuery n, List.mem_singleton_self _⟩
          | succ fuel =>
              rw [levels_query] at hdeep
              obtain ⟨fault, hfault⟩ := ih fuel hrest hdeep
              exact ⟨fault, List.mem_flatMap.2 ⟨next, hmem, hfault⟩⟩

/-- A stage refuses the tree by itself, or since a slot holds what does not belong
there. -/
theorem isMisplaced_of_mem_stageParts {stage : Stage}
    (h : Part.step (.reject fault) ∈ stageParts tree n stage) :
    stage = .own (.reject fault) ∨ fault.isMisplaced := by
  cases stage with
  | own s =>
      obtain rfl : Step.reject fault = s := by simpa [stageParts] using h
      exact Or.inl rfl
  | visit child | query correlated child => simp [stageParts] at h
  | order columns item =>
      simp only [stageParts, orderItem] at h
      split at h
      · split at h <;> simp at h
      · simp at h
  | assign child =>
      right
      simp only [stageParts, assignment] at h
      split at h
      · split at h
        · simp at h
        · obtain rfl : fault = _ := by simpa using h
          rfl
      · obtain rfl : fault = _ := by simpa using h
        rfl
  | store clause =>
      right
      simp only [stageParts, into] at h
      split at h
      · simp at h
      · obtain rfl : fault = _ := by simpa using h
        rfl
  | declareType name type initializer =>
      right
      simp only [stageParts, declaredType] at h
      split at h
      · simp at h
      · obtain rfl : fault = _ := by simpa using h
        rfl

/-- The walk over a node refuses the tree by itself only for what does not belong where
it stands. -/
theorem isMisplaced_of_mem_parts (h : Part.step (.reject fault) ∈ parts tree n) :
    fault.isMisplaced := by
  obtain ⟨stage, hstage, hpart⟩ := List.mem_flatMap.1 h
  rcases isMisplaced_of_mem_stageParts hpart with rfl | hmisplaced
  · unfold stages at hstage
    split at hstage
    · rename_i x hx
      cases x <;>
        simp [nodeStages, block, blockBody, inScope, assignments, visitAll, visitOption]
          at hstage <;>
        subst hstage <;> rfl
    · cases hstage
  · exact hmisplaced

/-- So does the walk over what stands in the place of a query. -/
theorem isMisplaced_of_mem_queryParts {correlated : Bool}
    (h : Part.step (.reject fault) ∈ queryParts tree correlated n) : fault.isMisplaced := by
  obtain ⟨stage, hstage, hpart⟩ := List.mem_flatMap.1 h
  rcases queryStages_subset tree correlated n with hself | hstages
  · rw [hself, List.mem_singleton] at hstage
    subst hstage
    simp [stageParts] at hpart
  · rcases hstages stage hstage with hown | ⟨s, rfl, hs⟩ | ⟨c, rfl, -⟩
    · exact isMisplaced_of_mem_parts (List.mem_flatMap.2 ⟨stage, hown, hpart⟩)
    · obtain rfl : Step.reject fault = s := by simpa [stageParts] using hpart
      exact (hs fault rfl).elim
    · simp [stageParts] at hpart

/-- A way down to the visit of a node, with a number of levels. -/
structure WayTo (tree : Tree) (part : Part) (m : NodeId) (count : Nat) (way : List Part) :
    Prop where
  chain : List.IsChain (GoesOn tree) (part :: way)
  last : (part :: way).getLast? = some (.visit m)
  levels : levels (part :: way) = count

/-- A way may begin with one part more. -/
theorem WayTo.cons {part next : Part} {m : NodeId} {count : Nat} {way : List Part}
    (h : WayTo tree next m count way) (hnext : GoesOn tree part next) :
    WayTo tree part m (count + if part.isVisit then 1 else 0) (next :: way) where
  chain := List.isChain_cons_cons.2 ⟨hnext, h.chain⟩
  last := by rw [List.getLast?_cons_cons, h.last]
  levels := by
    rw [Walk.levels, List.countP_cons]
    exact congrArg (· + _) h.levels

/-- A query refuses the tree for its nesting where a visit in it does. -/
theorem exists_way_of_nesting_in_query {visit : NodeId → List Step} {limit' count : Nat}
    {m : NodeId} {correlated : Bool}
    (hvisit : ∀ c, Step.reject (.nesting limit' m) ∈ visit c →
      limit' = limit ∧ ∃ way, WayTo tree (.visit c) m count way)
    (h : Step.reject (.nesting limit' m) ∈ querySteps tree visit fuel correlated n) :
    limit' = limit ∧ ∃ way, WayTo tree (.query correlated n) m count way := by
  induction fuel generalizing correlated n with
  | zero => cases List.mem_singleton.1 h
  | succ fuel ih =>
      obtain ⟨part, hpart, hmem⟩ := List.mem_flatMap.1 h
      cases part with
      | step s =>
          obtain rfl : Step.reject _ = s := List.mem_singleton.1 hmem
          cases isMisplaced_of_mem_queryParts hpart
      | visit c =>
          obtain ⟨hlimit, way, hway⟩ := hvisit c hmem
          exact ⟨hlimit, _, hway.cons (.query hpart)⟩
      | query correlated' c =>
          obtain ⟨hlimit, way, hway⟩ := ih hmem
          exact ⟨hlimit, _, hway.cons (.query hpart)⟩

/-- **Nesting has a way.**  A walk refuses the tree for its nesting at the end of a way
that has one level more than are allowed. -/
theorem exists_way_of_nesting {m : NodeId} {limit' : Nat}
    (h : Step.reject (.nesting limit' m) ∈ steps tree limit depth n) :
    limit' = limit ∧ ∃ way, WayTo tree (.visit n) m (depth + 1) way := by
  induction depth generalizing n with
  | zero =>
      cases List.mem_singleton.1 h
      exact ⟨rfl, [], List.IsChain.singleton _, rfl, rfl⟩
  | succ depth ih =>
      obtain ⟨part, hpart, hmem⟩ := List.mem_flatMap.1 h
      cases part with
      | step s =>
          obtain rfl : Step.reject _ = s := List.mem_singleton.1 hmem
          cases isMisplaced_of_mem_parts hpart
      | visit c =>
          obtain ⟨hlimit, way, hway⟩ := ih hmem
          exact ⟨hlimit, _, hway.cons (.visit hpart)⟩
      | query correlated c =>
          obtain ⟨hlimit, way, hway⟩ := exists_way_of_nesting_in_query (fun _ => ih) hmem
          exact ⟨hlimit, _, hway.cons (.visit hpart)⟩

end Walk

/-- Where steps lead to under a limit: to the same as without it, unless the limit is
exceeded. -/
def Outcome.CutBy (limit : Nat) (cut full : Outcome) : Prop :=
  cut = full ∨ ∃ m, cut = .malformed (.nesting limit m)

/-- Steps that a limit cuts short or leaves alone, one after the other. -/
theorem Outcome.CutBy.andThen {limit : Nat} {cut full : Outcome} {next next' : Progress → Outcome}
    (h : cut.CutBy limit full) (hnext : ∀ p, (next p).CutBy limit (next' p)) :
    (cut.andThen next).CutBy limit (full.andThen next') := by
  rcases h with rfl | ⟨m, rfl⟩
  · cases cut with
    | finished p => exact hnext p
    | schemaFailed p detail => exact Or.inl rfl
    | malformed fault => exact Or.inl rfl
  · exact Or.inr ⟨m, rfl⟩

namespace Walk

variable {s : Surroundings} {limit : Nat}

theorem followAll_cut {follow follow' : Part → Progress → Outcome}
    (h : ∀ part p, (follow part p).CutBy limit (follow' part p)) (parts : List Part)
    (p : Progress) : (followAll follow parts p).CutBy limit (followAll follow' parts p) := by
  induction parts generalizing p with
  | nil => exact Or.inl rfl
  | cons part rest ih => exact (h part p).andThen ih

section

variable {visit visit' : NodeId → Progress → Outcome}
  (hvisit : ∀ n p, (visit n p).CutBy limit (visit' n p))

include hvisit

theorem followPart_cut {query query' : Bool → NodeId → Progress → Outcome}
    (hquery : ∀ c n p, (query c n p).CutBy limit (query' c n p)) (part : Part) (p : Progress) :
    (followPart s visit query part p).CutBy limit (followPart s visit' query' part p) := by
  cases part with
  | step step => exact Or.inl rfl
  | visit n => exact hvisit n p
  | query correlated n => exact hquery correlated n p

theorem followQuery_cut (fuel : Nat) (correlated : Bool) (n : NodeId) (p : Progress) :
    (followQuery s visit fuel correlated n p).CutBy limit
      (followQuery s visit' fuel correlated n p) := by
  induction fuel generalizing correlated n p with
  | zero => exact Or.inl rfl
  | succ fuel ih => exact followAll_cut (followPart_cut hvisit ih) _ p

end

/-- **Lower limits only cut.**  With fewer levels left, a walk leads to where it leads
with more of them, or its limit is exceeded. -/
theorem follow_cut {limit' depth depth' : Nat} (hdepth : depth ≤ depth') (n : NodeId)
    (p : Progress) : (follow s limit depth n p).CutBy limit (follow s limit' depth' n p) := by
  induction depth generalizing depth' n p with
  | zero => exact Or.inr ⟨n, rfl⟩
  | succ depth ih =>
      cases depth' with
      | zero => exact absurd hdepth (Nat.not_succ_le_zero depth)
      | succ depth' =>
          have hvisit : ∀ n p, (follow s limit depth n p).CutBy limit
              (follow s limit' depth' n p) := fun n p => ih (Nat.le_of_succ_le_succ hdepth) n p
          exact followAll_cut (followPart_cut hvisit (followQuery_cut hvisit _)) _ p

end Walk

end UnionScript
