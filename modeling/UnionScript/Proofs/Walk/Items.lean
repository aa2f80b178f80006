import UnionScript.Proofs.Syntax.Script
import UnionScript.Proofs.Walk.Tidy

/-!
# The walk over a flat script

The walk over a flat script goes through its items in turn (`steps_script`).
What matters about the walk over an item for the names of tables are facts about
lists of steps, and hold before anything is run:

* in a statement, common tables are defined where no scope of its own is open,
  no other statement is entered and nothing is declared (`Statement`,
  `steps_statement`);
* in the initializer of a declaration no common table is defined, and rows are
  stored only right before a scope is left (`Tidy`, `Initializer`,
  `steps_declaration`).
-/

namespace UnionScript

namespace Walk

/-- Common tables are defined where no scope is open that the steps entered. -/
def Surfaces (l : List Step) : Prop :=
  ∀ first n name rest, l = first ++ .defineTable n name :: rest → Balanced first

/-- The steps in the scope of a statement that has no items in it. -/
structure Statement (l : List Step) : Prop where
  balanced : Balanced l
  surfaces : Surfaces l
  inner : ∀ owner kind correlated, Step.enter owner kind correlated ∈ l →
    kind.isStatement = false
  declares_nothing : ∀ n typeName name initializer,
    Step.declare n typeName name initializer ∉ l

/-- The steps of the initializer of a declaration that has no items in it. -/
structure Initializer (l : List Step) : Prop where
  tidy : Tidy l
  inner : ∀ owner kind correlated, Step.enter owner kind correlated ∈ l →
    kind.isStatement = false
  declares_nothing : ∀ n typeName name initializer,
    Step.declare n typeName name initializer ∉ l
  defines_nothing : ∀ n name, Step.defineTable n name ∉ l

variable {l l' : List Step}

/-- Where no common table is defined there is nothing to show. -/
theorem surfaces_of_not_mem (h : ∀ n name, Step.defineTable n name ∉ l) : Surfaces l := by
  rintro first n name rest rfl
  exact (h n name (by simp)).elim

theorem Surfaces.append (hbalanced : Balanced l) (h : Surfaces l) (h' : Surfaces l') :
    Surfaces (l ++ l') := by
  intro first n name rest heq
  rcases List.append_eq_append_iff.1 heq with ⟨more, rfl, hl'⟩ | ⟨more, hl, hrest⟩
  · exact .append hbalanced (h' more n name rest hl')
  · cases more with
    | nil =>
        rw [List.append_nil] at hl
        exact hl ▸ hbalanced
    | cons step more =>
        obtain ⟨rfl, -⟩ := List.cons.inj hrest
        exact h first n name more hl

theorem Surfaces.flatMap {α : Type} {nodes : List α} {f : α → List Step}
    (hbalanced : ∀ a ∈ nodes, Balanced (f a)) (h : ∀ a ∈ nodes, Surfaces (f a)) :
    Surfaces (nodes.flatMap f) := by
  induction nodes with
  | nil => exact surfaces_of_not_mem (by simp)
  | cons a rest ih =>
      rw [List.forall_mem_cons] at hbalanced h
      rw [List.flatMap_cons]
      exact .append hbalanced.1 h.1 (ih hbalanced.2 h.2)

section

variable {tree : Tree} {limit depth : Nat} {n : NodeId}

/-- The steps of a stage of the walk over a node. -/
def stageSteps (tree : Tree) (limit depth : Nat) (n : NodeId) (stage : Stage) : List Step :=
  (stageParts tree n stage).flatMap (expand (steps tree limit depth)
    (querySteps tree (steps tree limit depth) (queryFuel tree)))

theorem stageSteps_spells (limit depth : Nat) (n : NodeId) (stage : Stage) :
    Spells tree n stage (stageSteps tree limit depth n stage) :=
  stageParts_spells (steps_spells limit depth) (querySteps_spells (steps_spells limit depth) _)
    n stage

theorem stageSteps_balanced (limit depth : Nat) (n : NodeId) {stage : Stage}
    (hquiet : stage.isQuiet) : Balanced (stageSteps tree limit depth n stage) :=
  stageParts_balanced (steps_balanced tree limit depth)
    (querySteps_balanced (steps_balanced tree limit depth) _) n hquiet

/-- The walk over a node goes through its stages in turn. -/
theorem steps_eq_flatMap {x : Node} (hn : tree.get? n = some x) :
    steps tree limit (depth + 1) n =
      (nodeStages n x).flatMap (stageSteps tree limit depth n) := by
  simp only [steps, parts, stages, hn, List.flatMap_assoc]
  rfl

theorem flatMap_inScope (owner : NodeId) (kind : NodeKind) (correlated : Bool)
    (body : List Stage) :
    (inScope owner kind correlated body).flatMap (stageSteps tree limit depth n) =
      .enter owner kind correlated ::
        (body.flatMap (stageSteps tree limit depth n) ++ [.leave]) := by
  simp [inScope, stageSteps, stageParts, expand]

theorem flatMap_visitAll (nodes : List NodeId) :
    (visitAll nodes).flatMap (stageSteps tree limit depth n) =
      nodes.flatMap (steps tree limit depth) := by
  simp [visitAll, stageSteps, stageParts, expand, List.flatMap_map]

/-- **Items in turn.**  The walk over a script goes through its items in the
scope of the script. -/
theorem steps_script {items : List NodeId} (hn : tree.get? n = some (.script items)) :
    steps tree limit (depth + 1) n =
      .enter n .script false :: (items.flatMap (steps tree limit depth) ++ [.leave]) := by
  rw [steps_eq_flatMap hn, nodeStages, flatMap_inScope, flatMap_visitAll]

theorem steps_commonTables {tables : List NodeId}
    (hn : tree.get? n = some (.commonTables tables)) :
    steps tree limit (depth + 1) n = tables.flatMap (steps tree limit depth) := by
  rw [steps_eq_flatMap hn, nodeStages, flatMap_visitAll]

theorem steps_commonTable {name : String} {query : NodeId}
    (hn : tree.get? n = some (.commonTable name query)) :
    steps tree limit (depth + 1) n =
      .defineTable n name ::
        querySteps tree (steps tree limit depth) (queryFuel tree) false query := by
  rw [steps_eq_flatMap hn]
  simp [nodeStages, stageSteps, stageParts, expand]

/-- The common tables that are defined by a walk stand below. -/
theorem commonTable_of_mem {owner c : NodeId} {stage : Stage} {name : String}
    (h : Spells tree owner stage l) (hstage : stage.Fits tree owner)
    (hmem : Step.defineTable c name ∈ l) :
    (∃ query, tree.get? c = some (.commonTable name query)) ∧
      ∃ top, stage.subject? = some top ∧ tree.Reaches top c :=
  ⟨h.fits hstage _ hmem, h.reaches hmem rfl⟩

/-- **Common tables surface.**  The walk over what stands in the clause of a
statement for common tables defines them where it has no scope open. -/
theorem surfaces_of_inWithClause (hshape : tree.TreeShaped) {item : NodeId}
    (hitem : tree.Grounded item)
    (honly : ∀ c name query, tree.Reaches item c →
      tree.get? c = some (.commonTable name query) → tree.InWithClause item c)
    (hn : tree.InWithClause item n) : Surfaces (steps tree limit depth n) := by
  induction depth generalizing n with
  | zero => exact surfaces_of_not_mem (by simp [steps])
  | succ depth ih =>
      by_cases hlist : ∃ tables, tree.get? n = some (.commonTables tables)
      · obtain ⟨tables, htables⟩ := hlist
        rw [steps_commonTables htables]
        exact .flatMap (fun c _ => steps_balanced tree limit depth c)
          fun c hc => ih (.listed hn htables hc)
      · by_cases htable : ∃ name query, tree.get? n = some (.commonTable name query)
        · -- The table itself is defined first, and there are no others below it.
          obtain ⟨name, query, hname⟩ := htable
          rw [steps_commonTable hname, ← List.singleton_append]
          have hfirst : Surfaces [.defineTable n name] := by
            intro first c name' rest heq
            rcases List.cons_eq_append_iff.1 heq with ⟨rfl, -⟩ | ⟨_, -, hempty⟩
            · exact .nil
            · simp at hempty
          refine .append (.step rfl) hfirst (surfaces_of_not_mem fun c name' hmem => ?_)
          obtain ⟨⟨inner, hc⟩, top, htop, hreach⟩ := commonTable_of_mem
            (querySteps_spells (steps_spells limit depth) _ n false query) trivial hmem
          obtain rfl : query = top := Option.some.inj htop
          have hdown : tree.Reaches n c :=
            Relation.ReflTransGen.head ⟨_, hname, by simp [Node.children]⟩ hreach
          exact hn.not_reaches hshape hitem hname
            (honly c name' inner (hn.reaches.trans hdown) hc) hreach
        · have hspells : Spells tree n (.visit n) (steps tree limit (depth + 1) n) :=
            steps_spells limit (depth + 1) n n
          refine surfaces_of_not_mem fun c name hmem => ?_
          obtain ⟨⟨query, hc⟩, top, htop, hreach⟩ := commonTable_of_mem hspells trivial hmem
          obtain rfl : n = top := Option.some.inj htop
          have hwith := honly c name query (hn.reaches.trans hreach) hc
          rcases hn.eq_or_list hshape hitem hwith hreach with rfl | hlist'
          · exact htable ⟨name, query, hc⟩
          · exact hlist hlist'

end

/-- The scope of a statement: what is visited first is its clause for common
tables, and all other stages of it are for other slots. -/
theorem nodeStages_statement (n : NodeId) {x : Node} (hx : x.kind.isStatement) :
    ∃ rest, nodeStages n x = inScope n x.kind false (visitOption x.withClause? ++ rest) ∧
      (∀ stage ∈ rest, stage.isQuiet) ∧ ∀ stage ∈ rest, stage.ownSubject? = none := by
  cases x <;> cases hx
  all_goals
    refine ⟨?_, ?stages, ?quiet, ?own⟩
    case stages =>
      simp only [nodeStages, Node.withClause?, visitOption, Option.toList_none, List.map_nil,
        List.nil_append, List.append_assoc]
      rfl
    case quiet | own =>
      simp only [assignments, List.forall_mem_append, List.forall_mem_cons, List.forall_mem_map,
        List.not_mem_nil]
      simp [Stage.isQuiet, Stage.ownSubject?, Step.subject?]

section

variable {tree : Tree} {limit depth : Nat} {root item : NodeId} {items : List NodeId}

/-- The stages of a statement but for its clause for common tables define no
common table. -/
theorem defines_nothing_of_rest (hflat : tree.FlatScript root items) (hshape : tree.TreeShaped)
    (hroot : tree.Grounded root) (hitem : item ∈ items) {x : Node}
    (hx : tree.get? item = some x) {rest : List Stage}
    (hstages : nodeStages item x =
      inScope item x.kind false (visitOption x.withClause? ++ rest))
    (hown : ∀ stage ∈ rest, stage.ownSubject? = none) {word : Stage → List Step}
    (hword : ∀ stage, Spells tree item stage (word stage)) (n : NodeId) (name : String) :
    Step.defineTable n name ∉ rest.flatMap word := by
  intro hmem
  obtain ⟨stage, hstage, hmem⟩ := List.mem_flatMap.1 hmem
  have hstage' : stage ∈ nodeStages item x := by simp [hstages, inScope, hstage]
  obtain ⟨⟨query, hn⟩, top, htop, hreach⟩ :=
    commonTable_of_mem (hword stage) (nodeStages_fits hx stage hstage') hmem
  have hchild : stage.child? = some top := by
    simpa [Stage.subject?, hown stage hstage] using htop
  have hholds : tree.Holds item top := nodeStages_holds hx stage hstage' top hchild
  -- The table is below the clause for common tables too, so this stage is for that clause.
  have hwith := hflat.inWithClause hshape hroot hitem
    (Relation.ReflTransGen.head hholds hreach) hn
  obtain ⟨y, w, hy, hw, hbelow⟩ := hwith.exists_slot
  obtain rfl : x = y := Option.some.inj (hx.symm.trans hy)
  have hground : tree.Grounded item := hroot.inv (hflat.holds hitem)
  obtain rfl : top = w := hshape.apart hground hholds
    ⟨x, hx, Node.withClause?_mem_children hw⟩ hreach hbelow
  rcases nodeStages_traverse item x with ⟨fault, hreject⟩ | htraverse
  · simp [hstages, inScope] at hreject
  · have hnodup : (slots (nodeStages item x)).Nodup :=
      htraverse.slots_perm.nodup_iff.2 (hshape.children_nodup hx)
    have htwice : top ∈ slots rest := List.mem_filterMap.2 ⟨stage, hstage, hchild⟩
    simp [hstages, inScope, visitOption, hw, Stage.child?, htwice] at hnodup

/-- The steps are about nodes that stand below an item, and fit them. -/
def Below (tree : Tree) (item : NodeId) (l : List Step) : Prop :=
  ∀ step ∈ l, step.Fits tree ∧ ∀ m, step.subject? = some m → tree.Reaches item m ∧ m ≠ item

/-- Steps below an item enter no statement. -/
theorem Below.inner (h : Below tree item l) (hflat : tree.FlatScript root items)
    (hshape : tree.TreeShaped) (hroot : tree.Grounded root) (hitem : item ∈ items)
    {owner : NodeId} {kind : NodeKind} {correlated : Bool}
    (hmem : Step.enter owner kind correlated ∈ l) : kind.isStatement = false := by
  obtain ⟨⟨-, y, hy, rfl⟩, hbelow⟩ := h _ hmem
  obtain ⟨hreach, hne⟩ := hbelow owner rfl
  refine Bool.eq_false_iff.2 fun hstatement => hne ?_
  refine hflat.eq_of_isItem hshape hroot hitem hreach hy ?_
  simp [NodeKind.isItem, hstatement]

/-- What is declared below an item is declared by the item itself. -/
theorem Below.declare (h : Below tree item l) (hflat : tree.FlatScript root items)
    (hshape : tree.TreeShaped) (hroot : tree.Grounded root) (hitem : item ∈ items) {n : NodeId}
    {typeName name : String} {initializer : Option NodeId}
    (hmem : Step.declare n typeName name initializer ∈ l) :
    tree.get? item = some (.declare name n initializer) := by
  obtain ⟨⟨-, d, hd⟩, hbelow⟩ := h _ hmem
  obtain ⟨hreach, hne⟩ := hbelow n rfl
  rcases (Relation.ReflTransGen.cases_tail_iff _ _ _).1 hreach with heq | ⟨m, hm, hmn⟩
  · exact (hne heq).elim
  · obtain rfl : m = d := hshape.parent_unique hmn ⟨_, hd, by simp [Node.children]⟩
    obtain rfl := hflat.eq_of_isItem hshape hroot hitem hm hd rfl
    exact hd

/-- The steps in the scope of an item are about nodes below it. -/
theorem below_of_scope {kind : NodeKind} {correlated : Bool} {body : List Step}
    (hspells : Spells tree item (.visit item) (.enter item kind correlated :: (body ++ [.leave])))
    (hnodup : (subjects (.enter item kind correlated :: (body ++ [.leave]))).Nodup) :
    Below tree item body := by
  intro step hmem
  refine ⟨hspells.fits trivial step (by simp [hmem]), fun m hm => ?_⟩
  refine ⟨hspells.reaches_of_visit (by simp [hmem]) hm, ?_⟩
  rintro rfl
  have htwice : m ∈ subjects body := mem_subjects.2 ⟨step, hmem, hm⟩
  simp only [subjects, List.filterMap_cons, Step.subject?, List.filterMap_append,
    List.nodup_cons] at hnodup
  exact hnodup.1 (List.mem_append_left _ htwice)

/-- The clause of a statement for common tables, and then the rest. -/
theorem surfaces_of_statement (hflat : tree.FlatScript root items) (hshape : tree.TreeShaped)
    (hroot : tree.Grounded root) (hitem : item ∈ items) {x : Node}
    (hx : tree.get? item = some x) {rest : List Stage}
    (hstages : nodeStages item x =
      inScope item x.kind false (visitOption x.withClause? ++ rest))
    (hown : ∀ stage ∈ rest, stage.ownSubject? = none) :
    Surfaces ((visitOption x.withClause? ++ rest).flatMap
      (stageSteps tree limit depth item)) := by
  have hrest : Surfaces (rest.flatMap (stageSteps tree limit depth item)) :=
    surfaces_of_not_mem fun n name => defines_nothing_of_rest hflat hshape hroot hitem hx hstages
      hown (stageSteps_spells limit depth item) n name
  rw [List.flatMap_append]
  cases hw : x.withClause? with
  | none => exact hrest
  | some w =>
      have hground : tree.Grounded item := hroot.inv (hflat.holds hitem)
      have hwith : Surfaces (steps tree limit depth w) :=
        surfaces_of_inWithClause hshape hground
          (fun c name query hreach hc => hflat.inWithClause hshape hroot hitem hreach hc)
          (.slot hx hw)
      have hword : (visitOption (some w)).flatMap (stageSteps tree limit depth item) =
          steps tree limit depth w := by
        simp [visitOption, stageSteps, stageParts, expand]
      rw [hword]
      exact .append (steps_balanced tree limit depth w) hwith hrest

/-- **Statements.**  The walk over a statement of a flat script stands in the
scope of the statement. -/
theorem steps_statement (hflat : tree.FlatScript root items) (hshape : tree.TreeShaped)
    (hroot : tree.Grounded root) (hitem : item ∈ items) {x : Node}
    (hx : tree.get? item = some x) (hkind : x.kind.isStatement)
    (hlegal : Legal (steps tree limit depth item)) :
    ∃ body, steps tree limit depth item = .enter item x.kind false :: (body ++ [.leave]) ∧
      Statement body := by
  cases depth with
  | zero => exact (hlegal _ (List.mem_singleton_self _)).elim
  | succ depth =>
      have hspells : Spells tree item (.visit item) (steps tree limit (depth + 1) item) :=
        steps_spells limit (depth + 1) item item
      have hnodup := (hspells.covers hlegal rfl).nodup hshape
      obtain ⟨rest, hstages, hquiet, hown⟩ := nodeStages_statement item hkind
      have hsteps : steps tree limit (depth + 1) item = .enter item x.kind false ::
          ((visitOption x.withClause? ++ rest).flatMap (stageSteps tree limit depth item) ++
            [.leave]) := by
        rw [steps_eq_flatMap hx, hstages, flatMap_inScope]
      rw [hsteps] at hspells hnodup
      have hbelow := below_of_scope hspells hnodup
      refine ⟨_, hsteps, ?_, surfaces_of_statement hflat hshape hroot hitem hx hstages hown,
        fun _ _ _ => hbelow.inner hflat hshape hroot hitem, fun n typeName name init hmem => ?_⟩
      · refine .flatMap fun stage hstage => stageSteps_balanced limit depth item ?_
        rcases List.mem_append.1 hstage with hclause | hrest
        · obtain ⟨w, -, rfl⟩ := List.mem_map.1 hclause
          rfl
        · exact hquiet stage hrest
      · have hdeclare := hbelow.declare hflat hshape hroot hitem hmem
        cases hx.symm.trans hdeclare
        cases hkind

end

section

variable {tree : Tree} {limit depth : Nat} {root item type : NodeId} {items : List NodeId}
  {name : String} {initializer : Option NodeId}

/-- The type of a declaration is one step. -/
theorem Spells.declareType_eq (h : Spells tree item (.declareType name type initializer) l)
    (hl : Legal l) : ∃ typeName, l = [.declare type typeName name initializer] := by
  cases h with
  | declareType _ _ _ htype => exact ⟨_, rfl⟩
  | reject _ _ fault => exact (hl fault (List.mem_singleton_self _)).elim

/-- The walk over a declaration goes through its initializer, and then declares the
variable. -/
theorem steps_declare (hx : tree.get? item = some (.declare name type initializer))
    (hlegal : Legal (steps tree limit (depth + 1) item)) :
    ∃ typeName, steps tree limit (depth + 1) item =
      (initializer.toList.map (Stage.query false)).flatMap (stageSteps tree limit depth item) ++
        [.declare type typeName name initializer] := by
  rw [steps_eq_flatMap hx, nodeStages, List.flatMap_append, List.flatMap_singleton] at hlegal ⊢
  obtain ⟨typeName, htype⟩ :=
    (stageSteps_spells limit depth item (.declareType name type initializer)).declareType_eq
      fun fault hmem => hlegal fault (List.mem_append_right _ hmem)
  exact ⟨typeName, by rw [htype]⟩

/-- The steps of a query in a slot of an item are about nodes below the item. -/
theorem below_of_query (hitem : tree.Grounded item) {query : NodeId}
    (hquery : tree.Holds item query) :
    Below tree item (stageSteps tree limit depth item (.query false query)) := by
  have hspells : Spells tree item (.query false query) _ :=
    stageSteps_spells limit depth item (.query false query)
  intro step hmem
  refine ⟨hspells.fits trivial step hmem, fun m hm => ?_⟩
  obtain ⟨top, htop, hreach⟩ := hspells.reaches hmem hm
  obtain rfl : query = top := Option.some.inj htop
  refine ⟨Relation.ReflTransGen.head hquery hreach, ?_⟩
  rintro rfl
  exact hitem.not_reaches_parent hquery hreach

variable (hflat : tree.FlatScript root items) (hshape : tree.TreeShaped)
  (hroot : tree.Grounded root) (hitem : item ∈ items)
  (hx : tree.get? item = some (.declare name type initializer))

include hflat hshape hroot hitem hx

/-- Tidy steps below a declaration, none of which is about its type. -/
theorem initializer_of_below (htidy : Tidy l) (hbelow : Below tree item l)
    (htype : type ∉ subjects l) : Initializer l := by
  refine ⟨htidy, fun _ _ _ => hbelow.inner hflat hshape hroot hitem, ?_, ?_⟩
  · intro n typeName name' initializer' hmem
    have hdeclare := hbelow.declare hflat hshape hroot hitem hmem
    cases hx.symm.trans hdeclare
    exact htype (mem_subjects.2 ⟨_, hmem, rfl⟩)
  · intro n name' hmem
    obtain ⟨⟨query, hn⟩, hreach⟩ := hbelow _ hmem
    have hwith := hflat.inWithClause hshape hroot hitem (hreach n rfl).1 hn
    obtain ⟨x, w, hx', hw, -⟩ := hwith.exists_slot
    cases hx.symm.trans hx'
    cases hw

/-- The walk over an initializer is tidy, since there are no outputs in it. -/
theorem initializer_tidy {query : NodeId} (hquery : tree.Holds item query)
    (hlegal : Legal (stageSteps tree limit depth item (.query false query))) :
    Tidy (stageSteps tree limit depth item (.query false query)) := by
  refine (stageSteps_spells limit depth item _).tidy hlegal rfl rfl ?_
  intro top htop m hm
  obtain rfl : query = top := Option.some.inj htop
  exact hflat.no_output hshape hroot hitem hx (Relation.ReflTransGen.head hquery hm)

/-- **Declarations.**  The walk over a declaration of a flat script goes through
the initializer and then declares the variable. -/
theorem steps_declaration (hlegal : Legal (steps tree limit depth item)) :
    ∃ body typeName,
      steps tree limit depth item = body ++ [.declare type typeName name initializer] ∧
        Initializer body := by
  cases depth with
  | zero => exact (hlegal _ (List.mem_singleton_self _)).elim
  | succ depth =>
      have hspells : Spells tree item (.visit item) (steps tree limit (depth + 1) item) :=
        steps_spells limit (depth + 1) item item
      have hnodup := (hspells.covers hlegal rfl).nodup hshape
      obtain ⟨typeName, hsteps⟩ := steps_declare hx hlegal
      rw [hsteps] at hlegal hnodup ⊢
      rw [subjects, List.filterMap_append] at hnodup
      refine ⟨_, typeName, rfl, ?_⟩
      have hquery : ∀ stage ∈ initializer.toList.map (Stage.query false),
          ∃ query, stage = .query false query ∧ tree.Holds item query := by
        intro stage hstage
        obtain ⟨query, hmem, rfl⟩ := List.mem_map.1 hstage
        exact ⟨query, rfl, _, hx, by simp_all [Node.children]⟩
      refine initializer_of_below hflat hshape hroot hitem hx (.flatMap fun stage hstage => ?_)
        (fun step hmem => ?_) (fun hmem => ?_)
      · obtain ⟨query, rfl, hholds⟩ := hquery stage hstage
        refine initializer_tidy hflat hshape hroot hitem hx hholds fun fault hmem => ?_
        exact hlegal fault (List.mem_append_left _ (List.mem_flatMap.2 ⟨_, hstage, hmem⟩))
      · obtain ⟨stage, hstage, hmem⟩ := List.mem_flatMap.1 hmem
        obtain ⟨query, rfl, hholds⟩ := hquery stage hstage
        exact below_of_query (hroot.inv (hflat.holds hitem)) hholds step hmem
      · exact (List.nodup_append.1 hnodup).2.2 _ hmem _ (by simp [Step.subject?]) rfl

end

end Walk

end UnionScript
