import UnionScript.Proofs.Walk.Items
import UnionScript.Proofs.Walk.Precedence
import UnionScript.Proofs.Walk.Registry
import UnionScript.Proofs.Walk.Segment

/-!
# When tables become known

A walk comes to a common table before it comes to what is inside of the table, to the
tables of a list in their order, and to the clause of a statement before it comes to the
rest of the statement.  So whether a common table has been defined when a reference is
visited depends on where both stand in the statement, and on nothing else.  Rows are
stored after everything that they are made of was visited.

The order of a walk is that of the nodes its steps are about: one node is visited before
another one if the two are a sublist of these.

* `Walk.Spells.sublist_of_listedBefore`, `Walk.Spells.sublist_of_commonTable`,
  `Walk.Spells.sublist_of_outside` — the three reasons to be visited first;
* `Walk.Spells.sublist_iff_not_listedBefore` — a common table is visited before another node
  of the statement exactly if it is not listed after the table that node stands in;
* `Walk.Spells.latest?_commonTable_iff` — so the latest definition of a name before a
  reference is that of the last table that the statement offers to the reference;
* `Walk.Spells.sublist_of_store` — what a block stores is not known inside of the block.
-/

namespace UnionScript

/-- Statements have a clause for common tables. -/
theorem Node.isStatement_of_withClause? {x : Node} {w : NodeId} (h : x.withClause? = some w) :
    x.kind.isStatement := by
  cases x <;> simp [Node.withClause?] at h <;> rfl

namespace Walk

variable {tree : Tree} {owner top item n m c w query : NodeId} {x y : Node} {name : String}
  {l own rest : List Step} {step : Step}

/-- What comes in two pieces comes in their order. -/
theorem sublist_subjects_of_infix {first second : List Step} (h : first ++ second <:+: l)
    (hn : n ∈ subjects first) (hm : m ∈ subjects second) : [n, m].Sublist (subjects l) := by
  have hpair : [n, m].Sublist (subjects (first ++ second)) := by
    rw [subjects, List.filterMap_append]
    exact pair_sublist_append hn hm
  exact hpair.trans (h.sublist.filterMap _)

/-- The nodes before the step about a node are those that are visited before it. -/
theorem mem_subjects_iff_sublist (hnodup : (subjects (own ++ step :: rest)).Nodup)
    (hn : step.subject? = some n) :
    c ∈ subjects own ↔ [c, n].Sublist (subjects (own ++ step :: rest)) := by
  have hsubjects : subjects (own ++ step :: rest) = subjects own ++ n :: subjects rest := by
    simp [subjects, hn]
  rw [hsubjects] at hnodup ⊢
  constructor
  · intro hc
    exact pair_sublist_append hc List.mem_cons_self
  · intro h
    exact List.singleton_sublist.1 (sublist_of_append_singleton [c] hnodup h)

/-- Stages cover what is below the slots that they are for. -/
theorem mem_subjects_of_mem_slots {list : List Stage} {word : Stage → List Step}
    (hword : ∀ stage ∈ list, Spells tree owner stage (word stage))
    (hlegal : Legal (list.flatMap word)) (hc : c ∈ slots list) (hn : tree.Reaches c n)
    (hx : tree.get? n = some x) (hstep : x.kind.hasStep) : n ∈ subjects (list.flatMap word) := by
  have hlegal' : Legal (list.flatMap word ++ []) := by simpa using hlegal
  simpa using finished_of_mem_slots hword hlegal' hc n x hn hx hstep

section

variable (h : Spells tree owner (.visit top) l) (hlegal : Legal l)

include h hlegal

/-- **Lists in order.**  What is listed before another node is visited before it. -/
theorem Spells.sublist_of_listedBefore (hitem : tree.Reaches top item)
    (horder : tree.ListedBefore item n m) (hx : tree.get? n = some x) (hxstep : x.kind.hasStep)
    (hy : tree.get? m = some y) (hystep : y.kind.hasStep) : [n, m].Sublist (subjects l) := by
  obtain ⟨node, tables, c, d, hnode, htables, horder, hcn, hdm⟩ := horder
  obtain ⟨word, hword, hinfix⟩ := h.holds hlegal rfl (hitem.trans hnode.reaches) htables rfl
  obtain ⟨first, second, rfl, hc, hd⟩ := List.cons_sublist_iff.1 horder
  have hslots : ∀ nodes : List NodeId, slots (nodes.map .visit) = nodes :=
    slots_map (f := Stage.visit) fun _ => rfl
  simp only [nodeStages, visitAll, List.map_append, List.flatMap_append,
    List.forall_mem_append] at hword hinfix
  have hpiece := hlegal.mono hinfix.subset
  refine sublist_subjects_of_infix hinfix ?_ ?_
  · exact mem_subjects_of_mem_slots hword.1 (hpiece.mono (List.subset_append_left _ _))
      ((hslots first).symm ▸ hc) hcn hx hxstep
  · exact mem_subjects_of_mem_slots hword.2 (hpiece.mono (List.subset_append_right _ _))
      ((hslots second).symm ▸ List.singleton_sublist.1 hd) hdm hy hystep

/-- **Tables before their queries.**  A common table is visited before what is inside. -/
theorem Spells.sublist_of_commonTable (hc : tree.Reaches top c)
    (hcommon : tree.get? c = some (.commonTable name query)) (hn : tree.Reaches c n) (hne : n ≠ c)
    (hx : tree.get? n = some x) (hstep : x.kind.hasStep) : [c, n].Sublist (subjects l) := by
  obtain ⟨word, hword, hinfix⟩ := h.holds hlegal rfl hc hcommon rfl
  simp only [nodeStages, List.forall_mem_cons, List.flatMap_cons, List.flatMap_nil,
    List.append_nil] at hword hinfix
  have hpiece := hlegal.mono hinfix.subset
  have hdefine := hword.1.own_eq (hpiece.mono (List.subset_append_left _ _))
  have hquery := hword.2.1.covers (hpiece.mono (List.subset_append_right _ _)) rfl
  refine sublist_subjects_of_infix hinfix ?_ ?_
  · simp [hdefine, subjects, Step.subject?]
  · rcases (Tree.reaches_iff_of_get? hcommon).1 hn with heq | ⟨d, hd, hdn⟩
    · exact (hne heq).elim
    · obtain rfl : d = query := by simpa [Node.children] using hd
      exact hquery.complete n x hdn hx hstep

end

/-- **Clauses first.**  What is in the clause of a statement for common tables is visited
before what is outside of it. -/
theorem Spells.sublist_of_outside (h : Spells tree owner (.visit item) l) (hlegal : Legal l)
    {s : Node} (hs : tree.get? item = some s) (hw : s.withClause? = some w)
    (hc : tree.Reaches w c) (hx : tree.get? c = some x) (hxstep : x.kind.hasStep)
    (hn : tree.Reaches item n) (hne : n ≠ item) (houtside : ¬ tree.Reaches w n)
    (hy : tree.get? n = some y) (hystep : y.kind.hasStep) : [c, n].Sublist (subjects l) := by
  obtain ⟨others, hstages, -, -⟩ :=
    nodeStages_statement item (Node.isStatement_of_withClause? hw)
  have hcomplete := (h.covers hlegal rfl).complete n y hn hy hystep
  cases h with
  | reject _ _ fault => exact (hlegal fault (List.mem_singleton_self _)).elim
  | visit _ _ word hword =>
      have hsplit : stages tree item = [.own (.enter item s.kind false), .visit w] ++
          (others ++ [.own .leave]) := by
        simp [stages, hs, hstages, inScope, visitOption, hw]
      rw [hsplit, List.flatMap_append] at hlegal hcomplete ⊢
      rw [hsplit, List.forall_mem_append] at hword
      refine sublist_subjects_of_infix List.infix_rfl ?_ ?_
      · exact mem_subjects_of_mem_slots hword.1 (hlegal.mono (List.subset_append_left _ _))
          (by simp [Stage.child?]) hc hx hxstep
      · rw [subjects, List.filterMap_append, List.mem_append] at hcomplete
        refine hcomplete.resolve_left fun hfirst => ?_
        obtain ⟨step, hstep, hsubject⟩ := mem_subjects.1 hfirst
        obtain ⟨stage, hstage, hstep⟩ := List.mem_flatMap.1 hstep
        rcases List.mem_cons.1 hstage with rfl | hclause
        · rcases (hword.1 _ hstage).own_cases with heq | ⟨fault, heq⟩ <;>
            rw [heq, List.mem_singleton] at hstep <;> subst hstep
          · exact hne (Option.some.inj hsubject).symm
          · cases hsubject
        · obtain rfl := List.mem_singleton.1 hclause
          exact houtside ((hword.1 _ hstage).reaches_of_visit hstep hsubject)

/-- A clause for storing rows has no stage but the one that stores them. -/
theorem Spells.eq_store {clause : NodeId} {stage : Stage} {target : String}
    (h : Spells tree owner stage l) (hlegal : Legal l) (hchild : stage.child? = some clause)
    (hclause : tree.get? clause = some (.into target)) : stage = .store clause := by
  induction h with
  | own => cases hchild
  | visit owner m word hword ih =>
      obtain rfl := Option.some.inj hchild
      have hstages : stages tree m = [.own (.reject (.intoOutsideQuery m))] := by
        simp [stages, hclause, nodeStages]
      have hmem : .own (.reject (.intoOutsideQuery m)) ∈ stages tree m := by simp [hstages]
      have hreject := (hword _ hmem).own_eq (hlegal.of_mem_flatMap hmem)
      exact (hlegal.of_mem_flatMap hmem (.intoOutsideQuery m) (by simp [hreject])).elim
  | query owner correlated m word hword ih =>
      obtain rfl := Option.some.inj hchild
      have hstages : queryStages tree correlated m = [.visit m] := by
        simp [queryStages, hclause]
      have hmem : .visit m ∈ queryStages tree correlated m := by simp [hstages]
      cases ih _ hmem (hlegal.of_mem_flatMap hmem) rfl
  | orderByAlias owner hitem =>
      obtain rfl := Option.some.inj hchild
      cases hclause.symm.trans hitem
  | order columns hvisit ih => cases ih hlegal hchild
  | assign hset =>
      obtain rfl := Option.some.inj hchild
      cases hclause.symm.trans hset
  | store => exact congrArg Stage.store (Option.some.inj hchild)
  | declareType owner name initializer htype =>
      obtain rfl := Option.some.inj hchild
      cases hclause.symm.trans htype
  | reject owner stage fault => exact (hlegal fault (List.mem_singleton_self _)).elim

/-- Rows are stored by a clause for that. -/
theorem Spells.exists_into {clause : NodeId} (h : Spells tree owner (.store clause) l)
    (hlegal : Legal l) : ∃ target, tree.get? clause = some (.into target) := by
  cases h with
  | store _ hclause => exact ⟨_, hclause⟩
  | reject _ _ fault => exact (hlegal fault (List.mem_singleton_self _)).elim

/-- The stages of a node with rows to store, a block or an output: those that store rows come
after those for all other slots. -/
theorem StagesOf.exists_split {list : List Stage} (h : StagesOf tree n list)
    (hx : tree.get? n = some x) (hkind : x.kind = .selectExpression ∨ x.kind = .output) :
    ∃ first second, list = first ++ second ∧ (slots (first ++ second)).Perm x.children ∧
      (∀ clause, .store clause ∉ first) ∧
      ∀ stage ∈ second, ∀ c, stage.child? = some c → stage = .store c := by
  cases x <;> simp only [Node.kind, reduceCtorEq, or_self, or_false, or_true] at hkind
  case selectExpression b =>
    obtain ⟨correlated, rfl⟩ := h.eq_block hx
    have hsplit : block n b correlated =
        ([.own (.enter n .selectExpression correlated)] ++ visitOption b.source ++
          visitOption b.top ++ visitAll b.columns ++ visitOption b.condition ++
          visitAll b.grouping ++ visitOption b.having ++ b.ordering.map (.order b.columns)) ++
        (b.into.toList.map .store ++ [.own .leave]) := by
      simp [block, blockBody, inScope]
    rcases nodeStages_traverse n (.selectExpression b) with ⟨fault, hreject⟩ | htraverse
    · simp [nodeStages, block, inScope] at hreject
    · refine ⟨_, _, hsplit, hsplit ▸ htraverse.slots_perm, ?_, ?_⟩
      · simp [visitOption, visitAll]
      · simp only [List.forall_mem_append, List.forall_mem_map, List.forall_mem_singleton]
        simp [Stage.child?]
  case output columns target =>
    cases h with
    | query hquery => exact (hquery (queryStages_of_keepsStages hx rfl _)).elim
    | visit =>
        have hsplit : stages tree n = visitAll columns ++ target.toList.map .store := by
          simp [stages, hx, nodeStages]
        rcases nodeStages_traverse n (.output columns target) with ⟨fault, hreject⟩ | htraverse
        · have hmem : .own (.reject fault) ∈ nodeStages n (.output columns target) := by
            simp [hreject]
          simp [nodeStages, visitAll] at hmem
        · refine ⟨_, _, hsplit, htraverse.slots_perm, ?_, ?_⟩
          · simp [visitAll]
          · simp [Stage.child?]

/-- **Rows are stored last.**  What is inside of a block is visited before the clause that
stores the rows of the block. -/
theorem Spells.sublist_of_store {clause source : NodeId} {target : String}
    (hshape : tree.TreeShaped) (h : Spells tree owner (.visit top) l) (hlegal : Legal l)
    (hstore : .storeInto clause source target ∈ l) (hn : tree.Reaches source n) (hne : n ≠ source)
    (hx : tree.get? n = some x) (hstep : x.kind.hasStep) (hkind : x.kind ≠ .into) :
    [n, clause].Sublist (subjects l) := by
  obtain ⟨hclause, y, hy, hykind⟩ := h.fits trivial _ hstore
  have hholds : tree.Holds source clause := h.holds_of_store (by simp) (by simp) hstore
  have hsource : tree.Reaches top source := by
    have hreach : tree.Reaches top clause := h.reaches_of_visit hstore rfl
    rcases (Relation.ReflTransGen.cases_tail_iff _ _ _).1 hreach with rfl | ⟨parent, hup, hparent⟩
    · cases h.eq_store hlegal rfl hclause
    · exact hshape.parent_unique hparent hholds ▸ hup
  have hwhole : y.kind.isWhole := by
    rcases hykind with hkind | hkind <;> rw [hkind] <;> rfl
  obtain ⟨list, word, hlist, hword, hinfix⟩ := h.holdsWalk hlegal rfl hsource hy hwhole
  obtain ⟨first, second, rfl, hslots, hfirst, hsecond⟩ := hlist.exists_split hy hykind
  have hstage : ∀ c, tree.Holds source c → ∃ stage ∈ first ++ second, stage.child? = some c :=
    fun c hc => List.mem_filterMap.1 (hslots.mem_iff.2 (hc.mem_children hy))
  have hpiece := hlegal.mono hinfix.subset
  have hlegal' : ∀ stage ∈ first ++ second, Legal (word stage) := fun _ => hpiece.of_mem_flatMap
  rw [List.flatMap_append] at hinfix hpiece
  refine sublist_subjects_of_infix hinfix ?_ ?_
  · -- The slot with the node is not for a clause, so its stage is one of the first.
    rcases (Tree.reaches_iff_of_get? hy).1 hn with rfl | ⟨c, hc, hcn⟩
    · exact (hne rfl).elim
    obtain ⟨stage, hmem, hchild⟩ := hstage c ⟨y, hy, hc⟩
    rcases List.mem_append.1 hmem with hmem | hmem
    · exact mem_subjects_of_mem_slots (fun s hs => hword s (List.mem_append_left _ hs))
        (hpiece.mono (List.subset_append_left _ _)) (List.mem_filterMap.2 ⟨stage, hmem, hchild⟩)
        hcn hx hstep
    · obtain rfl := hsecond stage hmem c hchild
      have hmem := List.mem_append_right first hmem
      obtain ⟨target', hinto⟩ := (hword _ hmem).exists_into (hlegal' _ hmem)
      obtain rfl := (Tree.reaches_leaf_iff hinto rfl).1 hcn
      cases hx.symm.trans hinto
      exact (hkind rfl).elim
  · obtain ⟨stage, hmem, hchild⟩ := hstage clause hholds
    obtain rfl := (hword stage hmem).eq_store (hlegal' stage hmem) hchild hclause
    have hmem := (List.mem_append.1 hmem).resolve_left (hfirst clause)
    exact mem_subjects_of_mem_slots (fun s hs => hword s (List.mem_append_right _ hs))
      (hpiece.mono (List.subset_append_right _ _)) (List.mem_filterMap.2 ⟨_, hmem, rfl⟩) .refl
      hclause rfl

/-- Nothing inside of a block comes after the clause that stores the rows of the block. -/
theorem Spells.not_reaches_of_store {clause source : NodeId} {target shown : String}
    (hshape : tree.TreeShaped) (h : Spells tree owner (.visit top) l) (hlegal : Legal l)
    (hl : l = own ++ .useTable n name shown :: rest)
    (hstore : .storeInto clause source target ∈ own) : ¬ tree.Reaches source n := by
  intro hn
  subst hl
  have hnodup := (h.covers hlegal rfl).nodup hshape
  have hfits := h.fits trivial
  obtain ⟨aliasName, hx, -⟩ := hfits (.useTable n name shown) (by simp)
  obtain ⟨-, y, hy, hykind⟩ := hfits _ (List.mem_append_left _ hstore)
  have hne : n ≠ source := by
    rintro rfl
    cases hx.symm.trans hy
    rcases hykind with hkind | hkind <;> cases hkind
  have hbefore : [clause, n].Sublist _ := (mem_subjects_iff_sublist hnodup rfl).1
    (mem_subjects.2 ⟨_, hstore, rfl⟩)
  have hafter := h.sublist_of_store hshape hlegal (List.mem_append_left _ hstore) hn hne hx rfl
    (by simp [Node.kind])
  exact not_sublist_swap hnodup hbefore hafter

section

variable {root : NodeId} {items : List NodeId} (hflat : tree.FlatScript root items)
  (hshape : tree.TreeShaped) (hroot : tree.Grounded root) (hitem : item ∈ items)
  (h : Spells tree item (.visit item) l) (hlegal : Legal l)

include hflat hshape hroot hitem h hlegal

/-- **When common tables are visited.**  The walk over an item comes to a common table
before it comes to another node exactly if the table is not listed after the node. -/
theorem Spells.sublist_iff_not_listedBefore (hc : tree.Reaches item c)
    (hcommon : tree.get? c = some (.commonTable name query)) (hn : tree.Reaches item n)
    (hne : n ≠ c) (hx : tree.get? n = some x) (hstep : x.kind.hasStep)
    (hkind : x.kind.isItem = false) :
    [c, n].Sublist (subjects l) ↔ ¬ tree.ListedBefore item n c := by
  have hnodup := (h.covers hlegal rfl).nodup hshape
  constructor
  · intro hfirst hlisted
    exact not_sublist_swap hnodup hfirst
      (h.sublist_of_listedBefore hlegal .refl hlisted hx hstep hcommon rfl)
  · intro hlater
    have hwith := hflat.inWithClause hshape hroot hitem hc hcommon
    have hlist : ∀ tables, tree.get? n ≠ some (.commonTables tables) := by
      intro tables htables
      cases hx.symm.trans htables
      cases hstep
    rcases hwith.order hlist with hreach | hlisted | hlisted | ⟨s, w, hs, hw, houtside⟩
    · exact h.sublist_of_commonTable hlegal hc hcommon hreach hne hx hstep
    · exact h.sublist_of_listedBefore hlegal .refl hlisted hcommon rfl hx hstep
    · exact (hlater hlisted).elim
    · exact h.sublist_of_outside hlegal hs hw (hwith.reaches_of_slot hs hw) hcommon rfl hn
        (hflat.ne_item hitem hx hkind) houtside hx hstep

/-- Common tables that are visited one before the other are listed so. -/
theorem Spells.listedBefore_of_sublist {d query' : NodeId} {name' : String}
    (hc : tree.Reaches item c) (hcommon : tree.get? c = some (.commonTable name query))
    (hd : tree.Reaches item d) (hcommon' : tree.get? d = some (.commonTable name' query'))
    (horder : [d, c].Sublist (subjects l)) : d = c ∨ tree.ListedBefore item d c := by
  rcases hflat.commonTables_order hshape hroot hitem hc hcommon hd hcommon' with
    heq | hbefore | hafter
  · exact Or.inl heq
  · exact Or.inr hbefore
  · have hnodup := (h.covers hlegal rfl).nodup hshape
    exact (not_sublist_swap hnodup horder
      (h.sublist_of_listedBefore hlegal .refl hafter hcommon rfl hcommon' rfl)).elim

variable {shown : String} (hl : l = own ++ .useTable n name shown :: rest)

include hl

/-- **Which common tables are defined.**  When a reference in an item is visited, a common
table of the item has been defined unless it is listed after the reference. -/
theorem Spells.defineTable_mem_iff {name' : String} (hc : tree.Reaches item c)
    (hcommon : tree.get? c = some (.commonTable name' query)) :
    .defineTable c name' ∈ own ↔ ¬ tree.ListedBefore item n c := by
  subst hl
  have hnodup := (h.covers hlegal rfl).nodup hshape
  have hmem : .useTable n name shown ∈ own ++ .useTable n name shown :: rest := by simp
  obtain ⟨aliasName, hn, -⟩ := h.fits trivial _ hmem
  have hnc : n ≠ c := by
    rintro rfl
    cases hn.symm.trans hcommon
  rw [← h.sublist_iff_not_listedBefore hflat hshape hroot hitem hlegal hc hcommon
    (h.reaches_of_visit hmem rfl) hnc hn rfl rfl, ← mem_subjects_iff_sublist hnodup rfl]
  constructor
  · intro hdefine
    exact mem_subjects.2 ⟨_, hdefine, rfl⟩
  · intro hsubject
    obtain ⟨step, hstep, hsubject⟩ := mem_subjects.1 hsubject
    have hfits : step.Fits tree := h.fits trivial step (List.mem_append_left _ hstep)
    exact hfits.eq_defineTable hsubject hcommon ▸ hstep

/-- The definitions of a name before a reference are those of the tables that the
reference is offered. -/
theorem Spells.offers_iff {key : String} :
    tree.Offers item n key c ↔ ∃ name', .defineTable c name' ∈ own ∧ nameKey name' = key := by
  constructor
  · rintro ⟨hc, ⟨name', query, hcommon, hkey⟩, hlater⟩
    exact ⟨name', (h.defineTable_mem_iff hflat hshape hroot hitem hlegal hl hc hcommon).2 hlater,
      hkey⟩
  · rintro ⟨name', hdefine, hkey⟩
    have hmem : .defineTable c name' ∈ l := hl ▸ List.mem_append_left _ hdefine
    obtain ⟨query, hcommon⟩ := h.fits trivial _ hmem
    have hc : tree.Reaches item c := h.reaches_of_visit hmem rfl
    exact ⟨hc, ⟨name', query, hcommon, hkey⟩,
      (h.defineTable_mem_iff hflat hshape hroot hitem hlegal hl hc hcommon).1 hdefine⟩

/-- The latest definition of a name before a reference is that of the last table that the
reference is offered. -/
theorem Spells.offersLast_of_latest? {key : String}
    (hlatest : latest? (Step.commonTable? key) own = some (.commonTable c)) :
    tree.OffersLast item n key c := by
  have hoffers : ∀ d, tree.Offers item n key d ↔
      ∃ name', .defineTable d name' ∈ own ∧ nameKey name' = key := fun d =>
    h.offers_iff hflat hshape hroot hitem hlegal hl
  have hnodup := (h.covers hlegal rfl).nodup hshape
  obtain ⟨first, step, after, rfl, hstep, hnone⟩ := exists_split_of_latest? hlatest
  obtain ⟨c, name', rfl, hkey, ⟨⟩⟩ := Step.commonTable?_eq_some_iff.1 hstep
  have hc : tree.Offers item n key c := (hoffers c).2 ⟨name', by simp, hkey⟩
  refine ⟨hc, fun d hd => ?_⟩
  obtain ⟨dname, hdefine, hdkey⟩ := (hoffers d).1 hd
  rw [List.append_assoc, List.cons_append] at hl
  rw [hl] at hnodup
  -- A definition under the name is not behind the latest one.
  rcases List.mem_append.1 hdefine with hfirst | hafter
  · have horder : [d, c].Sublist (subjects l) := by
      rw [hl, ← mem_subjects_iff_sublist hnodup rfl]
      exact mem_subjects.2 ⟨_, hfirst, rfl⟩
    obtain ⟨_, _, hcommon, -⟩ := hc.named
    obtain ⟨_, _, hcommon', -⟩ := hd.named
    exact h.listedBefore_of_sublist hflat hshape hroot hitem hlegal hc.below hcommon hd.below
      hcommon' horder
  · rcases List.mem_cons.1 hafter with heq | hafter
    · cases heq
      exact Or.inl rfl
    · have hanswer := hnone _ hafter
      simp [Step.commonTable?, hdkey] at hanswer

/-- **The latest common table.**  Before a reference in an item, the latest definition of
a name is that of the last table of this name that the item offers to the reference. -/
theorem Spells.latest?_commonTable_iff {key : String} :
    latest? (Step.commonTable? key) own = some (.commonTable c) ↔
      tree.OffersLast item n key c := by
  refine ⟨h.offersLast_of_latest? hflat hshape hroot hitem hlegal hl, fun hc => ?_⟩
  obtain ⟨name', hdefine, hkey⟩ := (h.offers_iff hflat hshape hroot hitem hlegal hl).1 hc.1
  cases hlatest : latest? (Step.commonTable? key) own with
  | none =>
      have hanswer := latest?_eq_none_iff.1 hlatest _ hdefine
      simp [Step.commonTable?, hkey] at hanswer
  | some table =>
      obtain ⟨step, -, hstep⟩ := exists_mem_of_latest? hlatest
      obtain ⟨d, -, -, -, rfl⟩ := Step.commonTable?_eq_some_iff.1 hstep
      have hd := h.offersLast_of_latest? hflat hshape hroot hitem hlegal hl hlatest
      -- Each of the two tables is the last one.
      rcases hc.2 d hd.1 with rfl | hdc
      · rfl
      rcases hd.2 c hc.1 with rfl | hcd
      · rfl
      obtain ⟨_, _, hcommon, -⟩ := hc.1.named
      obtain ⟨_, _, hcommon', -⟩ := hd.1.named
      have hnodup := (h.covers hlegal rfl).nodup hshape
      exact (not_sublist_swap hnodup
        (h.sublist_of_listedBefore hlegal .refl hdc hcommon' rfl hcommon rfl)
        (h.sublist_of_listedBefore hlegal .refl hcd hcommon rfl hcommon' rfl)).elim

end

end Walk

end UnionScript
