import Mathlib.Data.List.Basic
import Mathlib.Order.RelClasses
import UnionScript.Proofs.BoundScript.Meaning
import UnionScript.Proofs.BoundScript.References
import UnionScript.Proofs.Walk.Precedence

/-!
# Columns do not depend on themselves

A column reference may be bound to a projected column anywhere in the script, in
an enclosing query or in a statement long before.  All the same no column comes to
depend on itself, unless a common table is referred to from inside of the block
that its own columns come from.

When a reference is bound to a projected column, all that is below this column was
walked over before (`Settles.columns`).  So along bindings the walk goes back, and
down from nodes to their children it ends.

* `Settles.perform` — what is known about tables after one step;
* `Walk.exists_settles` — and so after a run;
* `wellFounded_dependsOn` — no way along dependencies goes on forever;
* `column_dependencies_are_acyclic` — so none leads back to where it started.
-/

namespace UnionScript

namespace Tree

/-- A node depends on its children, and a column reference on the projected column
that it is bound to. -/
def DependsOn (t : Tree) (bindings : Bindings) (n m : NodeId) : Prop :=
  t.Holds n m ∨
    (∃ identifier, t.get? n = some (.columnReference identifier)) ∧
      bindings.find? n = some (.column m)

/-- A common table is referred to from inside of its own leftmost block. -/
def LeftRecursive (t : Tree) (bindings : Bindings) : Prop :=
  ∃ table block reference identifier aliasName,
    t.Leftmost table block ∧ t.Reaches block reference ∧
      t.get? reference = some (.tableReference identifier aliasName) ∧
      bindings.find? reference = some (.table (.commonTable table))

end Tree

/-- The node is bound to a common table. -/
def Binding.isCommonTable : Binding → Bool
  | .table (.commonTable _) => true
  | _ => false

/-- Where nothing is bound to a common table, none of them is left-recursive. -/
theorem Tree.not_leftRecursive_of_entries {t : Tree} {bindings : Bindings}
    (h : ∀ e ∈ bindings.entries, e.2.isCommonTable = false) : ¬ t.LeftRecursive bindings := by
  rintro ⟨table, block, reference, identifier, aliasName, -, -, -, htable⟩
  obtain ⟨e, he, heq⟩ := Option.map_eq_some_iff.1 htable
  have hfalse := h e (List.mem_of_find?_eq_some he)
  simp [heq, Binding.isCommonTable] at hfalse

/-- The columns of a table are finished. -/
def TableSource.Settled (tree : Tree) (done : List Step) (source : TableSource) : Prop :=
  ∀ s c, source.node? = some s → c ∈ tree.projection s → Walk.Finished tree done c

/-- What is known after the steps of a walk: all tables that columns are looked up
in are settled, and a reference was bound to a column after all below the column
was walked over.  A common table is known before its columns are. -/
structure Settles (tree : Tree) (done : List Step) (p : Progress) : Prop where
  legal : Walk.Legal done
  columns : ∀ n c, p.bindings.find? n = some (.column c) →
    (∃ identifier, tree.get? n = some (.columnReference identifier)) ∧
      ∃ first step rest, done = first ++ step :: rest ∧ step.subject? = some n ∧
        Walk.Finished tree first c
  bound : ∀ n source, p.bindings.find? n = some (.table source) →
    source.Settled tree done ∨ source = .commonTable n
  aliases : ∀ id scope target, p.scopes.get? id = some scope →
    target ∈ scope.aliases.values → target.source.Settled tree done
  tables : ∀ id scope key source, p.scopes.get? id = some scope →
    scope.tables.find? key = some source →
    source.Settled tree done ∨ ∃ n name, source = .commonTable n ∧ .defineTable n name ∈ done
  targets : ∀ source, some source ∈ p.targets → source.Settled tree done

section

variable {tree : Tree} {done rest : List Step} {step : Step} {source : TableSource}
  {n c root : NodeId}

theorem TableSource.Settled.mono {done' : List Step} (h : source.Settled tree done)
    (hsub : done ⊆ done') : source.Settled tree done' :=
  fun s c hs hc => (h s c hs hc).mono hsub

/-- A table is settled if the leftmost blocks of its rows are finished. -/
theorem TableSource.settled_of_leftmost
    (h : ∀ s b, source.node? = some s → tree.Leftmost s b → Walk.Finished tree done b) :
    source.Settled tree done := by
  intro s c hs hc
  obtain ⟨b, x, hleft, hb, hmem⟩ := Tree.exists_leftmost_of_mem_projection hc
  exact (h s b hs hleft).of_holds ⟨x, hb, Node.mem_children_of_mem_columns hmem⟩

/-- A table whose rows are finished is settled. -/
theorem TableSource.settled_of_finished
    (h : ∀ s, source.node? = some s → Walk.Finished tree done s) : source.Settled tree done :=
  settled_of_leftmost fun s _ hs hleft => (h s hs).of_reaches hleft.reaches

/-- A column of a settled table is finished. -/
theorem TableSource.Settled.finished_of_columnOf? (h : source.Settled tree done) {name : String}
    (hcolumn : tree.columnOf? source name = some (.column c)) : Walk.Finished tree done c := by
  obtain ⟨s, hs, hc⟩ := Tree.mem_projection_of_columnOf? hcolumn
  exact h s c hs hc

/-- Stored rows come from a block or an output clause, whose columns are finished. -/
theorem storedTable_settled {clause rows : NodeId} {target : String}
    (hfits : (Step.storeInto clause rows target).Fits tree)
    (hneeds : ∀ c, (Step.storeInto clause rows target).Needs tree c → Walk.Finished tree done c) :
    (storedTable target rows).Settled tree done := by
  intro s c hs hc
  obtain rfl : rows = s := Option.some.inj ((node?_storedTable target rows).symm.trans hs)
  obtain ⟨b, x, hleft, hb, hmem⟩ := Tree.exists_leftmost_of_mem_projection hc
  obtain ⟨y, hy, hkind⟩ := hfits.2
  have hself : b = rows := by
    cases hleft with
    | block | output => rfl
    | union hn | group hn | commonTable hn =>
        cases hy.symm.trans hn
        simp [Node.kind] at hkind
  subst hself
  exact hneeds c ⟨x, hb, hmem⟩

end

namespace Settles

variable {s : Surroundings} {p q : Progress} {done rest : List Step} {step : Step}
  {b : Binding} {n c root : NodeId}

/-- Before the first step nothing is known. -/
theorem start {tree : Tree} : Settles tree [] {} where
  legal _ hmem := by cases hmem
  columns _ _ hn := by cases hn
  bound _ _ hn := by cases hn
  aliases _ _ _ hscope := by simp [ScopeTree.empty, ScopeTree.get?] at hscope
  tables _ _ _ _ hscope := by simp [ScopeTree.empty, ScopeTree.get?] at hscope
  targets _ hmem := by cases hmem

/-- Only column references are bound to projected columns. -/
theorem columnReference_of_finds (hfits : step.Fits s.tree) (hn : step.subject? = some n)
    (hb : step.Finds s p (.column c)) :
    ∃ identifier, s.tree.get? n = some (.columnReference identifier) := by
  cases hb <;> cases hn
  case column => exact ⟨_, hfits⟩
  case projection =>
    obtain ⟨name, hx, -⟩ := hfits
    exact ⟨name, hx⟩
  case assigned => exact ⟨_, hfits⟩

/-- A column that a step finds is finished. -/
theorem finished_of_finds (h : Settles s.tree done p)
    (hneeds : ∀ c, step.Needs s.tree c → Walk.Finished s.tree done c)
    (hb : step.Finds s p (.column c)) : Walk.Finished s.tree done c := by
  cases hb with
  | column n hmember hcolumn =>
      obtain ⟨id, scope, target, hscope, htarget, hcolumn⟩ := exists_alias_of_resolveColumn hcolumn
      exact (h.aliases id scope target hscope htarget).finished_of_columnOf? hcolumn
  | projection reference column => exact hneeds c rfl
  | assigned n htable hcolumn =>
      rename_i identifier table
      have hmem : some table ∈ p.targets := List.mem_of_mem_head? (Option.join_eq_some_iff.1 htable)
      exact (h.targets table hmem).finished_of_columnOf? hcolumn

/-- A table that a step finds is settled, unless it is a common table that is
defined there. -/
theorem settled_of_finds (h : Settles s.tree done p)
    (hspells : Walk.Spells s.tree root (.visit root) (done ++ step :: rest))
    {source : TableSource} (hn : step.subject? = some n) (hb : step.Finds s p (.table source))
    (hrecursion : ∀ identifier aliasName table block, step = .useTable n identifier aliasName →
      source = .commonTable table → s.tree.Leftmost table block → ¬ s.tree.Reaches block n) :
    source.Settled s.tree done ∨ ∃ name, step = .defineTable n name ∧ source = .commonTable n := by
  have hfits : step.Fits s.tree := hspells.fits trivial step (by simp)
  have hneeds : ∀ c, step.Needs s.tree c → Walk.Finished s.tree done c :=
    fun c => hspells.needs_finished h.legal
  cases hb with
  | commonTable n' name =>
      cases hn
      exact Or.inr ⟨name, rfl, rfl⟩
  | derived n' query aliasName =>
      refine Or.inl (TableSource.settled_of_finished fun s' hs' => ?_)
      cases hs'
      exact hneeds query rfl
  | @table n' identifier aliasName _ hsource =>
      cases hn
      left
      rcases ScopeTree.resolveTable_cases hsource with ⟨id, scope, key, hscope, hfind⟩ | hnone
      · rcases h.tables id scope key source hscope hfind with hsettled | ⟨ct, name, rfl, hdefined⟩
        · exact hsettled
        · refine TableSource.settled_of_leftmost fun s' b hs' hleft => ?_
          cases hs'
          exact (hspells.finished_or_reaches_of_define rfl h.legal hdefined hleft rfl
            (by simp)).resolve_right (hrecursion identifier aliasName ct b rfl rfl hleft)
      · intro s' c hs'
        rw [hnone] at hs'
        cases hs'
  | stored n' rows target => exact Or.inl (storedTable_settled hfits hneeds)
  | column n' hmember hcolumn =>
      obtain ⟨_, _, _, -, -, hcolumn⟩ := exists_alias_of_resolveColumn hcolumn
      exact (Tree.columnOf?_ne_table hcolumn).elim
  | assigned n' htable hcolumn => exact (Tree.columnOf?_ne_table hcolumn).elim

/-- The tables under assignment after a step that neither binds nor reports. -/
theorem targets_of_pass (h : Settles s.tree done p)
    (hneeds : ∀ c, step.Needs s.tree c → Walk.Finished s.tree done c) (hstep : step.mayPass)
    (hperform : step.perform s p = .finished q) :
    ∀ source, some source ∈ q.targets → source.Settled s.tree done := by
  cases step <;> cases hstep
  case callFunction n name =>
    simp only [Step.perform] at hperform
    split at hperform <;> cases hperform <;> exact h.targets
  case beginSet target =>
    cases hperform
    intro source hmem
    rcases List.mem_cons.1 hmem with htarget | hmem
    · obtain ⟨b, hb, hsource⟩ := Option.bind_eq_some_iff.1 htarget.symm
      cases b <;> cases hsource
      -- The table under assignment was visited, also if it is a common table.
      rcases h.bound target source hb with hsettled | rfl
      · exact hsettled
      · refine TableSource.settled_of_finished fun s' hs' => ?_
        cases hs'
        exact hneeds target rfl
    · exact h.targets source hmem
  case endSet =>
    cases hperform
    exact fun source hmem => h.targets source (List.mem_of_mem_tail hmem)

/-- **Steps keep tables settled.** -/
theorem perform (h : Settles s.tree done p)
    (hspells : Walk.Spells s.tree root (.visit root) (done ++ step :: rest))
    (hperform : step.perform s p = .finished q)
    (hrecursion : ∀ n identifier aliasName table block, step = .useTable n identifier aliasName →
      q.bindings.find? n = some (.table (.commonTable table)) → s.tree.Leftmost table block →
      ¬ s.tree.Reaches block n) :
    Settles s.tree (done ++ [step]) q := by
  have hneeds : ∀ c, step.Needs s.tree c → Walk.Finished s.tree done c :=
    fun c => hspells.needs_finished h.legal
  have htakes := Step.takes_of_perform hperform
  have hsub : done ⊆ done ++ [step] := List.subset_append_left _ _
  have hsettled : ∀ n source, step.subject? = some n →
      q.bindings.find? n = some (.table source) → step.Finds s p (.table source) →
      source.Settled s.tree done ∨
        ∃ name, step = .defineTable n name ∧ source = .commonTable n := by
    intro n source hn hbound hb
    refine h.settled_of_finds hspells hn hb ?_
    rintro identifier aliasName table block hstep rfl
    exact hrecursion n identifier aliasName table block hstep hbound
  have htargets : ∀ source, some source ∈ q.targets → source.Settled s.tree done := by
    cases htakes with
    | binds | reports | enters | leaves => exact h.targets
    | passes targets hstep => exact h.targets_of_pass hneeds hstep hperform
  refine ⟨h.legal.concat htakes, fun n c hn => ?_, fun n source hn => ?_,
    fun id scope target hscope hmem => ?_, fun id scope key source hscope hfind => ?_,
    fun source hmem => (htargets source hmem).mono hsub⟩
  · rcases htakes.find?_cases hn with hold | ⟨hsubject, hb⟩
    · obtain ⟨hx, first, step', rest', rfl, hsubject, hfinished⟩ := h.columns n c hold
      exact ⟨hx, first, step', rest' ++ [step], by simp, hsubject, hfinished⟩
    · exact ⟨columnReference_of_finds (hspells.fits trivial step (by simp)) hsubject hb,
        done, step, [], rfl, hsubject, h.finished_of_finds hneeds hb⟩
  · rcases htakes.find?_cases hn with hold | ⟨hsubject, hb⟩
    · exact (h.bound n source hold).imp_left (·.mono hsub)
    · rcases hsettled n source hsubject hn hb with hsettled | ⟨name, -, rfl⟩
      · exact Or.inl (hsettled.mono hsub)
      · exact Or.inr rfl
  · refine TableSource.Settled.mono ?_ hsub
    rcases htakes.alias_cases hscope hmem with
      ⟨old, hold, hmem⟩ | ⟨n, b, name, hsubject, hbound, hb, hr⟩
    · exact h.aliases id old target hold hmem
    · cases hr with
      | derived | table => exact (hsettled n _ hsubject hbound hb).resolve_right (by simp)
  · rcases htakes.table_cases hscope hfind with
      ⟨old, hold, hfind⟩ | ⟨n, b, name, hsubject, hbound, hb, -, hr⟩
    · rcases h.tables id old key source hold hfind with hsettled | ⟨m, name, rfl, hmem⟩
      · exact Or.inl (hsettled.mono hsub)
      · exact Or.inr ⟨m, name, rfl, hsub hmem⟩
    · obtain rfl : b = .table source := by cases hr <;> rfl
      rcases hsettled n source hsubject hbound hb with hsettled | ⟨name, rfl, rfl⟩
      · exact Or.inl (hsettled.mono hsub)
      · exact Or.inr ⟨n, name, rfl, by simp⟩

end Settles

namespace Walk

variable {s : Surroundings} {p q : Progress} {l : List Step}

/-- **Runs settle tables.**  Where no common table is left-recursive, all tables
that the steps of a run know are settled. -/
theorem exists_settles {root : NodeId} (hspells : Spells s.tree root (.visit root) l)
    (hnodup : (subjects l).Nodup) (h : (run s l {}).progress? = some q)
    (hrecursion : ¬ s.tree.LeftRecursive q.bindings) :
    ∃ first rest, l = first ++ rest ∧ Settles s.tree first q := by
  refine run_invariant_done (Settles s.tree) [] (fun first step rest p m hl hp hperform hrest => ?_)
    ?_ h
  · obtain rfl : l = first ++ step :: rest := hl
    refine hp.perform hspells hperform ?_
    rintro n identifier aliasName table block rfl htable hleft hreach
    obtain ⟨aliasName', hn, -⟩ :=
      hspells.fits trivial (.useTable n identifier aliasName) (by simp)
    have hlater : n ∉ subjects rest := by
      simp only [subjects, List.filterMap_append, List.filterMap_cons, Step.subject?] at hnodup
      exact (List.nodup_cons.1 (List.nodup_append.1 hnodup).2.1).1
    exact hrecursion ⟨table, block, n, identifier, aliasName', hleft, hreach, hn,
      (progress_find?_of_not_mem hrest hlater).trans htable⟩
  · exact .start

end Walk

/-- Dependencies end if the references below a projected column have a lower rank
than the references to the column. -/
theorem Tree.wellFounded_of_rank {tree : Tree} {bindings : Bindings} (rank : NodeId → Nat)
    {limit : Nat} (hground : ∀ n, tree.Grounded n) (hlimit : ∀ n, rank n ≤ limit)
    (hrank : ∀ n c m d, bindings.find? n = some (.column c) → tree.Reaches c m →
      bindings.find? m = some (.column d) → rank m < rank n) :
    WellFounded (fun m n => tree.DependsOn bindings n m) := by
  have hacc : ∀ k n, (∀ m d, tree.Reaches n m → bindings.find? m = some (.column d) →
      rank m < k) → Acc (fun m n => tree.DependsOn bindings n m) n := by
    intro k
    induction k using Nat.strongRecOn with
    | _ k ih =>
        intro n hn
        -- Down from a node the rank stays below; along a binding it falls.
        induction hground n with
        | intro n _ ihn =>
            refine ⟨n, ?_⟩
            rintro m (hholds | ⟨-, hcolumn⟩)
            · exact ihn m hholds fun m' d hreach =>
                hn m' d (Relation.ReflTransGen.head hholds hreach)
            · exact ih (rank n) (hn n m Relation.ReflTransGen.refl hcolumn) m
                fun m' d => hrank n m m' d hcolumn
  exact ⟨fun n => hacc (limit + 1) n fun m _ _ _ => Nat.lt_succ_of_le (hlimit m)⟩

/-- Where tables are settled, a reference was bound to a column after all references
below the column. -/
theorem Settles.idxOf_lt {tree : Tree} {done rest : List Step} {p : Progress}
    (h : Settles tree done p) (hnodup : (Walk.subjects (done ++ rest)).Nodup)
    {n c m d : NodeId} (hn : p.bindings.find? n = some (.column c)) (hm : tree.Reaches c m)
    (hd : p.bindings.find? m = some (.column d)) :
    (Walk.subjects (done ++ rest)).idxOf m < (Walk.subjects (done ++ rest)).idxOf n := by
  obtain ⟨-, first, step, middle, rfl, hsubject, hfinished⟩ := h.columns n c hn
  obtain ⟨⟨identifier, hx⟩, -⟩ := h.columns m d hd
  have hsplit : Walk.subjects (first ++ step :: middle ++ rest) =
      Walk.subjects first ++ n :: Walk.subjects (middle ++ rest) := by
    simp [Walk.subjects, hsubject]
  have hbefore : m ∈ Walk.subjects first := hfinished m _ hm hx rfl
  rw [hsplit] at hnodup ⊢
  have hafter : n ∉ Walk.subjects first := fun hmem =>
    (List.nodup_append.1 hnodup).2.2 n hmem n List.mem_cons_self rfl
  rw [List.idxOf_append_of_mem hbefore, List.idxOf_append_of_notMem hafter]
  exact Nat.lt_of_lt_of_le (List.idxOf_lt_length_iff.2 hbefore) (Nat.le_add_right _ _)

section

variable {config : Config} {tree : Tree} {provider : Provider} {root : NodeId}
  {bound : BoundScript}

/-- **Dependencies end.**  No way along the dependencies of a bound script goes on
forever, unless a common table is left-recursive. -/
theorem wellFounded_dependsOn (hforest : tree.IsForest)
    (hbind : bindScript config tree provider root = .ok bound)
    (hrecursion : ¬ tree.LeftRecursive bound.bindings) :
    WellFounded (fun m n => tree.DependsOn bound.bindings n m) := by
  obtain ⟨q, hrun, hbindings⟩ := exists_progress_of_bindScript hbind
  have hspells : Walk.Spells tree root _ _ := Walk.walk_spells config.maxDepth root
  have hnodup : (Walk.subjects (tree.walk config.maxDepth root)).Nodup :=
    hspells.nodup hforest.shape fun n _ => hforest.grounded n
  rw [hbindings] at hrecursion ⊢
  obtain ⟨done, rest, hwalk, hsettles⟩ := Walk.exists_settles hspells hnodup hrun hrecursion
  rw [hwalk] at hnodup
  exact Tree.wellFounded_of_rank (fun n => (Walk.subjects (done ++ rest)).idxOf n) hforest.grounded
    (fun n => List.idxOf_le_length) fun n c m d => hsettles.idxOf_lt hnodup

/-- **Column dependencies are acyclic.**  In a forest whose names could be bound, no
node depends on itself by way of its children and of the projected columns that
references below it are bound to, unless a common table is referred to from inside
of the block that its own columns come from. -/
theorem column_dependencies_are_acyclic (hforest : tree.IsForest)
    (hbind : bindScript config tree provider root = .ok bound)
    (hrecursion : ¬ tree.LeftRecursive bound.bindings) (n : NodeId) :
    ¬ Relation.TransGen (tree.DependsOn bound.bindings) n n := by
  intro hcycle
  have hcycle' := Relation.transGen_swap.2 hcycle
  exact (wellFounded_dependsOn hforest hbind hrecursion).transGen.asymmetric n n hcycle' hcycle'

end

/-- A script that sums up orders by a common table that refers to itself, on the
right side of its union. -/
def recursiveTotals : Tree :=
  ⟨#[.tableReference "Orders" (some "o"), .columnReference "o.TOTAL",
    .columnExpression 1 (some "sum"), .selectExpression { columns := [2], source := some 0 },
    .tableReference "sums" none, .columnReference "sums.sum", .columnExpression 5 none,
    .selectExpression { columns := [6], source := some 4 }, .tableUnion 3 7 true,
    .commonTable "sums" 8, .commonTables [9], .tableReference "SUMS" (some "s"),
    .columnReference "s.sum", .columnExpression 12 none,
    .selectExpression { columns := [13], source := some 11 }, .select (some 10) 14,
    .script [15]]⟩

/-- The columns of the table come from the left side of its union. -/
theorem eq_of_leftmost_recursiveTotals {b : NodeId} (h : recursiveTotals.Leftmost 9 b) :
    b = 3 := by
  cases h with
  | block hn | output hn | union hn | group hn => cases hn
  | commonTable hn h =>
      cases hn
      cases h with
      | block hn | output hn | group hn | commonTable hn => cases hn
      | union hn h =>
          cases hn
          cases h with
          | block | output => rfl
          | union hn | group hn | commonTable hn => cases hn

/-- The table refers to itself and to the column on the left side of its union, and
no column depends on itself. -/
theorem recursiveTotals_are_acyclic :
    ∃ bound, bindScript {} recursiveTotals ordersOnly 16 = .ok bound ∧
      bound.bindings.find? 4 = some (.table (.commonTable 9)) ∧
      bound.bindings.find? 5 = some (.column 2) ∧
      ∀ n, ¬ Relation.TransGen (recursiveTotals.DependsOn bound.bindings) n n := by
  have hearlier : ∀ n : Fin recursiveTotals.nodes.size,
      ∀ c ∈ recursiveTotals.nodes[n].children, c < n := by decide
  obtain ⟨bound, hbind, horders, hself, hcolumn, hsums⟩ :
      ∃ bound, bindScript {} recursiveTotals ordersOnly 16 = .ok bound ∧
        bound.bindings.find? 0 = some (.table (.entity ordersDefinition)) ∧
        bound.bindings.find? 4 = some (.table (.commonTable 9)) ∧
        bound.bindings.find? 5 = some (.column 2) ∧
        bound.bindings.find? 11 = some (.table (.commonTable 9)) := ⟨_, rfl, rfl, rfl, rfl, rfl⟩
  have hforest : recursiveTotals.IsForest :=
    ⟨by decide, Tree.grounded_of_children_lt hearlier⟩
  have hrecursion : ¬ recursiveTotals.LeftRecursive bound.bindings := by
    rintro ⟨table, block, reference, identifier, aliasName, hleft, hreach, hn, htable⟩
    have hreferences : ∀ n < 17, (recursiveTotals.get? n).map Node.kind = some .tableReference →
        n = 0 ∨ n = 4 ∨ n = 11 := by decide
    have hlt : reference < 17 := (Array.getElem?_eq_some_iff.1 hn).1
    rcases hreferences reference hlt (by rw [hn]; rfl) with rfl | rfl | rfl
    · cases horders.symm.trans htable
    · cases hself.symm.trans htable
      obtain rfl := eq_of_leftmost_recursiveTotals hleft
      exact absurd (Tree.le_of_reaches hearlier hreach) (by decide)
    · cases hsums.symm.trans htable
      obtain rfl := eq_of_leftmost_recursiveTotals hleft
      exact absurd (Tree.le_of_reaches hearlier hreach) (by decide)
  exact ⟨bound, hbind, hself, hcolumn, column_dependencies_are_acyclic hforest hbind hrecursion⟩

end UnionScript
