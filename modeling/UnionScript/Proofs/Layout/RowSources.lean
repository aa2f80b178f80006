import UnionScript.Layout.RowSource
import UnionScript.Proofs.BoundScript.Definitions
import UnionScript.Proofs.Syntax.Script
import UnionScript.Proofs.Syntax.Slots

/-!
# Row layouts end

To lay out the rows of a node one goes on to the node that it has its rows from, down
the tree or along a binding to the node that defines a table.  Nothing in the tree
alone keeps this from going in a circle, since a common table may be referred to from
inside of its own query.

Other circles there are none.  Stored rows come from a block or an output clause, where
the layout is found.  And a reference in the query of a common table leads to a table
that the walk came to earlier, if not back to this one.  So along references to common
tables the place in the walk falls, and between them the way leads down.

* `RowSource.ofNode_eq_other_iff` — where a node has its rows from;
* `Layout.exists_ends_iff` — laying out rows ends if no way from the node is endless,
  and then within one call more than the tree has nodes (`Layout.Ends.calls_le`);
* `RowSource.grounded_commonTable` — no way from a common table is endless;
* `row_layouts_end` — so laying out rows ends, unless some common table has its rows
  from itself.
-/

namespace UnionScript

namespace Tree

/-- A union, a group or a derived table passes on the rows of a node that it holds. -/
inductive PassesRows (t : Tree) : NodeId → NodeId → Prop
  | union {n left right : NodeId} {all : Bool}
      (hn : t.get? n = some (.tableUnion left right all)) : PassesRows t n left
  | group {n expression : NodeId} (hn : t.get? n = some (.group expression)) :
      PassesRows t n expression
  | derived {n query : NodeId} {aliasName : String}
      (hn : t.get? n = some (.tableExpression query aliasName)) : PassesRows t n query

/-- The rows that a common table passes on are those of a reference to the table. -/
def FeedsItself (t : Tree) (bindings : Bindings) (c : NodeId) : Prop :=
  ∃ name query reference identifier aliasName, t.get? c = some (.commonTable name query) ∧
    Relation.ReflTransGen t.PassesRows query reference ∧
      t.get? reference = some (.tableReference identifier aliasName) ∧
      bindings.find? reference = some (.table (.commonTable c))

variable {t : Tree} {n m : NodeId}

theorem PassesRows.holds (h : t.PassesRows n m) : t.Holds n m := by
  cases h with
  | union hn | group hn | derived hn => exact ⟨_, hn, by simp [Node.children]⟩

/-- Rows are passed on from below. -/
theorem reaches_of_passesRows (h : Relation.ReflTransGen t.PassesRows n m) : t.Reaches n m :=
  Relation.ReflTransGen.mono (fun _ _ => PassesRows.holds) _ _ h

end Tree

namespace RowSource

variable {tree : Tree} {bindings : Bindings} {n m : NodeId}

/-- A node has its rows from another one. -/
inductive Defers (tree : Tree) (bindings : Bindings) (n m : NodeId) : Prop
  | passes (h : tree.PassesRows n m) : Defers tree bindings n m
  | select {tables : Option NodeId} (hn : tree.get? n = some (.select tables m)) :
      Defers tree bindings n m
  | commonTable {name : String} (hn : tree.get? n = some (.commonTable name m)) :
      Defers tree bindings n m
  | table {x : Node} {source : TableSource} (hn : tree.get? n = some x)
      (hkind : x.kind = .tableReference ∨ x.kind = .into)
      (hsource : bindings.find? n = some (.table source)) (hm : source.node? = some m) :
      Defers tree bindings n m

theorem ofTable_eq_other_iff {source : TableSource} :
    ofTable source = .other m ↔ source.node? = some m := by
  cases source <;> simp [ofTable, TableSource.node?]

/-- A table is found for a node that is bound to it. -/
theorem bind_table?_eq_some_iff {source : TableSource} :
    (bindings.find? n).bind Binding.table? = some source ↔
      bindings.find? n = some (.table source) := by
  rcases bindings.find? n with _ | b
  · simp
  · cases b <;> simp [Binding.table?]

/-- **Where rows come from.** -/
theorem ofNode_eq_other_iff :
    ofNode tree bindings n = .ok (.other m) ↔ Defers tree bindings n m := by
  constructor
  · intro h
    unfold ofNode at h
    split at h
    · cases h
    · rename_i x hx
      cases x
      case tableUnion => cases h; exact .passes (.union hx)
      case group => cases h; exact .passes (.group hx)
      case tableExpression => cases h; exact .passes (.derived hx)
      case select => cases h; exact .select hx
      case commonTable => cases h; exact .commonTable hx
      case tableReference | into =>
        simp only at h
        split at h
        · rename_i source hsource
          exact .table hx (by simp [Node.kind]) (bind_table?_eq_some_iff.1 hsource)
            (ofTable_eq_other_iff.1 (Except.ok.inj h))
        · cases h
      all_goals cases h
  · intro h
    cases h with
    | passes h => cases h with
      | union hn | group hn | derived hn => simp [ofNode, hn]
    | select hn | commonTable hn => simp [ofNode, hn]
    | @table x source hn hkind hsource hm =>
        have hother := ofTable_eq_other_iff.2 hm
        have htable := bind_table?_eq_some_iff.2 hsource
        cases x <;> simp [Node.kind] at hkind <;> simp [ofNode, hn, htable, hother]

/-- Only nodes of the tree have their rows from others. -/
theorem Defers.lt_size (h : Defers tree bindings n m) : n < tree.size := by
  have hnode : ∃ x, tree.get? n = some x := by
    cases h with
    | passes h => exact h.holds.imp fun _ hx => hx.1
    | select hn | commonTable hn | table hn => exact ⟨_, hn⟩
  obtain ⟨x, hx⟩ := hnode
  exact (Array.getElem?_eq_some_iff.1 hx).1

/-- No way along row sources from a node goes on forever. -/
def Grounded (tree : Tree) (bindings : Bindings) (n : NodeId) : Prop :=
  Acc (fun m n => Defers tree bindings n m) n

end RowSource

namespace Layout

variable {tree : Tree} {bindings : Bindings} {n m : NodeId} {calls : Nat}
  {result : Except MappingFault Layout}

/-- Laying out the rows of a node ends with a result, after a number of calls each of
which goes on from one node to the next. -/
inductive Ends (tree : Tree) (bindings : Bindings) :
    NodeId → Nat → Except MappingFault Layout → Prop
  | fault {n : NodeId} {fault : MappingFault}
      (hn : RowSource.ofNode tree bindings n = .error fault) :
      Ends tree bindings n 1 (.error fault)
  | projection {n : NodeId} {columns : List NodeId}
      (hn : RowSource.ofNode tree bindings n = .ok (.projection columns)) :
      Ends tree bindings n 1 (.ok (ofProjection tree bindings columns))
  | object {n : NodeId} {definition : Definition}
      (hn : RowSource.ofNode tree bindings n = .ok (.object definition)) :
      Ends tree bindings n 1 (.ok (ofDefinition definition))
  | other {n m : NodeId} {calls : Nat} {result : Except MappingFault Layout}
      (hn : RowSource.ofNode tree bindings n = .ok (.other m))
      (hm : Ends tree bindings m calls result) : Ends tree bindings n (calls + 1) result

/-- Where laying out rows ends, the result is found within as many links. -/
theorem Ends.ofNodeWithin_eq (h : Ends tree bindings n calls result) {fuel : Nat}
    (hfuel : calls ≤ fuel) : ofNodeWithin tree bindings fuel n = result := by
  induction h generalizing fuel with
  | fault hn | projection hn | object hn =>
      cases fuel with
      | zero => omega
      | succ fuel => simp only [ofNodeWithin, hn]
  | other hn _ ih =>
      cases fuel with
      | zero => omega
      | succ fuel =>
          simp only [ofNodeWithin, hn]
          exact ih (by omega)

/-- Where laying out rows ends, no way from the node is endless. -/
theorem Ends.grounded (h : Ends tree bindings n calls result) :
    RowSource.Grounded tree bindings n := by
  induction h with
  | fault hn | projection hn | object hn =>
      refine ⟨_, fun m hm => ?_⟩
      cases hn.symm.trans (RowSource.ofNode_eq_other_iff.2 hm)
  | other hn _ ih =>
      refine ⟨_, fun m hm => ?_⟩
      cases hn.symm.trans (RowSource.ofNode_eq_other_iff.2 hm)
      exact ih

/-- **Endless ways.**  Laying out the rows of a node ends exactly if no way from the
node along row sources is endless. -/
theorem exists_ends_iff :
    (∃ calls result, Ends tree bindings n calls result) ↔
      RowSource.Grounded tree bindings n := by
  constructor
  · rintro ⟨calls, result, h⟩
    exact h.grounded
  · intro h
    induction h with
    | intro n _ ih =>
        cases hn : RowSource.ofNode tree bindings n with
        | error fault => exact ⟨_, _, .fault hn⟩
        | ok source =>
            cases source with
            | projection columns => exact ⟨_, _, .projection hn⟩
            | object definition => exact ⟨_, _, .object hn⟩
            | other m =>
                obtain ⟨calls, result, h⟩ := ih m (RowSource.ofNode_eq_other_iff.1 hn)
                exact ⟨_, _, .other hn h⟩

/-- The calls go along a way of as many nodes. -/
theorem Ends.exists_way (h : Ends tree bindings n calls result) :
    ∃ way, List.IsChain (RowSource.Defers tree bindings) (n :: way) ∧ way.length + 1 = calls := by
  induction h with
  | fault | projection | object => exact ⟨[], .singleton _, rfl⟩
  | @other n m calls result hn _ ih =>
      obtain ⟨way, hway, rfl⟩ := ih
      exact ⟨m :: way, List.isChain_cons_cons.2 ⟨RowSource.ofNode_eq_other_iff.1 hn, hway⟩, rfl⟩

/-- **Few calls.**  Laying out rows takes at most one call more than the tree has
nodes, if it ends. -/
theorem Ends.calls_le (h : Ends tree bindings n calls result) : calls ≤ tree.size + 1 := by
  obtain ⟨way, hway, rfl⟩ := h.exists_way
  have hle : way.length ≤ tree.size :=
    Tree.length_le_of_isChain (fun _ _ => RowSource.Defers.lt_size) h.grounded hway
  omega

end Layout

/-- A common table that has its rows from itself has no layout. -/
theorem Tree.FeedsItself.not_ends {tree : Tree} {bindings : Bindings} {c : NodeId}
    (h : tree.FeedsItself bindings c) {calls : Nat} {result : Except MappingFault Layout} :
    ¬ Layout.Ends tree bindings c calls result := by
  intro hends
  obtain ⟨name, query, reference, identifier, aliasName, hc, hway, hreference, hbound⟩ := h
  have hback : RowSource.Defers tree bindings reference c :=
    .table hreference (Or.inl rfl) hbound rfl
  have hdown : Relation.ReflTransGen (RowSource.Defers tree bindings) query reference :=
    Relation.ReflTransGen.mono (fun _ _ => .passes) _ _ hway
  exact Tree.not_reflTransGen_of_acc hends.grounded (.commonTable hc) (hdown.tail hback)

/-- Stored rows are laid out where they come from. -/
theorem Tree.StoresRows.grounded {tree : Tree} {bindings : Bindings} {rows : NodeId}
    (h : tree.StoresRows rows) : RowSource.Grounded tree bindings rows := by
  obtain ⟨x, hx, hkind⟩ := h
  refine ⟨rows, fun m hm => ?_⟩
  have hnone : RowSource.ofNode tree bindings rows ≠ .ok (.other m) := by
    cases x <;> simp [Node.kind] at hkind <;> simp [RowSource.ofNode, hx]
  exact (hnone (RowSource.ofNode_eq_other_iff.2 hm)).elim

/-- What a table reference or a clause that stores rows accepts leads to stored rows
or, from a reference, to a common table. -/
theorem Node.storesRows_or_commonTable {tree : Tree} {provider : Provider} {n m : NodeId}
    {x : Node} {source : TableSource} (hkind : x.kind = .tableReference ∨ x.kind = .into)
    (h : x.Accepts tree provider n (.table source)) (hm : source.node? = some m) :
    tree.StoresRows m ∨
      (∃ identifier aliasName, x = .tableReference identifier aliasName) ∧
        source = .commonTable m := by
  cases x <;> simp [Node.kind] at hkind
  case tableReference identifier aliasName =>
    cases source <;> cases hm
    case derived => exact h.elim
    case commonTable => exact Or.inr ⟨⟨_, _, rfl⟩, rfl⟩
    case temporaryTable | tableVariable => exact Or.inl h.2.2
  case into target =>
    obtain ⟨rows, hrows, rfl⟩ := h
    obtain rfl : rows = m := Option.some.inj ((node?_storedTable target rows).symm.trans hm)
    exact Or.inl hrows

/-- Where rows are passed on from below, ways end if those that go on from there do. -/
theorem Tree.Grounded.rows_of_passes {tree : Tree} {bindings : Bindings} {n : NodeId}
    (hn : tree.Grounded n)
    (h : ∀ r next, Relation.ReflTransGen tree.PassesRows n r →
      RowSource.Defers tree bindings r next →
      tree.PassesRows r next ∨ RowSource.Grounded tree bindings next) :
    RowSource.Grounded tree bindings n := by
  induction hn with
  | intro n _ ih =>
      refine ⟨n, fun m hm => ?_⟩
      rcases h n m .refl hm with hpasses | hground
      · exact ih m hpasses.holds fun r next hr => h r next (.head hpasses hr)
      · exact hground

section

variable {config : Config} {tree : Tree} {provider : Provider} {root : NodeId}
  {bound : BoundScript} {items : List NodeId} {n m : NodeId}

/-- **Links of a bound script.**  A node passes on rows from below, or is a statement or
a common table with its query, or has stored rows, or is a reference to a common
table. -/
theorem RowSource.Defers.cases_of_bindScript
    (hbind : bindScript config tree provider root = .ok bound)
    (h : RowSource.Defers tree bound.bindings n m) :
    tree.PassesRows n m ∨
      (∃ x, tree.get? n = some x ∧ m ∈ x.children ∧
        (x.kind.isStatement ∨ ∃ name query, x = .commonTable name query)) ∨
      tree.StoresRows m ∨
      (∃ identifier aliasName, tree.get? n = some (.tableReference identifier aliasName)) ∧
        bound.bindings.find? n = some (.table (.commonTable m)) := by
  cases h with
  | passes h => exact Or.inl h
  | select hn => exact Or.inr (Or.inl ⟨_, hn, by simp [Node.children], Or.inl rfl⟩)
  | commonTable hn =>
      exact Or.inr (Or.inl ⟨_, hn, by simp [Node.children], Or.inr ⟨_, _, rfl⟩⟩)
  | @table x source hn hkind hsource hm =>
      obtain ⟨q, hmeaningful, hbindings⟩ := exists_meaningful_of_bindScript hbind
      obtain ⟨-, y, hy, haccepts⟩ := hmeaningful.bindings n _ (hbindings ▸ hsource)
      obtain rfl : x = y := Option.some.inj (hn.symm.trans hy)
      rcases Node.storesRows_or_commonTable hkind haccepts hm with
        hstores | ⟨⟨identifier, aliasName, rfl⟩, rfl⟩
      · exact Or.inr (Or.inr (Or.inl hstores))
      · exact Or.inr (Or.inr (Or.inr ⟨⟨identifier, aliasName, hn⟩, hsource⟩))

variable (hforest : tree.IsForest) (hscript : tree.PlainScript root items)
  (hbind : bindScript config tree provider root = .ok bound)
  (hfeeds : ∀ c, ¬ tree.FeedsItself bound.bindings c)

include hforest hscript hbind hfeeds

/-- **Common tables end.**  In a plain script where no common table has its rows from
itself, ways from common tables end. -/
theorem RowSource.grounded_commonTable {c query : NodeId} {name : String}
    (hc : tree.Reaches root c) (hx : tree.get? c = some (.commonTable name query)) :
    Grounded tree bound.bindings c := by
  obtain ⟨rank, hrank⟩ := exists_rank_of_bindScript hforest hbind
  have hground := hforest.grounded root
  -- By induction on the rank: down the query there is an end, and a reference there leads
  -- to a common table of lower rank.
  induction hk : rank c using Nat.strongRecOn generalizing c name query with
  | _ k ih =>
      subst hk
      have hholds : tree.Holds c query := ⟨_, hx, by simp [Node.children]⟩
      refine ⟨c, fun m hm => ?_⟩
      obtain rfl : query = m := by
        have hother : ofNode tree bound.bindings c = .ok (.other query) :=
          ofNode_eq_other_iff.2 (.commonTable hx)
        cases hother.symm.trans (ofNode_eq_other_iff.2 hm)
        rfl
      refine (hforest.grounded query).rows_of_passes fun r next hway hnext => ?_
      have hinside : tree.Reaches c r := .head hholds (Tree.reaches_of_passesRows hway)
      rcases hnext.cases_of_bindScript hbind with
        hpasses | ⟨x, hr, -, hkind⟩ | hstores | ⟨⟨identifier, aliasName, hr⟩, hbound⟩
      · exact Or.inl hpasses
      · -- Neither statements nor common tables stand in the query of a common table.
        exfalso
        rcases hkind with hstatement | ⟨name', query', rfl⟩
        · exact hscript.not_isStatement hforest.shape hground hc hx hinside hr hstatement
        · obtain rfl := hscript.eq_of_reaches_commonTable hforest.shape hground hc hx hinside hr
          exact (hforest.grounded c).not_reaches_parent hholds (Tree.reaches_of_passesRows hway)
      · exact Or.inr hstores.grounded
      · obtain ⟨hd, ⟨name', query', hd'⟩, hlower⟩ := hrank r identifier aliasName next hr hbound
        have houtside : ¬ tree.Reaches c next := by
          intro hreach
          obtain rfl := hscript.eq_of_reaches_commonTable hforest.shape hground hc hx hreach hd'
          exact hfeeds c ⟨name, query, r, identifier, aliasName, hx, hway, hr, hbound⟩
        exact Or.inr (ih _ (hlower c name query hx hinside houtside) hd hd' rfl)

/-- From any node ways lead down and then on from stored rows or common tables. -/
theorem RowSource.grounded_of_bindScript (n : NodeId) : Grounded tree bound.bindings n := by
  induction hforest.grounded n with
  | intro n _ ih =>
      refine ⟨n, fun m hm => ?_⟩
      rcases hm.cases_of_bindScript hbind with
        hpasses | ⟨x, hx, hchild, -⟩ | hstores | ⟨⟨identifier, aliasName, hn⟩, hbound⟩
      · exact ih m hpasses.holds
      · exact ih m ⟨x, hx, hchild⟩
      · exact hstores.grounded
      · obtain ⟨rank, hrank⟩ := exists_rank_of_bindScript hforest hbind
        obtain ⟨hm, ⟨name, query, hm'⟩, -⟩ := hrank n identifier aliasName m hn hbound
        exact grounded_commonTable hforest hscript hbind hfeeds hm hm'

omit hfeeds

/-- **Row layouts end.**  In a tree-shaped script with statements as items only and with
common tables in the clauses of statements only, whose names could be bound, laying out
the rows of every node ends, after at most one call more than the tree has nodes, exactly
if no common table has its rows from a reference to itself. -/
theorem row_layouts_end :
    (∀ n, ∃ calls result, calls ≤ tree.size + 1 ∧
      Layout.Ends tree bound.bindings n calls result ∧
      Layout.ofNode tree bound.bindings n = result) ↔
      ∀ c, ¬ tree.FeedsItself bound.bindings c := by
  constructor
  · intro hends c hfeeds
    obtain ⟨calls, result, -, hends, -⟩ := hends c
    exact hfeeds.not_ends hends
  · intro hfeeds n
    have hground := RowSource.grounded_of_bindScript hforest hscript hbind hfeeds n
    obtain ⟨calls, result, hends⟩ := Layout.exists_ends_iff.2 hground
    exact ⟨calls, result, hends.calls_le, hends, hends.ofNodeWithin_eq hends.calls_le⟩

end

/-- A script with two common tables.  The second one has its rows from the first one, on
the left side of a union, and refers to itself on the right side. -/
def chainedTotals : Tree :=
  ⟨#[.tableReference "Orders" (some "o"), .columnReference "o.TOTAL",
    .columnExpression 1 (some "sum"), .selectExpression { columns := [2], source := some 0 },
    .commonTable "sums" 3, .tableReference "SUMS" none, .tableReference "more" (some "m"),
    .columnReference "m.sum", .columnExpression 7 none,
    .selectExpression { columns := [8], source := some 6 }, .tableUnion 5 9 true, .group 10,
    .commonTable "more" 11, .commonTables [4, 12], .tableReference "MORE" none,
    .selectExpression { source := some 14 }, .select (some 13) 15, .script [16]]⟩

theorem eq_of_commonTable_chainedTotals {c query : NodeId} {name : String}
    (hc : chainedTotals.get? c = some (.commonTable name query)) : c = 4 ∨ c = 12 := by
  have hnodes : ∀ n < 18, (chainedTotals.get? n).map Node.kind = some .commonTable →
      n = 4 ∨ n = 12 := by decide
  exact hnodes c (Array.getElem?_eq_some_iff.1 hc).1 (by rw [hc]; rfl)

/-- Its only statement is its item, which has both common tables in its clause. -/
theorem chainedTotals_plain : chainedTotals.PlainScript 17 [16] := by
  have hnodes : ∀ n < 18, (chainedTotals.get? n).any (fun x => x.kind.isStatement) →
      n ∈ [16] := by decide
  refine ⟨rfl, fun n x _ hx hstatement => ?_, fun n name query _ hx => ?_⟩
  · exact hnodes n (Array.getElem?_eq_some_iff.1 hx).1 (by rw [hx]; exact hstatement)
  · refine ⟨16, List.mem_singleton_self _, .listed (.slot rfl rfl) rfl ?_⟩
    simpa using eq_of_commonTable_chainedTotals hx

/-- The rows of the second table are passed on from the reference to the first one. -/
theorem passesRows_chainedTotals {r : NodeId}
    (h : Relation.ReflTransGen chainedTotals.PassesRows 11 r) : r = 11 ∨ r = 10 ∨ r = 5 := by
  induction h with
  | refl => exact Or.inl rfl
  | tail _ hstep ih =>
      rcases ih with rfl | rfl | rfl
      · cases hstep with
        | group hn => cases hn; exact Or.inr (Or.inl rfl)
        | union hn | derived hn => cases hn
      · cases hstep with
        | union hn => cases hn; exact Or.inr (Or.inr rfl)
        | group hn | derived hn => cases hn
      · cases hstep with
        | union hn | group hn | derived hn => cases hn

/-- Although the second table refers to itself, all rows of the script are laid out. -/
theorem chainedTotals_end :
    ∃ bound, bindScript {} chainedTotals ordersOnly 17 = .ok bound ∧
      bound.bindings.find? 5 = some (.table (.commonTable 4)) ∧
      bound.bindings.find? 6 = some (.table (.commonTable 12)) ∧
      ∀ n, ∃ calls result, calls ≤ 19 ∧ Layout.Ends chainedTotals bound.bindings n calls result ∧
        Layout.ofNode chainedTotals bound.bindings n = result := by
  obtain ⟨bound, hbind, hsums, hmore⟩ :
      ∃ bound, bindScript {} chainedTotals ordersOnly 17 = .ok bound ∧
        bound.bindings.find? 5 = some (.table (.commonTable 4)) ∧
        bound.bindings.find? 6 = some (.table (.commonTable 12)) := ⟨_, rfl, rfl, rfl⟩
  have hforest : chainedTotals.IsForest :=
    ⟨by decide, Tree.grounded_of_children_lt (by decide)⟩
  have hfeeds : ∀ c, ¬ chainedTotals.FeedsItself bound.bindings c := by
    rintro c ⟨name, query, reference, identifier, aliasName, hc, hway, hreference, hbound⟩
    rcases eq_of_commonTable_chainedTotals hc with rfl | rfl <;> cases hc
    · rcases Relation.ReflTransGen.cases_head_iff.1 hway with rfl | ⟨m, hstep, -⟩
      · cases hreference
      · cases hstep with
        | union hn | group hn | derived hn => cases hn
    · rcases passesRows_chainedTotals hway with rfl | rfl | rfl
      · cases hreference
      · cases hreference
      · cases hsums.symm.trans hbound
  exact ⟨bound, hbind, hsums, hmore,
    (row_layouts_end hforest chainedTotals_plain hbind).2 hfeeds⟩

end UnionScript
