import UnionScript.Proofs.Lists
import UnionScript.Proofs.Syntax.Shape

/-!
# Flat scripts

A script is flat if its items are declarations and statements and no others are
nested in them.  Common tables stand in the clauses of statements that are made
for them, and so do output clauses.

In a tree-shaped tree every node below a flat script belongs to one item
(`item_unique`), and between a statement and one of its common tables there is
nothing but lists of common tables (`InWithClause.eq_or_list`).  So the clause of a
statement puts its common tables in an order (`ListedBefore`), and a reference in the
statement is offered those that do not come after it (`Offers`).

Some properties need less.  In a plain script only statements and common tables are
bound to their places, and neither stand inside of a common table
(`PlainScript.not_isStatement`, `PlainScript.eq_of_reaches_commonTable`).
-/

namespace UnionScript

/-- The nodes of these kinds are the items of a script. -/
def NodeKind.isItem (k : NodeKind) : Bool :=
  k == .declare || k.isStatement

/-- The slot of a statement for its common tables. -/
def Node.withClause? : Node → Option NodeId
  | .select tables _ => tables
  | .insert s => s.commonTables
  | .update s => s.commonTables
  | .delete s => s.commonTables
  | .upsert s => s.commonTables
  | _ => none

/-- The slot of a statement for its output. -/
def Node.outputClause? : Node → Option NodeId
  | .insert s => s.output
  | .update s => s.output
  | .delete s => s.output
  | _ => none

theorem Node.withClause?_mem_children {x : Node} {c : NodeId} (h : x.withClause? = some c) :
    c ∈ x.children := by
  cases x <;> simp_all [Node.withClause?, Node.children]

theorem Node.outputClause?_mem_children {x : Node} {c : NodeId} (h : x.outputClause? = some c) :
    c ∈ x.children := by
  cases x <;> simp_all [Node.outputClause?, Node.children]

namespace Tree

/-- A node stands in the clause of a statement for common tables, itself or in
lists there. -/
inductive InWithClause (t : Tree) (item : NodeId) : NodeId → Prop
  | slot {x : Node} {c : NodeId} (hx : t.get? item = some x) (hc : x.withClause? = some c) :
      InWithClause t item c
  | listed {m c : NodeId} {tables : List NodeId} (hm : InWithClause t item m)
      (htables : t.get? m = some (.commonTables tables)) (hc : c ∈ tables) :
      InWithClause t item c

/-- The clause of a statement lists a common table with the first node in it before one
with the second node in it. -/
def ListedBefore (t : Tree) (item a b : NodeId) : Prop :=
  ∃ m tables c d, t.InWithClause item m ∧ t.get? m = some (.commonTables tables) ∧
    [c, d].Sublist tables ∧ t.Reaches c a ∧ t.Reaches d b

/-- A reference in a statement may stand for a common table of the same name if the
table is not listed after the one that the reference stands in: so for the latter, for
those before it, and for all of them if the reference stands in none. -/
structure Offers (t : Tree) (item n : NodeId) (key : String) (c : NodeId) : Prop where
  below : t.Reaches item c
  named : ∃ name query, t.get? c = some (.commonTable name query) ∧ nameKey name = key
  notLater : ¬ t.ListedBefore item n c

/-- The last common table that a reference is offered under a name. -/
def OffersLast (t : Tree) (item n : NodeId) (key : String) (c : NodeId) : Prop :=
  t.Offers item n key c ∧ ∀ d, t.Offers item n key d → d = c ∨ t.ListedBefore item d c

/-- A script of declarations and statements, with none of them nested deeper and
with common tables and outputs in the clauses for them. -/
structure FlatScript (t : Tree) (root : NodeId) (items : List NodeId) : Prop where
  script : t.get? root = some (.script items)
  kinds : ∀ n ∈ items, ∃ x, t.get? n = some x ∧ x.kind.isItem
  flat : ∀ n x, t.Reaches root n → t.get? n = some x → x.kind.isItem → n ∈ items
  commonTables : ∀ n name query, t.Reaches root n →
    t.get? n = some (.commonTable name query) → ∃ item ∈ items, t.InWithClause item n
  outputs : ∀ n columns target, t.Reaches root n → t.get? n = some (.output columns target) →
    ∃ item ∈ items, ∃ x, t.get? item = some x ∧ x.outputClause? = some n

variable {t : Tree} {root item : NodeId} {items : List NodeId}

/-- What stands in the clause of a statement is below the slot for it. -/
theorem InWithClause.exists_slot {c : NodeId} (h : t.InWithClause item c) :
    ∃ x w, t.get? item = some x ∧ x.withClause? = some w ∧ t.Reaches w c := by
  induction h with
  | slot hx hc => exact ⟨_, _, hx, hc, Relation.ReflTransGen.refl⟩
  | listed hm htables hc ih =>
      obtain ⟨x, w, hx, hw, hreach⟩ := ih
      exact ⟨x, w, hx, hw, hreach.tail ⟨_, htables, hc⟩⟩

/-- A statement has one slot for the clause. -/
theorem InWithClause.reaches_of_slot {c w : NodeId} {x : Node} (h : t.InWithClause item c)
    (hx : t.get? item = some x) (hw : x.withClause? = some w) : t.Reaches w c := by
  obtain ⟨x', w', hx', hw', hreach⟩ := h.exists_slot
  obtain rfl : x = x' := Option.some.inj (hx.symm.trans hx')
  obtain rfl : w = w' := Option.some.inj (hw.symm.trans hw')
  exact hreach

theorem InWithClause.reaches {c : NodeId} (h : t.InWithClause item c) : t.Reaches item c := by
  obtain ⟨x, w, hx, hw, hreach⟩ := h.exists_slot
  exact Relation.ReflTransGen.head ⟨x, hx, Node.withClause?_mem_children hw⟩ hreach

/-- What is below listed nodes is listed in their order. -/
theorem ListedBefore.below {a b a' b' : NodeId} (h : t.ListedBefore item a b)
    (ha : t.Reaches a a') (hb : t.Reaches b b') : t.ListedBefore item a' b' := by
  obtain ⟨m, tables, c, d, hm, htables, horder, hca, hdb⟩ := h
  exact ⟨m, tables, c, d, hm, htables, horder, hca.trans ha, hdb.trans hb⟩

/-- **Places in a clause.**  A node of the clause of a statement encloses another node,
or is listed before or after it, or the other node stands outside of the clause. -/
theorem InWithClause.order {c n : NodeId} (hc : t.InWithClause item c)
    (hn : ∀ tables, t.get? n ≠ some (.commonTables tables)) :
    t.Reaches c n ∨ t.ListedBefore item c n ∨ t.ListedBefore item n c ∨
      ∃ x w, t.get? item = some x ∧ x.withClause? = some w ∧ ¬ t.Reaches w n := by
  induction hc with
  | @slot x c hx hslot =>
      by_cases hreach : t.Reaches c n
      · exact Or.inl hreach
      · exact Or.inr (Or.inr (Or.inr ⟨x, c, hx, hslot, hreach⟩))
  | @listed m c tables hm htables hmem ih =>
      have hdown : t.Reaches m c := Relation.ReflTransGen.single ⟨_, htables, hmem⟩
      rcases ih with hreach | hbefore | hafter | houtside
      · -- The other node is in an entry of the same list.
        rcases (reaches_iff_of_get? htables).1 hreach with rfl | ⟨d, hd, hdn⟩
        · exact (hn tables htables).elim
        · rcases sublist_total hmem hd with rfl | horder | horder
          · exact Or.inl hdn
          · exact Or.inr (Or.inl ⟨m, tables, c, d, hm, htables, horder, .refl, hdn⟩)
          · exact Or.inr (Or.inr (Or.inl ⟨m, tables, d, c, hm, htables, horder, hdn, .refl⟩))
      · exact Or.inr (Or.inl (hbefore.below hdown .refl))
      · exact Or.inr (Or.inr (Or.inl (hafter.below .refl hdown)))
      · exact Or.inr (Or.inr (Or.inr houtside))

/-- **Nothing but lists in between.**  A node of the clause of a statement that is
above another one is a list. -/
theorem InWithClause.eq_or_list (hshape : t.TreeShaped) (hitem : t.Grounded item)
    {w c : NodeId} (hw : t.InWithClause item w) (hc : t.InWithClause item c)
    (hreach : t.Reaches w c) : w = c ∨ ∃ tables, t.get? w = some (.commonTables tables) := by
  -- By induction on where the lower node stands: it has one parent, which is the
  -- statement or a list, and the way down to it leads through that parent.
  induction hc with
  | @slot x c hx hslot =>
      rcases (Relation.ReflTransGen.cases_tail_iff _ _ _).1 hreach with heq | ⟨m, hwm, hmc⟩
      · exact Or.inl heq.symm
      · obtain rfl : m = item :=
          hshape.parent_unique hmc ⟨x, hx, Node.withClause?_mem_children hslot⟩
        obtain ⟨y, top, hy, htop, htopw⟩ := hw.exists_slot
        have hholds : t.Holds m top := ⟨y, hy, Node.withClause?_mem_children htop⟩
        exact (hitem.not_reaches_parent hholds (htopw.trans hwm)).elim
  | @listed m c tables hm htables hmem ih =>
      rcases (Relation.ReflTransGen.cases_tail_iff _ _ _).1 hreach with heq | ⟨parent, hwp, hpc⟩
      · exact Or.inl heq.symm
      · obtain rfl : parent = m := hshape.parent_unique hpc ⟨_, htables, hmem⟩
        rcases ih hwp with rfl | hlist
        · exact Or.inr ⟨tables, htables⟩
        · exact Or.inr hlist

/-- Common tables in the clause of a statement are not nested. -/
theorem InWithClause.not_reaches (hshape : t.TreeShaped) (hitem : t.Grounded item)
    {w c query : NodeId} {name : String} (hw : t.InWithClause item w)
    (hx : t.get? w = some (.commonTable name query)) (hc : t.InWithClause item c) :
    ¬ t.Reaches query c := by
  intro hreach
  have hholds : t.Holds w query := ⟨_, hx, by simp [Node.children]⟩
  have hdown : t.Reaches w c := Relation.ReflTransGen.head hholds hreach
  rcases hw.eq_or_list hshape hitem hc hdown with rfl | ⟨tables, htables⟩
  · exact (hitem.of_reaches hw.reaches).not_reaches_parent hholds hreach
  · cases hx.symm.trans htables

/-- A common table that encloses a node is not listed after it. -/
theorem ListedBefore.not_reaches (hshape : t.TreeShaped) (hitem : t.Grounded item) {n c : NodeId}
    (h : t.ListedBefore item n c) : ¬ t.Reaches c n := by
  intro hreach
  obtain ⟨m, tables, c', d, hm, htables, horder, hn, hc⟩ := h
  have hlisted : ∀ e ∈ [c', d], t.Holds m e := fun e he => ⟨_, htables, horder.subset he⟩
  obtain rfl : c' = d := hshape.apart (hitem.of_reaches hm.reaches) (hlisted c' (by simp))
    (hlisted d (by simp)) hn (hc.trans hreach)
  have hnodup := (hshape.children_nodup htables).sublist horder
  simp at hnodup

namespace FlatScript

/-- The script holds its items. -/
theorem holds (h : t.FlatScript root items) (hitem : item ∈ items) : t.Holds root item :=
  ⟨_, h.script, hitem⟩

theorem reaches (h : t.FlatScript root items) (hitem : item ∈ items) {n : NodeId}
    (hn : t.Reaches item n) : t.Reaches root n :=
  Relation.ReflTransGen.head (h.holds hitem) hn

/-- The nodes of other kinds are not among the items. -/
theorem ne_item (h : t.FlatScript root items) (hitem : item ∈ items) {n : NodeId} {x : Node}
    (hx : t.get? n = some x) (hkind : x.kind.isItem = false) : n ≠ item := by
  rintro rfl
  obtain ⟨y, hy, hykind⟩ := h.kinds n hitem
  cases hx.symm.trans hy
  rw [hykind] at hkind
  cases hkind

section

variable (h : t.FlatScript root items) (hshape : t.TreeShaped) (hroot : t.Grounded root)

include h hshape hroot

/-- Every node below a flat script belongs to one item. -/
theorem item_unique {item' : NodeId} (hitem : item ∈ items) (hitem' : item' ∈ items) {n : NodeId}
    (hn : t.Reaches item n) (hn' : t.Reaches item' n) : item = item' :=
  hshape.apart hroot (h.holds hitem) (h.holds hitem') hn hn'

/-- No item is nested in another one. -/
theorem eq_of_isItem (hitem : item ∈ items) {n : NodeId} {x : Node} (hn : t.Reaches item n)
    (hx : t.get? n = some x) (hkind : x.kind.isItem) : n = item := by
  have hmem := h.flat n x (h.reaches hitem hn) hx hkind
  exact h.item_unique hshape hroot hmem hitem Relation.ReflTransGen.refl hn

/-- The common tables below an item stand in its own clause. -/
theorem inWithClause (hitem : item ∈ items) {n query : NodeId} {name : String}
    (hn : t.Reaches item n) (hx : t.get? n = some (.commonTable name query)) :
    t.InWithClause item n := by
  obtain ⟨item', hitem', hwith⟩ := h.commonTables n name query (h.reaches hitem hn) hx
  obtain rfl := h.item_unique hshape hroot hitem hitem' hn hwith.reaches
  exact hwith

/-- Two common tables below an item are listed one before the other. -/
theorem commonTables_order (hitem : item ∈ items) {c d query query' : NodeId}
    {name name' : String} (hc : t.Reaches item c)
    (hcommon : t.get? c = some (.commonTable name query)) (hd : t.Reaches item d)
    (hcommon' : t.get? d = some (.commonTable name' query')) :
    d = c ∨ t.ListedBefore item d c ∨ t.ListedBefore item c d := by
  have hwith := h.inWithClause hshape hroot hitem hc hcommon
  have hwith' := h.inWithClause hshape hroot hitem hd hcommon'
  rcases hwith'.order (n := c) (by simp [hcommon]) with hdc | hbefore | hafter | houtside
  · rcases hwith'.eq_or_list hshape (hroot.inv (h.holds hitem)) hwith hdc with
      rfl | ⟨tables, htables⟩
    · exact Or.inl rfl
    · cases hcommon'.symm.trans htables
  · exact Or.inr (Or.inl hbefore)
  · exact Or.inr (Or.inr hafter)
  · obtain ⟨x, w, hx, hw, hnot⟩ := houtside
    exact (hnot (hwith.reaches_of_slot hx hw)).elim

/-- **References inside of common tables.**  A reference to the name of a common table that
it stands in is offered this table last. -/
theorem offersLast_of_reaches (hitem : item ∈ items) {c n query : NodeId} {name : String}
    (hc : t.Reaches item c) (hcommon : t.get? c = some (.commonTable name query))
    (hn : t.Reaches c n) : t.OffersLast item n (nameKey name) c := by
  have hground : t.Grounded item := hroot.inv (h.holds hitem)
  refine ⟨⟨hc, ⟨name, query, hcommon, rfl⟩, fun hlater => hlater.not_reaches hshape hground hn⟩,
    fun d hd => ?_⟩
  obtain ⟨name', query', hcommon', -⟩ := hd.named
  rcases h.commonTables_order hshape hroot hitem hc hcommon hd.below hcommon' with
    heq | hbefore | hafter
  · exact Or.inl heq
  · exact Or.inr hbefore
  · -- What is listed after the table is listed after the reference in it.
    exact (hd.notLater (hafter.below hn .refl)).elim

/-- There are no outputs below a declaration. -/
theorem no_output (hitem : item ∈ items) {name : String} {type : NodeId}
    {initializer : Option NodeId} (hdeclare : t.get? item = some (.declare name type initializer))
    {n : NodeId} (hn : t.Reaches item n) (columns : List NodeId) (target : Option NodeId) :
    t.get? n ≠ some (.output columns target) := by
  intro hx
  obtain ⟨item', hitem', y, hy, hslot⟩ := h.outputs n columns target (h.reaches hitem hn) hx
  have hbelow : t.Reaches item' n :=
    Relation.ReflTransGen.single ⟨y, hy, Node.outputClause?_mem_children hslot⟩
  obtain rfl := h.item_unique hshape hroot hitem hitem' hn hbelow
  cases hdeclare.symm.trans hy
  cases hslot

end

end FlatScript

/-- A script whose statements are all its own items, with common tables in the
clauses of items only. -/
structure PlainScript (t : Tree) (root : NodeId) (items : List NodeId) : Prop where
  script : t.get? root = some (.script items)
  statements : ∀ n x, t.Reaches root n → t.get? n = some x → x.kind.isStatement → n ∈ items
  commonTables : ∀ n name query, t.Reaches root n →
    t.get? n = some (.commonTable name query) → ∃ item ∈ items, t.InWithClause item n

namespace PlainScript

variable (h : t.PlainScript root items) (hshape : t.TreeShaped) (hroot : t.Grounded root)

include h hshape hroot

/-- Nothing stands between a script and its items. -/
theorem eq_of_reaches_item {n : NodeId} (hn : t.Reaches root n) (hitem : item ∈ items)
    (hreach : t.Reaches n item) : n = root ∨ n = item := by
  rcases (Relation.ReflTransGen.cases_tail_iff _ _ _).1 hreach with heq | ⟨parent, hup, hholds⟩
  · exact Or.inr heq.symm
  · obtain rfl : parent = root := hshape.parent_unique hholds ⟨_, h.script, hitem⟩
    rcases Relation.ReflTransGen.cases_head_iff.1 hup with heq | ⟨c, hc, hback⟩
    · exact Or.inl heq
    · exact ((hroot.of_reaches hn).not_reaches_parent hc (hback.trans hn)).elim

variable {c query : NodeId} {name : String} (hc : t.Reaches root c)
  (hcommon : t.get? c = some (.commonTable name query))

include hc hcommon

/-- A common table is above no item of the script. -/
theorem not_reaches_item (hitem : item ∈ items) {x : Node} (hx : t.get? item = some x)
    (hkind : x.kind ≠ .commonTable) : ¬ t.Reaches c item := by
  intro hreach
  rcases h.eq_of_reaches_item hshape hroot hc hitem hreach with rfl | rfl
  · cases hcommon.symm.trans h.script
  · cases hcommon.symm.trans hx
    exact hkind rfl

/-- There are no statements below a common table. -/
theorem not_isStatement {n : NodeId} {x : Node} (hn : t.Reaches c n) (hx : t.get? n = some x) :
    ¬ x.kind.isStatement := by
  intro hstatement
  have hitem := h.statements n x (hc.trans hn) hx hstatement
  refine h.not_reaches_item hshape hroot hc hcommon hitem hx ?_ hn
  intro hkind
  rw [hkind] at hstatement
  cases hstatement

/-- Common tables are not nested. -/
theorem eq_of_reaches_commonTable {d query' : NodeId} {name' : String} (hd : t.Reaches c d)
    (hcommon' : t.get? d = some (.commonTable name' query')) : c = d := by
  obtain ⟨item, hitem, hwith⟩ := h.commonTables c name query hc hcommon
  obtain ⟨item', hitem', hwith'⟩ := h.commonTables d name' query' (hc.trans hd) hcommon'
  -- Both tables are below one item: the clause of the lower one does not start below
  -- the upper one.
  rcases hshape.reaches_total hd hwith'.reaches with habove | hbelow
  · obtain ⟨x, w, hx, hw, -⟩ := hwith'.exists_slot
    refine (h.not_reaches_item hshape hroot hc hcommon hitem' hx ?_ habove).elim
    cases x <;> simp [Node.withClause?] at hw <;> simp [Node.kind]
  · obtain rfl : item = item' := hshape.apart hroot ⟨_, h.script, hitem⟩ ⟨_, h.script, hitem'⟩
      hwith.reaches hbelow
    have hground : t.Grounded item := hroot.inv ⟨_, h.script, hitem⟩
    rcases hwith.eq_or_list hshape hground hwith' hd with heq | ⟨tables, htables⟩
    · exact heq
    · cases hcommon.symm.trans htables

end PlainScript

end Tree

end UnionScript
