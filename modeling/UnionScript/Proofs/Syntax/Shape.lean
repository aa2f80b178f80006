import Mathlib.Data.List.Nodup
import Mathlib.Data.List.Perm.Basic
import Mathlib.Logic.Relation
import UnionScript.Syntax.Tree

/-!
# The shape of a syntax tree

Nodes refer to each other by number, so nothing keeps two nodes from sharing
a child, or a way down from leading in a circle.  A tree is *tree-shaped* when
every node stands in at most one slot.  Then a node has at most one parent,
and what stands below one slot of a node is apart from what stands below any
other (`TreeShaped.apart`), as long as no way down leads back up.
-/

namespace UnionScript

namespace Tree

/-- A node holds another one in one of its slots. -/
def Holds (t : Tree) (parent child : NodeId) : Prop :=
  ∃ x, t.get? parent = some x ∧ child ∈ x.children

/-- A way down, over any number of slots, leads from a node to another. -/
def Reaches (t : Tree) : NodeId → NodeId → Prop :=
  Relation.ReflTransGen t.Holds

/-- Every node stands in at most one slot. -/
def TreeShaped (t : Tree) : Prop :=
  (t.nodes.toList.flatMap Node.children).Nodup

instance (t : Tree) : Decidable t.TreeShaped := by
  unfold TreeShaped; infer_instance

/-- No way down from a node goes on forever. -/
def Grounded (t : Tree) (n : NodeId) : Prop :=
  Acc (fun child parent => t.Holds parent child) n

variable {t : Tree}

/-- The node of a number is one of the nodes of the tree. -/
theorem mem_nodes_of_get? {n : NodeId} {x : Node} (hx : t.get? n = some x) :
    x ∈ t.nodes.toList := by
  unfold get? at hx
  rw [← Array.getElem?_toList] at hx
  exact List.mem_of_getElem? hx

/-- What a known node holds is one of its children. -/
theorem Holds.mem_children {n c : NodeId} {x : Node} (h : t.Holds n c)
    (hx : t.get? n = some x) : c ∈ x.children := by
  obtain ⟨y, hy, hc⟩ := h
  obtain rfl : x = y := Option.some.inj (hx.symm.trans hy)
  exact hc

/-- A node reaches itself and what its children reach. -/
theorem reaches_iff {n m : NodeId} :
    t.Reaches n m ↔ m = n ∨ ∃ c, t.Holds n c ∧ t.Reaches c m := by
  constructor
  · intro h
    rcases Relation.ReflTransGen.cases_head_iff.1 h with rfl | ⟨c, hc, hm⟩
    · exact Or.inl rfl
    · exact Or.inr ⟨c, hc, hm⟩
  · rintro (rfl | ⟨c, hc, hm⟩)
    · exact Relation.ReflTransGen.refl
    · exact Relation.ReflTransGen.head hc hm

/-- The nodes that a known node reaches. -/
theorem reaches_iff_of_get? {n m : NodeId} {x : Node} (hx : t.get? n = some x) :
    t.Reaches n m ↔ m = n ∨ ∃ c ∈ x.children, t.Reaches c m := by
  rw [reaches_iff]
  constructor
  · rintro (rfl | ⟨c, hc, hm⟩)
    · exact Or.inl rfl
    · exact Or.inr ⟨c, hc.mem_children hx, hm⟩
  · rintro (rfl | ⟨c, hc, hm⟩)
    · exact Or.inl rfl
    · exact Or.inr ⟨c, ⟨x, hx, hc⟩, hm⟩

/-- A node without children reaches itself only. -/
theorem reaches_leaf_iff {n m : NodeId} {x : Node} (hx : t.get? n = some x)
    (hleaf : x.children = []) : t.Reaches n m ↔ m = n := by
  simp [reaches_iff_of_get? hx, hleaf]

/-- A number that stands for no node reaches itself only. -/
theorem reaches_missing_iff {n m : NodeId} (hn : t.get? n = none) :
    t.Reaches n m ↔ m = n := by
  rw [reaches_iff]
  constructor
  · rintro (rfl | ⟨c, ⟨x, hx, -⟩, -⟩)
    · rfl
    · rw [hn] at hx
      cases hx
  · exact Or.inl

/-- Nodes below grounded nodes only are grounded. -/
theorem grounded_of_children {n : NodeId}
    (h : ∀ c, t.Holds n c → t.Grounded c) : t.Grounded n :=
  Acc.intro n h

/-- What is below a grounded node is grounded. -/
theorem Grounded.of_reaches {n m : NodeId} (hn : t.Grounded n) (hm : t.Reaches n m) :
    t.Grounded m := by
  induction hm with
  | refl => exact hn
  | tail _ hc ih => exact ih.inv hc

/-- Where no way along links goes on forever, none leads back. -/
theorem not_reflTransGen_of_acc {links : NodeId → NodeId → Prop} {n c : NodeId}
    (hn : Acc (fun b a => links a b) n) (hc : links n c) : ¬ Relation.ReflTransGen links c n := by
  induction hn generalizing c with
  | intro n _ ih =>
      intro hback
      rcases Relation.ReflTransGen.cases_head_iff.1 hback with rfl | ⟨d, hd, hdn⟩
      · exact ih c hc hc Relation.ReflTransGen.refl
      · exact ih c hc hd (hdn.tail hc)

/-- No way down from a child of a grounded node leads back to it. -/
theorem Grounded.not_reaches_parent {n c : NodeId} (hn : t.Grounded n)
    (hc : t.Holds n c) : ¬ t.Reaches c n :=
  not_reflTransGen_of_acc hn hc

section

variable (h : ∀ n : Fin t.nodes.size, ∀ c ∈ (getElem t.nodes n.1 n.2).children, c < n)

include h

/-- Where children were added before their parents, ways down lead to nodes that
were added earlier. -/
theorem le_of_reaches {n m : NodeId} (hm : t.Reaches n m) : m ≤ n := by
  induction hm with
  | refl => exact Nat.le_refl n
  | tail _ hc ih =>
      obtain ⟨x, hx, hc⟩ := hc
      obtain ⟨hlt, rfl⟩ := Array.getElem?_eq_some_iff.1 hx
      exact Nat.le_trans (Nat.le_of_lt (h ⟨_, hlt⟩ _ hc)) ih

/-- Where children were added before their parents, no way down goes on forever. -/
theorem grounded_of_children_lt (n : NodeId) : t.Grounded n := by
  induction n using Nat.strongRecOn with
  | _ n ih =>
      refine grounded_of_children ?_
      rintro c ⟨x, hx, hc⟩
      obtain ⟨hlt, rfl⟩ := Array.getElem?_eq_some_iff.1 hx
      exact ih c (h ⟨n, hlt⟩ c hc)

end

/-- Every node stands in at most one slot, and no way down goes on forever. -/
structure IsForest (t : Tree) : Prop where
  shape : t.TreeShaped
  grounded : ∀ n, t.Grounded n

namespace TreeShaped

/-- The slots of a node of a tree-shaped tree hold different nodes. -/
theorem children_nodup (hshape : t.TreeShaped) {n : NodeId} {x : Node}
    (hx : t.get? n = some x) : x.children.Nodup :=
  (List.nodup_flatMap.1 hshape).1 x (mem_nodes_of_get? hx)

/-- **One parent.**  Two nodes that hold the same node are the same. -/
theorem parent_unique (hshape : t.TreeShaped) {a b c : NodeId}
    (ha : t.Holds a c) (hb : t.Holds b c) : a = b := by
  obtain ⟨x, hx, hcx⟩ := ha
  obtain ⟨y, hy, hcy⟩ := hb
  have hdisjoint := (List.nodup_flatMap.1 hshape).2
  rw [List.pairwise_iff_getElem] at hdisjoint
  simp only [get?, Array.getElem?_eq_some_iff] at hx hy
  obtain ⟨ha, rfl⟩ := hx
  obtain ⟨hb, rfl⟩ := hy
  rcases Nat.lt_trichotomy a b with hlt | heq | hgt
  · exact (hdisjoint a b (by simpa using ha) (by simpa using hb) hlt hcx hcy).elim
  · exact heq
  · exact (hdisjoint b a (by simpa using hb) (by simpa using ha) hgt hcy hcx).elim

/-- Of two nodes above a third one, one is above the other. -/
theorem reaches_total (hshape : t.TreeShaped) {a b m : NodeId}
    (ha : t.Reaches a m) (hb : t.Reaches b m) : t.Reaches a b ∨ t.Reaches b a := by
  have hunique : Relator.RightUnique (Function.swap t.Holds) :=
    fun _ _ _ h h' => hshape.parent_unique h h'
  rcases Relation.ReflTransGen.total_of_right_unique hunique
    (Relation.reflTransGen_swap.2 ha) (Relation.reflTransGen_swap.2 hb) with h | h
  · exact Or.inr (Relation.reflTransGen_swap.1 h)
  · exact Or.inl (Relation.reflTransGen_swap.1 h)

/-- A child of a grounded node reaches no other child of that node. -/
theorem eq_of_reaches_sibling (hshape : t.TreeShaped) {n c d : NodeId}
    (hn : t.Grounded n) (hc : t.Holds n c) (hd : t.Holds n d)
    (hcd : t.Reaches c d) : c = d := by
  rcases (Relation.ReflTransGen.cases_tail_iff _ _ _).1 hcd with h | ⟨p, hcp, hpd⟩
  · exact h.symm
  · obtain rfl := hshape.parent_unique hpd hd
    exact (hn.not_reaches_parent hc hcp).elim

/-- **Slots are apart.**  What two different children of a node reach has
nothing in common. -/
theorem apart (hshape : t.TreeShaped) {n c d m : NodeId} (hn : t.Grounded n)
    (hc : t.Holds n c) (hd : t.Holds n d) (hcm : t.Reaches c m)
    (hdm : t.Reaches d m) : c = d := by
  rcases hshape.reaches_total hcm hdm with h | h
  · exact hshape.eq_of_reaches_sibling hn hc hd h
  · exact (hshape.eq_of_reaches_sibling hn hd hc h).symm

end TreeShaped

end Tree

end UnionScript
