import Mathlib.Data.List.Perm.Subperm
import UnionScript.Proofs.Syntax.Shape

/-!
# What belongs in which slot

Three kinds of nodes are not visited by themselves: the type of a declaration, an
assignment, and a clause that stores rows.  There are slots for them, and a tree
is *well-placed* when these nodes stand in their slots and nothing else does.

A way is a list of nodes each of which is linked to the next one, and a way down one
along which each holds the next.  From a node with no endless way every way has
different nodes, so none is longer than the tree has nodes (`length_le_of_isChain`).
-/

namespace UnionScript

/-- What a slot of a node is for. -/
inductive Slot where
  /-- For what is visited by itself. -/
  | plain
  /-- For the type of a declaration. -/
  | type
  /-- For an assignment to a column. -/
  | assignment
  /-- For a clause that stores rows. -/
  | store
deriving DecidableEq, Repr

/-- The slot that nodes of a kind belong in. -/
def NodeKind.slot : NodeKind → Slot
  | .typeIdentifier => .type
  | .setExpression => .assignment
  | .into => .store
  | _ => .plain

namespace Node

/-- The slots of a node and the nodes that they hold. -/
def slots : Node → List (Slot × NodeId)
  | .declare _ type initializer => (.type, type) :: initializer.toList.map (.plain, ·)
  | .update s =>
    (s.commonTables.toList ++ [s.target]).map (.plain, ·) ++ s.assignments.map (.assignment, ·) ++
      (s.source.toList ++ s.condition.toList ++ s.output.toList).map (.plain, ·)
  | .upsert s =>
    (s.commonTables.toList ++ [s.target, s.source] ++ s.condition.toList).map (.plain, ·) ++
      s.assignments.map (.assignment, ·)
  | .selectExpression b =>
    (b.top.toList ++ b.columns).map (.plain, ·) ++ b.into.toList.map (.store, ·) ++
      (b.source.toList ++ b.condition.toList ++ b.grouping ++ b.having.toList ++
        b.ordering).map (.plain, ·)
  | .output columns target => columns.map (.plain, ·) ++ target.toList.map (.store, ·)
  | x => x.children.map (.plain, ·)

/-- The slots of a node hold its children. -/
theorem map_snd_slots (x : Node) : x.slots.map Prod.snd = x.children := by
  cases x <;> simp [slots, children, Function.comp_def]

theorem mem_children_of_mem_slots {x : Node} {slot : Slot} {c : NodeId} (h : (slot, c) ∈ x.slots) :
    c ∈ x.children := by
  rw [← map_snd_slots]
  exact List.mem_map_of_mem h

end Node

namespace Tree

/-- The slot that a node belongs in; a number that stands for no node may stand
anywhere but in the slots made for certain nodes. -/
def slotOf (t : Tree) (n : NodeId) : Slot :=
  ((t.get? n).map (·.kind.slot)).getD .plain

/-- Below a node, every slot holds what it is for, and assignments are to columns. -/
structure WellPlaced (t : Tree) (root : NodeId) : Prop where
  placed : ∀ n x, t.Reaches root n → t.get? n = some x →
    ∀ slot c, (slot, c) ∈ x.slots → t.slotOf c = slot
  assigned : ∀ n column initializer, t.Reaches root n →
    t.get? n = some (.setExpression column initializer) →
    ∃ identifier, t.get? column = some (.columnReference identifier)

/-- If the node is an assignment, it is one to a column. -/
def assigns (t : Tree) : Node → Bool
  | .setExpression column _ => (t.get? column).any (·.kind == .columnReference)
  | _ => true

/-- A tree is well-placed from everywhere if each of its nodes holds what belongs
there. -/
theorem wellPlaced_of_nodes {t : Tree}
    (hslots : ∀ n : Fin t.nodes.size, ∀ e ∈ (getElem t.nodes n.1 n.2).slots, t.slotOf e.2 = e.1)
    (hassigns : ∀ n : Fin t.nodes.size, t.assigns (getElem t.nodes n.1 n.2)) (root : NodeId) :
    t.WellPlaced root := by
  refine ⟨fun n x _ hx slot c hc => ?_, fun n column initializer _ hx => ?_⟩
  · obtain ⟨hlt, rfl⟩ := Array.getElem?_eq_some_iff.1 hx
    exact hslots ⟨n, hlt⟩ (slot, c) hc
  · obtain ⟨hlt, hnode⟩ := Array.getElem?_eq_some_iff.1 hx
    have hassigned := hassigns ⟨n, hlt⟩
    simp only [hnode, assigns, Option.any_eq_true, beq_iff_eq] at hassigned
    obtain ⟨y, hy, hkind⟩ := hassigned
    cases y <;> cases hkind
    exact ⟨_, hy⟩

/-- The walk over a node leads on to a node in one of its plain slots, or to the
initializer of an assignment in it. -/
inductive LeadsTo (t : Tree) (n c : NodeId) : Prop
  | plain {x : Node} (hx : t.get? n = some x) (hc : (.plain, c) ∈ x.slots) : LeadsTo t n c
  | assigned {x : Node} {m column : NodeId} (hx : t.get? n = some x)
      (hm : (.assignment, m) ∈ x.slots) (hset : t.get? m = some (.setExpression column c)) :
      LeadsTo t n c

variable {t : Tree} {n c root : NodeId}

/-- The walk leads on to what is held by the node or by a node that it holds. -/
theorem LeadsTo.reaches (h : t.LeadsTo n c) : t.Reaches n c := by
  cases h with
  | plain hx hc => exact .single ⟨_, hx, Node.mem_children_of_mem_slots hc⟩
  | assigned hx hm hset =>
      have hholds : t.Holds n _ := ⟨_, hx, Node.mem_children_of_mem_slots hm⟩
      exact .head hholds (.single ⟨_, hset, by simp [Node.children]⟩)

/-- A way down from where the walk leads to goes on from a longer one. -/
theorem LeadsTo.exists_way (h : t.LeadsTo n c) {way : List NodeId}
    (hway : List.IsChain t.Holds (c :: way)) :
    ∃ longer, List.IsChain t.Holds (n :: longer) ∧ way.length < longer.length := by
  cases h with
  | plain hx hc =>
      have hholds : t.Holds n c := ⟨_, hx, Node.mem_children_of_mem_slots hc⟩
      exact ⟨c :: way, List.isChain_cons_cons.2 ⟨hholds, hway⟩, by simp⟩
  | @assigned x m column hx hm hset =>
      have hholds : t.Holds n m := ⟨_, hx, Node.mem_children_of_mem_slots hm⟩
      have hholds' : t.Holds m c := ⟨_, hset, by simp [Node.children]⟩
      refine ⟨m :: c :: way, ?_, Nat.lt_add_right 1 (Nat.lt_succ_self way.length)⟩
      exact List.isChain_cons_cons.2 ⟨hholds, List.isChain_cons_cons.2 ⟨hholds', hway⟩⟩

/-- What belongs in a slot for certain nodes is one of them. -/
theorem exists_of_slotOf {slot : Slot} (h : t.slotOf n = slot) (hslot : slot ≠ .plain) :
    ∃ x, t.get? n = some x ∧ x.kind.slot = slot := by
  cases hx : t.get? n with
  | none => exact (hslot (by simpa [slotOf, hx] using h.symm)).elim
  | some x => exact ⟨x, rfl, by simpa [slotOf, hx] using h⟩

/-- What belongs in the slot for an assignment is one. -/
theorem exists_of_slotOf_assignment (h : t.slotOf n = .assignment) :
    ∃ column initializer, t.get? n = some (.setExpression column initializer) := by
  obtain ⟨x, hx, hkind⟩ := exists_of_slotOf h (by decide)
  cases x <;> cases hkind
  exact ⟨_, _, hx⟩

/-- What belongs in the slot for a clause that stores rows is one. -/
theorem exists_of_slotOf_store (h : t.slotOf n = .store) :
    ∃ target, t.get? n = some (.into target) := by
  obtain ⟨x, hx, hkind⟩ := exists_of_slotOf h (by decide)
  cases x <;> cases hkind
  exact ⟨_, hx⟩

/-- What belongs in the slot for a type is one. -/
theorem exists_of_slotOf_type (h : t.slotOf n = .type) :
    ∃ name, t.get? n = some (.typeIdentifier name) := by
  obtain ⟨x, hx, hkind⟩ := exists_of_slotOf h (by decide)
  cases x <;> cases hkind
  exact ⟨_, hx⟩

/-- In a well-placed tree the walk does not lead to what has a slot of its own. -/
theorem WellPlaced.slotOf_of_leadsTo (h : t.WellPlaced root) (hn : t.Reaches root n)
    (hc : t.LeadsTo n c) : t.slotOf c = .plain := by
  cases hc with
  | plain hx hc => exact h.placed n _ hn hx .plain c hc
  | assigned hx hm hset =>
      have hreach : t.Reaches root _ := hn.tail ⟨_, hx, Node.mem_children_of_mem_slots hm⟩
      exact h.placed _ _ hreach hset .plain c (by simp [Node.slots, Node.children])

section

variable {links : NodeId → NodeId → Prop} {way : List NodeId}

/-- Ways along links lead to what links lead to. -/
theorem reflTransGen_of_mem_way (hway : List.IsChain links (n :: way)) {m : NodeId}
    (hm : m ∈ n :: way) : Relation.ReflTransGen links n m := by
  induction way generalizing n with
  | nil =>
      obtain rfl := List.mem_singleton.1 hm
      exact .refl
  | cons c way ih =>
      rw [List.isChain_cons_cons] at hway
      rcases List.mem_cons.1 hm with rfl | hm
      · exact .refl
      · exact .head hway.1 (ih hway.2 hm)

/-- All but the last node of a way are nodes of the tree, if links start there. -/
theorem lt_size_of_mem_dropLast (hlinks : ∀ a b, links a b → a < t.size)
    (hway : List.IsChain links (n :: way)) {m : NodeId} (hm : m ∈ (n :: way).dropLast) :
    m < t.size := by
  induction way generalizing n with
  | nil => cases hm
  | cons c way ih =>
      rw [List.isChain_cons_cons] at hway
      rw [List.dropLast_cons_of_ne_nil (List.cons_ne_nil c way)] at hm
      rcases List.mem_cons.1 hm with rfl | hm
      · exact hlinks m c hway.1
      · exact ih hway.2 hm

/-- Where no way goes on forever, none comes to a node twice. -/
theorem nodup_of_isChain (hn : Acc (fun b a => links a b) n)
    (hway : List.IsChain links (n :: way)) : (n :: way).Nodup := by
  induction way generalizing n with
  | nil => exact List.nodup_singleton n
  | cons c way ih =>
      rw [List.isChain_cons_cons] at hway
      refine List.nodup_cons.2 ⟨fun hmem => ?_, ih (hn.inv hway.1) hway.2⟩
      exact not_reflTransGen_of_acc hn hway.1 (reflTransGen_of_mem_way hway.2 hmem)

/-- **Ways are short.**  Where no way along links between nodes of the tree goes on
forever, a way has at most one node more than the tree. -/
theorem length_le_of_isChain (hlinks : ∀ a b, links a b → a < t.size)
    (hn : Acc (fun b a => links a b) n) (hway : List.IsChain links (n :: way)) :
    way.length ≤ t.size := by
  have hnodup : (n :: way).dropLast.Nodup :=
    (nodup_of_isChain hn hway).sublist (List.dropLast_sublist _)
  have hsubset : (n :: way).dropLast ⊆ List.range t.size := by
    intro m hm
    exact List.mem_range.2 (lt_size_of_mem_dropLast hlinks hway hm)
  have hle := (List.subperm_of_subset hnodup hsubset).length_le
  simpa using hle

end

/-- Ways down from a grounded node are short. -/
theorem Grounded.length_le_of_isChain (hn : t.Grounded n) {way : List NodeId}
    (hway : List.IsChain t.Holds (n :: way)) : way.length ≤ t.size := by
  refine Tree.length_le_of_isChain ?_ hn hway
  rintro a b ⟨x, hx, -⟩
  exact (Array.getElem?_eq_some_iff.1 hx).1

end Tree

end UnionScript
