import Mathlib.Data.List.Chain
import Mathlib.Logic.Relation
import UnionScript.Proofs.UnionType.Join
import UnionScript.Typing

/-!
# Types come from leaves

An expression has its type from the leaves that it leads to: literals, properties,
variables, enumeration members, built-in functions and conditions, each with a
type of its own (`Typing.ownType?`).  All other expressions only lead on to others
(`Typing.linksFrom`), and what they lead to is merged.

Whatever has no type adds nothing where types are merged, and makes the type
undefined where it is the only one, so in both places it counts as an expression
without leaves.  Hence the type of an expression is the join of the types of its
leaves, as long as none of them is further away than links are followed.

* `joinOf_leafWithin` — what is found within a number of links is the join of the
  leaves within that number;
* `leafWithin_iff` — if no way is longer, these are all leaves;
* `types_are_joins_of_leaves` — so the type is the join of all leaves, and any two
  expressions with leaves of the same types have the same type.
-/

namespace UnionScript.Typing

/-- The type that a node has by itself. -/
def ownType? (bindings : Bindings) (n : NodeId) : Node → Option UnionType
  | .scalarLiteral token lexeme => some (literal token lexeme)
  | .columnReference _ =>
    match bindings.find? n with
    | some (.property definition index) => definition.properties[index]?.map Property.type
    | some (.enumValue member) => some (.entity member.code)
    | _ => none
  | .variableReference _ =>
    ((bindings.find? n).bind Binding.variableType?).bind VariableType.scalar?
  | .functionCall name _ _ => (Builtin.find? name).map (fun f => .ofKind f.result)
  | .unary .not _ | .comparison _ _ _ | .logical _ _ _ | .existsQuery _ | .inList _ _ _ =>
    some (.ofKind .boolean)
  | _ => none

/-- The nodes that a node takes its type from. -/
def links (bindings : Bindings) (n : NodeId) : Node → List NodeId
  | .columnReference _ =>
    match bindings.find? n with
    | some (.column projected) => [projected]
    | _ => []
  | .columnExpression expression _ => [expression]
  | .caseExpression branches otherwise => branches ++ otherwise.toList
  | .whenClause _ result => [result]
  | .functionCall name arguments _ =>
    match Builtin.find? name with
    | some _ => []
    | none => arguments
  | .unary .minus operand => [operand]
  | .binary _ left right => [left, right]
  | .group expression => [expression]
  | .selectExpression block => block.columns.head?.toList
  | .tableUnion left _ _ => [left]
  | _ => []

section

variable (tree : Tree) (bindings : Bindings)

/-- The nodes that the node of a number takes its type from. -/
def linksFrom (n : NodeId) : List NodeId :=
  match tree.get? n with
  | some x => links bindings n x
  | none => []

/-- A node takes its type from another one. -/
def Follows (n m : NodeId) : Prop :=
  m ∈ linksFrom tree bindings n

/-- A leaf that a node leads to, over any number of links, and its type. -/
def Contributes (n leaf : NodeId) (t : UnionType) : Prop :=
  Relation.ReflTransGen (Follows tree bindings) n leaf ∧
    ∃ x, tree.get? leaf = some x ∧ ownType? bindings leaf x = some t

/-- No way from a node has more than a number of links. -/
def LinksAtMost (limit : Nat) (n : NodeId) : Prop :=
  ∀ way, (n :: way).IsChain (Follows tree bindings) → way.length ≤ limit

/-- A type of a leaf that is found in a number of nodes in a row. -/
def LeafWithin : Nat → NodeId → UnionType → Prop
  | 0, _, _ => False
  | steps + 1, n, t =>
    (∃ x, tree.get? n = some x ∧ ownType? bindings n x = some t) ∨
      ∃ m ∈ linksFrom tree bindings n, LeafWithin steps m t

end

variable {tree : Tree} {bindings : Bindings} {n m : NodeId} {t : UnionType} {limit steps : Nat}

/-- The type that was found for a node, undefined if none was. -/
def typeOf (found : Option Inferred) : UnionType :=
  (found.getD Inferred.undefined).type

/-- Nodes without a type may as well be merged as undefined ones. -/
theorem merged_type (infer : NodeId → Option Inferred) (nodes : List NodeId) :
    (merged infer nodes).type = UnionType.mergeAll (nodes.map (fun m => typeOf (infer m))) := by
  have hfold : ∀ (nodes : List NodeId) (t : UnionType),
      ((nodes.filterMap infer).map Inferred.type).foldl UnionType.merge t =
        (nodes.map (fun m => typeOf (infer m))).foldl UnionType.merge t := by
    intro nodes
    induction nodes with
    | nil => exact fun _ => rfl
    | cons m rest ih =>
        intro t
        cases hm : infer m with
        | none => simp [hm, ih, typeOf, Inferred.undefined, UnionType.merge_undefined]
        | some i => simp [hm, ih, typeOf]
  exact hfold nodes UnionType.undefined

/-- Another name leaves the type as it is. -/
theorem typeOf_map {f : Inferred → Inferred} (hf : ∀ i, (f i).type = i.type)
    (found : Option Inferred) : typeOf (found.map f) = typeOf found := by
  cases found with
  | none => rfl
  | some i => exact hf i

/-- **Leaves and links.**  A node has a type of its own, or the type that what it
leads to has together. -/
theorem node_type (infer : NodeId → Option Inferred) (n : NodeId) (x : Node) :
    (∃ t, ownType? bindings n x = some t ∧ links bindings n x = [] ∧
        typeOf (node infer bindings n x) = t) ∨
      (ownType? bindings n x = none ∧ typeOf (node infer bindings n x) =
        UnionType.mergeAll ((links bindings n x).map (fun m => typeOf (infer m)))) := by
  cases x with
  | scalarLiteral token lexeme => exact Or.inl ⟨_, rfl, rfl, rfl⟩
  | comparison | logical | existsQuery | inList => exact Or.inl ⟨_, rfl, rfl, rfl⟩
  | columnReference identifier =>
      dsimp only [ownType?, links, node]
      cases bindings.find? n with
      | none => exact Or.inr ⟨rfl, rfl⟩
      | some b =>
          cases b with
          | property definition index =>
              dsimp only [Option.bind_some, column]
              cases definition.properties[index]? with
              | none => exact Or.inr ⟨rfl, rfl⟩
              | some p => exact Or.inl ⟨_, rfl, rfl, rfl⟩
          | column projected =>
              refine Or.inr ⟨rfl, ?_⟩
              rw [List.map_singleton, UnionType.mergeAll_singleton]
              exact typeOf_map (fun _ => by rfl) (infer projected)
          | enumValue member => exact Or.inl ⟨_, rfl, rfl, rfl⟩
          | _ => exact Or.inr ⟨rfl, rfl⟩
  | variableReference name =>
      dsimp only [ownType?, links, node]
      cases ((bindings.find? n).bind Binding.variableType?).bind VariableType.scalar? with
      | none => exact Or.inr ⟨rfl, rfl⟩
      | some t => exact Or.inl ⟨t, rfl, rfl, rfl⟩
  | functionCall name arguments window =>
      dsimp only [ownType?, links, node]
      cases Builtin.find? name with
      | none => exact Or.inr ⟨rfl, merged_type infer arguments⟩
      | some f => exact Or.inl ⟨_, rfl, rfl, rfl⟩
  | unary op operand =>
      cases op with
      | minus =>
          refine Or.inr ⟨rfl, ?_⟩
          rw [links, List.map_singleton, UnionType.mergeAll_singleton]
          exact typeOf_map (fun _ => by rfl) (infer operand)
      | not => exact Or.inl ⟨_, rfl, rfl, rfl⟩
  | columnExpression expression aliasName =>
      refine Or.inr ⟨rfl, ?_⟩
      rw [links, List.map_singleton, UnionType.mergeAll_singleton]
      exact typeOf_map (fun _ => by rfl) (infer expression)
  | whenClause | group | tableUnion =>
      exact Or.inr ⟨rfl, (UnionType.mergeAll_singleton _).symm⟩
  | selectExpression block =>
      refine Or.inr ⟨rfl, ?_⟩
      dsimp only [links, node]
      cases block.columns.head? with
      | none => rfl
      | some first => exact (UnionType.mergeAll_singleton _).symm
  | caseExpression branches otherwise => exact Or.inr ⟨rfl, merged_type infer _⟩
  | binary op left right => exact Or.inr ⟨rfl, merged_type infer _⟩
  | _ => exact Or.inr ⟨rfl, rfl⟩

/-- **What is found is the join of the leaves within reach.** -/
theorem joinOf_leafWithin (steps : Nat) (n : NodeId) :
    UnionType.JoinOf (LeafWithin tree bindings steps n)
      (typeOf (inferWithin tree bindings steps n)) := by
  induction steps generalizing n with
  | zero => exact .undefined fun _ h => h
  | succ steps ih =>
      cases hx : tree.get? n with
      | none =>
          simp only [inferWithin, hx, Option.bind_none]
          refine .undefined fun t ht => ?_
          simp [LeafWithin, linksFrom, hx] at ht
      | some x =>
          have hjoin := UnionType.joinOf_mergeAll fun m (_ : m ∈ links bindings n x) => ih m
          simp only [inferWithin, hx, Option.bind_some]
          rcases node_type (inferWithin tree bindings steps) n x with
            ⟨t, hown, hlinks, htype⟩ | ⟨hown, htype⟩
          · rw [htype]
            refine (UnionType.JoinOf.singleton t).congr fun u => ?_
            simp [LeafWithin, linksFrom, hx, hown, hlinks, eq_comm]
          · rw [htype]
            refine hjoin.congr fun u => ?_
            simp [LeafWithin, linksFrom, hx, hown]

/-- A leaf within reach stays within reach. -/
theorem LeafWithin.succ (h : LeafWithin tree bindings steps n t) :
    LeafWithin tree bindings (steps + 1) n t := by
  induction steps generalizing n with
  | zero => exact h.elim
  | succ steps ih =>
      rcases h with hown | ⟨m, hm, hleaf⟩
      · exact Or.inl hown
      · exact Or.inr ⟨m, hm, ih hleaf⟩

/-- What is within reach is a leaf that contributes. -/
theorem LeafWithin.contributes (h : LeafWithin tree bindings steps n t) :
    ∃ leaf, Contributes tree bindings n leaf t := by
  induction steps generalizing n with
  | zero => exact h.elim
  | succ steps ih =>
      rcases h with hown | ⟨m, hm, hleaf⟩
      · exact ⟨n, Relation.ReflTransGen.refl, hown⟩
      · obtain ⟨leaf, hreach, hown⟩ := ih hleaf
        exact ⟨leaf, Relation.ReflTransGen.head hm hreach, hown⟩

theorem linksAtMost_zero_iff :
    LinksAtMost tree bindings 0 n ↔ linksFrom tree bindings n = [] := by
  constructor
  · intro h
    rw [List.eq_nil_iff_forall_not_mem]
    intro m hm
    have hway := h [m] (List.isChain_pair.2 hm)
    simp at hway
  · intro h way hway
    cases way with
    | nil => exact Nat.le_refl 0
    | cons m rest =>
        have hm : m ∈ linksFrom tree bindings n := (List.isChain_cons_cons.1 hway).1
        simp [h] at hm

theorem linksAtMost_succ_iff :
    LinksAtMost tree bindings (limit + 1) n ↔
      ∀ m ∈ linksFrom tree bindings n, LinksAtMost tree bindings limit m := by
  constructor
  · intro h m hm way hway
    have hlonger := h (m :: way) (List.isChain_cons_cons.2 ⟨hm, hway⟩)
    simpa using hlonger
  · intro h way hway
    cases way with
    | nil => exact Nat.zero_le _
    | cons m rest =>
        obtain ⟨hm, hrest⟩ := List.isChain_cons_cons.1 hway
        exact Nat.succ_le_succ (h m hm rest hrest)

/-- Whether ways are longer than a number of links is found out by going them. -/
instance decidableLinksAtMost (tree : Tree) (bindings : Bindings) :
    ∀ limit n, Decidable (LinksAtMost tree bindings limit n)
  | 0, _ => decidable_of_iff _ linksAtMost_zero_iff.symm
  | limit + 1, _ =>
    have := decidableLinksAtMost tree bindings limit
    decidable_of_iff _ linksAtMost_succ_iff.symm

/-- If no way is longer, all leaves are within reach. -/
theorem LinksAtMost.leafWithin (h : LinksAtMost tree bindings limit n) {leaf : NodeId}
    (hleaf : Contributes tree bindings n leaf t) :
    LeafWithin tree bindings (limit + 1) n t := by
  obtain ⟨hreach, hown⟩ := hleaf
  induction limit generalizing n with
  | zero =>
      rw [linksAtMost_zero_iff] at h
      rcases Relation.ReflTransGen.cases_head_iff.1 hreach with rfl | ⟨m, hm, -⟩
      · exact Or.inl hown
      · rw [Follows, h] at hm
        cases hm
  | succ limit ih =>
      rw [linksAtMost_succ_iff] at h
      rcases Relation.ReflTransGen.cases_head_iff.1 hreach with rfl | ⟨m, hm, hrest⟩
      · exact Or.inl hown
      · exact Or.inr ⟨m, hm, ih (h m hm) hrest⟩

/-- The leaves within reach are all leaves if no way is longer. -/
theorem leafWithin_iff (h : LinksAtMost tree bindings limit n) :
    LeafWithin tree bindings (limit + 1) n t ↔ ∃ leaf, Contributes tree bindings n leaf t :=
  ⟨LeafWithin.contributes, fun ⟨_, hleaf⟩ => h.leafWithin hleaf⟩

/-- **Types are joins of leaves.**  If no way from a node is longer than links are
followed, its type is the join of the types of all leaves that it leads to.  So
any other node whose leaves have the same types, in whatever order, grouping and
number, has the same type.  Among types that the operations on types make, those
that carry a reference are those that admit one. -/
theorem types_are_joins_of_leaves (h : LinksAtMost tree bindings maxLinks n) :
    UnionType.JoinOf (fun t => ∃ leaf, Contributes tree bindings n leaf t)
        (infer tree bindings n).type ∧
      (∀ tree' bindings' n', LinksAtMost tree' bindings' maxLinks n' →
        (∀ t, (∃ leaf, Contributes tree' bindings' n' leaf t) ↔
          ∃ leaf, Contributes tree bindings n leaf t) →
        (infer tree' bindings' n').type = (infer tree bindings n).type) ∧
      ∀ leaf t, Contributes tree bindings n leaf t → t.Made →
        (t.CarriesReference ↔ t.has .entity = true) := by
  have hjoin : ∀ {tree bindings n}, LinksAtMost tree bindings maxLinks n →
      UnionType.JoinOf (fun t => ∃ leaf, Contributes tree bindings n leaf t)
        (infer tree bindings n).type := fun h =>
    (joinOf_leafWithin (maxLinks + 1) _).congr fun _ => leafWithin_iff h
  refine ⟨hjoin h, fun tree' bindings' n' h' hsame => ?_, fun _ _ _ hmade => ?_⟩
  · exact ((hjoin h').congr hsame).unique (hjoin h)
  · exact hmade.codeFits.carriesReference_iff

/-- A choice between an owner, by way of a projected column, and a payer, or else a
text. -/
def ownerOrPayer : Tree :=
  ⟨#[.columnReference "o.owner", .columnExpression 0 (some "who"), .columnReference "t.who",
    .scalarLiteral .string "none", .comparison .neq 2 3, .whenClause 4 2,
    .columnReference "o.payer", .group 6, .caseExpression [5] (some 7),
    .functionCall "coalesce" [8, 3, 8] none]⟩

/-- The owner and the payer of an order are references to different objects. -/
def ownerOrPayerBindings : Bindings :=
  let order : Definition :=
    ⟨3, "order", "t_order", [.ofType "owner" "c_owner" (.entity 5),
      .ofType "payer" "c_payer" (.entity 7)]⟩
  .ofList [(0, .property order 0), (2, .column 1), (6, .property order 1)]

/-- The type admits texts and references to any object: there are three leaves, two
of them references with different codes, and the condition is none of them. -/
theorem type_of_ownerOrPayer :
    LinksAtMost ownerOrPayer ownerOrPayerBindings maxLinks 9 ∧
      (infer ownerOrPayer ownerOrPayerBindings 9).type =
        (UnionType.ofKind .string).merge (.entity TypeCode.any) ∧
      UnionType.JoinOf
        (fun t => ∃ leaf, Contributes ownerOrPayer ownerOrPayerBindings 9 leaf t)
        ((UnionType.ofKind .string).merge (.entity TypeCode.any)) := by
  have hlinks : LinksAtMost ownerOrPayer ownerOrPayerBindings maxLinks 9 := by decide
  have htype : (infer ownerOrPayer ownerOrPayerBindings 9).type =
      (UnionType.ofKind .string).merge (.entity TypeCode.any) := by decide
  exact ⟨hlinks, htype, htype ▸ (types_are_joins_of_leaves hlinks).1⟩

end UnionScript.Typing
