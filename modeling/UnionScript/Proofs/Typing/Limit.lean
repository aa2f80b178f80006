import UnionScript.Proofs.BoundScript.Dependencies
import UnionScript.Proofs.Results
import UnionScript.Proofs.Typing.Leaves

/-!
# The limit on links

Types are followed over a limited number of links, since columns may depend on
themselves.  Where they do not, ways along links are of bounded length, but the
bound may be higher than the limit: each stored table on the way adds to it, and
there may be any number of statements that store tables.

* `exists_linksAtMost` — without left-recursive tables each node has such a bound;
* `references_have_types_of_columns` — within the limit, a reference has the type of
  the column that it is bound to, and beyond it never more than that;
* `storedNesting_loses_its_type` — one link beyond the limit the type is lost.
-/

namespace UnionScript.Typing

variable {tree : Tree} {bindings : Bindings} {n m r c : NodeId} {t : UnionType}
  {limit limit' steps : Nat} {identifier : String}

/-- A node depends on the nodes that it takes its type from. -/
theorem Follows.dependsOn (h : Follows tree bindings n m) : tree.DependsOn bindings n m := by
  unfold Follows linksFrom at h
  split at h
  · rename_i x hx
    have hchild : m ∈ x.children → tree.DependsOn bindings n m := fun hm => Or.inl ⟨x, hx, hm⟩
    cases x with
    | columnReference identifier =>
        simp only [links] at h
        split at h
        · rename_i projected hcolumn
          obtain rfl := List.mem_singleton.1 h
          exact Or.inr ⟨⟨identifier, hx⟩, hcolumn⟩
        · cases h
    | functionCall name arguments window =>
        simp only [links] at h
        split at h
        · cases h
        · exact hchild (by simp [Node.children, h])
    | unary op operand =>
        cases op with
        | minus => exact hchild h
        | not => cases h
    | selectExpression block =>
        have hm : m ∈ block.columns := List.mem_of_mem_head? (Option.mem_toList.1 h)
        exact hchild (by simp [Node.children, hm])
    | whenClause condition result =>
        obtain rfl := List.mem_singleton.1 h
        exact hchild (by simp [Node.children])
    | tableUnion left right all =>
        obtain rfl := List.mem_singleton.1 h
        exact hchild (by simp [Node.children])
    | columnExpression | caseExpression | binary | group => exact hchild h
    | _ => cases h
  · cases h

theorem LinksAtMost.mono (h : LinksAtMost tree bindings limit n) (hle : limit ≤ limit') :
    LinksAtMost tree bindings limit' n :=
  fun way hway => Nat.le_trans (h way hway) hle

/-- Bounds for nodes give one bound for all of them. -/
theorem exists_linksAtMost_of_forall (nodes : List NodeId)
    (h : ∀ m ∈ nodes, ∃ limit, LinksAtMost tree bindings limit m) :
    ∃ limit, ∀ m ∈ nodes, LinksAtMost tree bindings limit m := by
  induction nodes with
  | nil => exact ⟨0, fun _ hm => by cases hm⟩
  | cons m rest ih =>
      obtain ⟨first, hfirst⟩ := h m List.mem_cons_self
      obtain ⟨later, hlater⟩ := ih fun m' hm' => h m' (List.mem_cons_of_mem m hm')
      refine ⟨max first later, fun m' hm' => ?_⟩
      rcases List.mem_cons.1 hm' with rfl | hm'
      · exact hfirst.mono (Nat.le_max_left _ _)
      · exact (hlater m' hm').mono (Nat.le_max_right _ _)

/-- **Bounded ways.**  Where dependencies end, the ways from a node have a bound. -/
theorem exists_linksAtMost (hend : WellFounded (fun m n => tree.DependsOn bindings n m))
    (n : NodeId) : ∃ limit, LinksAtMost tree bindings limit n := by
  induction n using hend.induction with
  | _ n ih =>
      obtain ⟨limit, hlimit⟩ := exists_linksAtMost_of_forall (linksFrom tree bindings n)
        fun m hm => ih m (Follows.dependsOn hm)
      exact ⟨limit + 1, linksAtMost_succ_iff.2 hlimit⟩

/-- Following more links than ways have finds the join of all leaves. -/
theorem LinksAtMost.joinOf (h : LinksAtMost tree bindings limit n) (hsteps : limit < steps) :
    UnionType.JoinOf (fun t => ∃ leaf, Contributes tree bindings n leaf t)
      (typeOf (inferWithin tree bindings steps n)) := by
  obtain ⟨more, rfl⟩ : ∃ more, steps = more + 1 := ⟨steps - 1, by omega⟩
  have hmore : LinksAtMost tree bindings more n := h.mono (by omega)
  exact (joinOf_leafWithin (more + 1) n).congr fun t => leafWithin_iff hmore

/-- A node that leads on has no type of its own. -/
theorem ownType?_of_links {x : Node} (h : links bindings n x ≠ []) :
    ownType? bindings n x = none := by
  rcases node_type (fun _ => none) n x with ⟨t, -, hlinks, -⟩ | ⟨hown, -⟩
  · exact (h hlinks).elim
  · exact hown

section

variable (hlink : linksFrom tree bindings n = [m])

include hlink

/-- A node that leads on to one other is no leaf. -/
theorem not_leaf_of_link :
    ¬ ∃ x, tree.get? n = some x ∧ ownType? bindings n x = some t := by
  rintro ⟨x, hx, hown⟩
  have hlinks : links bindings n x ≠ [] := by
    simp only [linksFrom, hx] at hlink
    simp [hlink]
  simp [ownType?_of_links hlinks] at hown

theorem leafWithin_link_iff :
    LeafWithin tree bindings (steps + 1) n t ↔ LeafWithin tree bindings steps m t := by
  have hleaf := not_leaf_of_link (t := t) hlink
  simp only [LeafWithin, hlink, List.mem_singleton, exists_eq_left]
  exact or_iff_right hleaf

/-- The leaves of a node that leads on to one other are those of the other. -/
theorem contributes_link_iff :
    (∃ leaf, Contributes tree bindings n leaf t) ↔
      ∃ leaf, Contributes tree bindings m leaf t := by
  constructor
  · rintro ⟨leaf, hreach, hown⟩
    rcases Relation.ReflTransGen.cases_head_iff.1 hreach with rfl | ⟨m', hm, hrest⟩
    · exact (not_leaf_of_link hlink hown).elim
    · rw [Follows, hlink] at hm
      obtain rfl := List.mem_singleton.1 hm
      exact ⟨leaf, hrest, hown⟩
  · rintro ⟨leaf, hreach, hown⟩
    have hm : Follows tree bindings n m := by simp [Follows, hlink]
    exact ⟨leaf, Relation.ReflTransGen.head hm hreach, hown⟩

/-- Ways are shorter one link on. -/
theorem LinksAtMost.of_link (h : LinksAtMost tree bindings limit n) :
    LinksAtMost tree bindings limit m := by
  cases limit with
  | zero => simp [linksAtMost_zero_iff, hlink] at h
  | succ limit =>
      have hlast := linksAtMost_succ_iff.1 h m (by simp [hlink])
      exact hlast.mono (Nat.le_succ limit)

/-- Within the bound on its ways, a node that leads on to one other has its type. -/
theorem LinksAtMost.typeOf_link (h : LinksAtMost tree bindings limit n)
    (hsteps : limit < steps) :
    typeOf (inferWithin tree bindings steps n) = typeOf (inferWithin tree bindings steps m) :=
  ((h.joinOf hsteps).congr fun _ => contributes_link_iff hlink).unique
    ((h.of_link hlink).joinOf hsteps)

end

section

variable (hr : tree.get? r = some (.columnReference identifier))
  (hc : bindings.find? r = some (.column c))

include hr hc

/-- A reference to a projected column leads on to that column only. -/
theorem linksFrom_reference : linksFrom tree bindings r = [c] := by
  simp [linksFrom, hr, links, hc]

/-- Within the bound on its ways, a reference has the type of its column. -/
theorem LinksAtMost.typeOf_reference (h : LinksAtMost tree bindings limit r)
    (hsteps : limit < steps) :
    typeOf (inferWithin tree bindings steps r) = typeOf (inferWithin tree bindings steps c) :=
  h.typeOf_link (linksFrom_reference hr hc) hsteps

/-- A reference never has a kind that its column does not have. -/
theorem flags_of_reference {i : Nat}
    (hi : (infer tree bindings r).type.flags.getLsbD i = true) :
    (infer tree bindings c).type.flags.getLsbD i = true := by
  obtain ⟨u, hu, hflag⟩ := ((joinOf_leafWithin (maxLinks + 1) r).flags i).1 hi
  have hcolumn := ((leafWithin_link_iff (linksFrom_reference hr hc)).1 hu).succ
  exact ((joinOf_leafWithin (maxLinks + 1) c).flags i).2 ⟨u, hcolumn, hflag⟩

end

/-- **References have the types of their columns.**  In a bound script without
left-recursive tables, the ways from a reference to a projected column have a bound.
Followed that far, the reference has the type of the column; so it does within the
limit on links, and beyond the limit it has none but kinds of the column. -/
theorem references_have_types_of_columns {config : Config} {provider : Provider} {root : NodeId}
    {bound : BoundScript} (hforest : tree.IsForest)
    (hbind : bindScript config tree provider root = .ok bound)
    (hrecursion : ¬ tree.LeftRecursive bound.bindings)
    (hr : tree.get? r = some (.columnReference identifier))
    (hc : bound.bindings.find? r = some (.column c)) :
    (∃ limit, LinksAtMost tree bound.bindings limit r) ∧
      (∀ limit steps, LinksAtMost tree bound.bindings limit r → limit < steps →
        typeOf (inferWithin tree bound.bindings steps r) =
          typeOf (inferWithin tree bound.bindings steps c)) ∧
      (LinksAtMost tree bound.bindings maxLinks r →
        (infer tree bound.bindings r).type = (infer tree bound.bindings c).type) ∧
      ∀ i, (infer tree bound.bindings r).type.flags.getLsbD i = true →
        (infer tree bound.bindings c).type.flags.getLsbD i = true := by
  refine ⟨exists_linksAtMost (wellFounded_dependsOn hforest hbind hrecursion) r,
    fun limit steps hlinks => hlinks.typeOf_reference hr hc, fun hlinks => ?_,
    fun i => flags_of_reference hr hc⟩
  exact hlinks.typeOf_reference hr hc (Nat.lt_succ_self maxLinks)

/-- A number in groups, each around the one before. -/
def nestedNumber (groups : Nat) : List Node :=
  .scalarLiteral .number "1" :: (List.range groups).map .group

/-- Statements that store the number in a table, copy it to a second and a third
table, and read it from there. -/
def copiesOfNumber : List Node :=
  [.columnExpression 251 (some "x"), .into "#first",
    .selectExpression { columns := [252], into := some 253 }, .select none 254,
    .tableReference "#first" none, .columnReference "x", .columnExpression 257 none,
    .into "#second",
    .selectExpression { columns := [258], source := some 256, into := some 259 },
    .select none 260, .tableReference "#second" none, .columnReference "x",
    .columnExpression 263 none, .into "#third",
    .selectExpression { columns := [264], source := some 262, into := some 265 },
    .select none 266, .tableReference "#third" none, .columnReference "x",
    .columnExpression 269 none, .selectExpression { columns := [270], source := some 268 },
    .select none 271, .script [255, 261, 267, 272]]

/-- A script that stores a number nested as deep as scripts may be, and copies it. -/
def storedNesting : Tree :=
  ⟨(nestedNumber 251 ++ copiesOfNumber).toArray⟩

/-- A schema without objects. -/
def noObjects : Provider :=
  ⟨fun _ => .ok none, fun _ => .ok none⟩

theorem nestedNumber_children (groups : Nat) :
    (nestedNumber groups).flatMap Node.children = List.range groups := by
  simp [nestedNumber, List.flatMap_map, Node.children]

theorem storedNesting_isForest : storedNesting.IsForest where
  shape := by
    have hlater : ∀ c ∈ copiesOfNumber.flatMap Node.children, 251 ≤ c := by decide
    unfold Tree.TreeShaped storedNesting
    rw [List.toList_toArray, List.flatMap_append, nestedNumber_children, List.nodup_append]
    refine ⟨List.nodup_range, by decide, ?_⟩
    rintro c hc _ hd rfl
    exact Nat.not_le_of_lt (List.mem_range.1 hc) (hlater c hd)
  grounded := Tree.grounded_of_children_lt (by decide +kernel)

/-- What is to be evaluated of the script: the second copy is within the limit, and
a reference to the third copy is not. -/
def CopiesFound (bound : BoundScript) : Prop :=
  bound.diagnostics = [] ∧ (∀ e ∈ bound.bindings.entries, e.2.isCommonTable = false) ∧
    bound.bindings.find? 263 = some (.column 258) ∧
    bound.bindings.find? 269 = some (.column 264) ∧
    LinksAtMost storedNesting bound.bindings maxLinks 263 ∧
    (infer storedNesting bound.bindings 264).type = .ofKind .numeric ∧
    (infer storedNesting bound.bindings 269).type = .undefined

instance (bound : BoundScript) : Decidable (CopiesFound bound) := by
  unfold CopiesFound; infer_instance

theorem exists_copiesFound :
    ∃ bound, bindScript {} storedNesting noObjects 273 = .ok bound ∧ CopiesFound bound :=
  exists_ok_of_any (by decide +kernel)

theorem storedNesting_references :
    storedNesting.get? 263 = some (.columnReference "x") ∧
      storedNesting.get? 269 = some (.columnReference "x") := by
  decide +kernel

/-- A reference to the second copy has its type. -/
theorem storedNesting_keeps_types :
    ∃ bound, bindScript {} storedNesting noObjects 273 = .ok bound ∧
      bound.bindings.find? 263 = some (.column 258) ∧
      LinksAtMost storedNesting bound.bindings maxLinks 263 ∧
      (infer storedNesting bound.bindings 263).type =
        (infer storedNesting bound.bindings 258).type := by
  obtain ⟨bound, hbind, -, hentries, hsecond, -, hlinks, -⟩ := exists_copiesFound
  exact ⟨bound, hbind, hsecond, hlinks, (references_have_types_of_columns storedNesting_isForest
    hbind (Tree.not_leftRecursive_of_entries hentries) storedNesting_references.1 hsecond).2.2.1
    hlinks⟩

/-- **The limit takes types away.**  All names of the script are bound and no table is
left-recursive.  The third copy has the type of the number, and a reference to it has
none. -/
theorem storedNesting_loses_its_type :
    ∃ bound, bindScript {} storedNesting noObjects 273 = .ok bound ∧ bound.diagnostics = [] ∧
      storedNesting.IsForest ∧ ¬ storedNesting.LeftRecursive bound.bindings ∧
      storedNesting.get? 269 = some (.columnReference "x") ∧
      bound.bindings.find? 269 = some (.column 264) ∧
      (infer storedNesting bound.bindings 264).type = .ofKind .numeric ∧
      (infer storedNesting bound.bindings 269).type ≠
        (infer storedNesting bound.bindings 264).type := by
  obtain ⟨bound, hbind, hdiagnostics, hentries, -, hthird, -, hcolumn, hreference⟩ :=
    exists_copiesFound
  refine ⟨bound, hbind, hdiagnostics, storedNesting_isForest,
    Tree.not_leftRecursive_of_entries hentries, storedNesting_references.2, hthird, hcolumn, ?_⟩
  rw [hcolumn, hreference]
  decide

end UnionScript.Typing
