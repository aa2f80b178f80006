import UnionScript.Proofs.Syntax.Shape
import UnionScript.Walk.Resolve

/-!
# Where the columns of a query come from

A union takes its columns from its left side, and a group or a common table from
what it holds.  So the columns of whatever stands in the place of a query are
those of one block or output clause, its *leftmost* one.

A projected column is looked up by the name that it has of its own, its alias or the
name of what it directly is.

* `Tree.exists_leftmost_of_mem_projection` — projected columns are those of the
  leftmost block;
* `Tree.Leftmost.reaches` — the leftmost block is below;
* `Tree.projects_eq` — a column is found by its own name and by no other.
-/

namespace UnionScript

/-- The columns that a block or an output clause lists. -/
def Node.columns : Node → List NodeId
  | .selectExpression b => b.columns
  | .output columns _ => columns
  | _ => []

/-- The columns that a node lists are among its children. -/
theorem Node.mem_children_of_mem_columns {x : Node} {c : NodeId} (hc : c ∈ x.columns) :
    c ∈ x.children := by
  cases x with
  | selectExpression b =>
      have hc : c ∈ b.columns := hc
      simp [Node.children, hc]
  | output columns target =>
      have hc : c ∈ columns := hc
      simp [Node.children, hc]
  | _ => cases hc

namespace Tree

/-- The block or output clause that the columns of a row source come from. -/
inductive Leftmost (t : Tree) : NodeId → NodeId → Prop
  | block {n : NodeId} {b : SelectExpression}
      (hn : t.get? n = some (.selectExpression b)) : Leftmost t n n
  | output {n : NodeId} {columns : List NodeId} {target : Option NodeId}
      (hn : t.get? n = some (.output columns target)) : Leftmost t n n
  | union {n left right b : NodeId} {all : Bool}
      (hn : t.get? n = some (.tableUnion left right all)) (h : Leftmost t left b) :
      Leftmost t n b
  | group {n expression b : NodeId} (hn : t.get? n = some (.group expression))
      (h : Leftmost t expression b) : Leftmost t n b
  | commonTable {n expression b : NodeId} {name : String}
      (hn : t.get? n = some (.commonTable name expression)) (h : Leftmost t expression b) :
      Leftmost t n b

variable {t : Tree} {n b c : NodeId}

/-- The leftmost block of a node is below it. -/
theorem Leftmost.reaches (h : t.Leftmost n b) : t.Reaches n b := by
  induction h with
  | block | output => exact Relation.ReflTransGen.refl
  | union hn _ ih => exact Relation.ReflTransGen.head ⟨_, hn, by simp [Node.children]⟩ ih
  | group hn _ ih => exact Relation.ReflTransGen.head ⟨_, hn, by simp [Node.children]⟩ ih
  | commonTable hn _ ih => exact Relation.ReflTransGen.head ⟨_, hn, by simp [Node.children]⟩ ih

/-- The columns found within any number of links are those of the leftmost block. -/
theorem exists_leftmost_of_mem_projectionWithin {fuel : Nat}
    (hc : c ∈ t.projectionWithin fuel n) :
    ∃ b x, t.Leftmost n b ∧ t.get? b = some x ∧ c ∈ x.columns := by
  induction fuel generalizing n with
  | zero => cases hc
  | succ fuel ih =>
      unfold projectionWithin at hc
      split at hc
      · rename_i hn
        exact ⟨n, _, .block hn, hn, hc⟩
      · rename_i hn
        exact ⟨n, _, .output hn, hn, hc⟩
      · rename_i hn
        obtain ⟨b, x, hleft, hb, hc⟩ := ih hc
        exact ⟨b, x, .union hn hleft, hb, hc⟩
      · rename_i hn
        obtain ⟨b, x, hleft, hb, hc⟩ := ih hc
        exact ⟨b, x, .group hn hleft, hb, hc⟩
      · rename_i hn
        obtain ⟨b, x, hleft, hb, hc⟩ := ih hc
        exact ⟨b, x, .commonTable hn hleft, hb, hc⟩
      · cases hc

/-- **Projected columns** are listed by the leftmost block. -/
theorem exists_leftmost_of_mem_projection (hc : c ∈ t.projection n) :
    ∃ b x, t.Leftmost n b ∧ t.get? b = some x ∧ c ∈ x.columns :=
  exists_leftmost_of_mem_projectionWithin hc

/-- The columns of a table that a column is found in. -/
theorem mem_projection_of_columnOf? {source : TableSource} {name : String}
    (h : t.columnOf? source name = some (.column c)) :
    ∃ s, source.node? = some s ∧ c ∈ t.projection s := by
  unfold columnOf? at h
  split at h
  · obtain ⟨index, -, heq⟩ := Option.map_eq_some_iff.1 h
    cases heq
  · obtain ⟨column, hcolumn, heq⟩ := Option.map_eq_some_iff.1 h
    cases heq
    obtain ⟨s, hs, hfind⟩ := Option.bind_eq_some_iff.1 hcolumn
    exact ⟨s, hs, List.mem_of_find?_eq_some hfind⟩

/-- The name of the column or variable that an expression directly is. -/
def referenceName? (t : Tree) (expression : NodeId) : Option String :=
  match t.get? expression with
  | some (.columnReference identifier) => some (lastPart identifier)
  | some (.variableReference identifier) => some (bareVariable identifier)
  | _ => none

/-- The name that a projected column has of its own. -/
def columnName? (t : Tree) (column : NodeId) : Option String :=
  match t.get? column with
  | some (.columnExpression expression aliasName) => aliasName.or (t.referenceName? expression)
  | _ => none

/-- A column is found by the name that it has of its own. -/
theorem projects_eq (t : Tree) (name : String) (column : NodeId) :
    t.projects name column = (t.columnName? column).any (sameName · name) := by
  cases hx : t.get? column with
  | none => simp [projects, columnName?, hx]
  | some x =>
      cases x with
      | columnExpression expression aliasName =>
          cases aliasName with
          | some aliasName => simp [projects, columnName?, hx]
          | none =>
              cases hy : t.get? expression with
              | none => simp [projects, columnName?, referenceName?, hx, hy]
              | some y => cases y <;> simp [projects, columnName?, referenceName?, hx, hy]
      | _ => simp [projects, columnName?, hx]

theorem exists_columnName?_of_projects {name : String} (h : t.projects name c) :
    ∃ own, t.columnName? c = some own := by
  rw [projects_eq] at h
  cases hown : t.columnName? c with
  | none => simp [hown] at h
  | some own => exact ⟨own, rfl⟩

end Tree

end UnionScript
