import Mathlib.Algebra.Ring.Nat
import UnionScript.Proofs.Layout.Columns

/-!
# From properties to physical columns

Every type is expanded to its columns in one storage order, with the discriminator first and the
object type of a reference right before the reference.  Outside of unions columns of values take
the bare name; they do not clash because there is only one.  Rows address their columns by
number, so the numbers run through all properties without a gap, whatever the width of a
property.

* `Purpose.Before` — the storage order;
* `Field.Expanded` — a property has the right columns;
* `Layout.Expands` — a layout has the right properties, numbered from zero.

Main statement: `layouts_expand_their_fields`.
-/

namespace UnionScript

/-- One purpose comes before another one in storage order. -/
def Purpose.Before (p q : Purpose) : Prop :=
  Purpose.all.idxOf p < Purpose.all.idxOf q

instance : DecidableRel Purpose.Before := fun _ _ => Nat.decLt _ _

namespace UnionType

variable {t : UnionType}

theorem purposes_pairwise (t : UnionType) : t.purposes.Pairwise Purpose.Before := by
  have hall : Purpose.all.Pairwise Purpose.Before := by decide
  exact hall.sublist t.purposes_sublist

/-- A type asks for a column of a kind if it admits the kind. -/
theorem ofKind_mem_purposes_iff {k : Kind} (hk : k ≠ .tag) :
    .ofKind k ∈ t.purposes ↔ t.has k = true := by
  have hkinds : ∀ union j, .ofKind k ∈ kindPurposes union j ↔ j = k := by
    intro union j
    revert hk
    cases union <;> cases k <;> cases j <;> decide
  have htag : Purpose.ofKind k ≠ .tag := by
    revert hk
    cases k <;> decide
  rw [mem_purposes_iff, ← mem_valueKinds_iff hk]
  simp only [htag, false_and, false_or, hkinds, exists_eq_right]

theorem tag_mem_purposes_iff : .tag ∈ t.purposes ↔ t.needsDiscriminator = true := by
  have hkinds : ∀ union j, .tag ∈ kindPurposes union j ↔ j = .tag := by
    intro union j
    cases union <;> cases j <;> decide
  rw [mem_purposes_iff]
  simp only [true_and, hkinds, exists_eq_right, t.tag_notMem_valueKinds, or_false]

/-- A reference is stored with its object type only in unions. -/
theorem typeCode_mem_purposes_iff :
    .typeCode ∈ t.purposes ↔ t.isUnion = true ∧ t.has .entity = true := by
  have hkinds : ∀ union j, .typeCode ∈ kindPurposes union j ↔ union = true ∧ j = .entity := by
    intro union j
    cases union <;> cases j <;> decide
  have hentity := mem_valueKinds_iff (t := t) (k := .entity) (by decide)
  rw [mem_purposes_iff, ← hentity]
  simp only [reduceCtorEq, false_and, false_or, hkinds]
  constructor
  · rintro ⟨k, hk, hunion, rfl⟩
    exact ⟨hunion, hk⟩
  · rintro ⟨hunion, hk⟩
    exact ⟨_, hk, hunion, rfl⟩

/-- **References in unions.**  The object type stands right before the reference. -/
theorem typeCode_entity_infix (hunion : t.isUnion = true) (hentity : t.has .entity = true) :
    [.typeCode, .entity] <:+: t.purposes := by
  have hmem := (mem_valueKinds_iff (t := t) (k := .entity) (by decide)).2 hentity
  obtain ⟨before, behind, hkinds⟩ := List.append_of_mem hmem
  rw [purposes, hkinds, hunion, List.flatMap_append, List.flatMap_cons]
  exact ⟨_, _, by rw [List.append_assoc, List.append_assoc]; rfl⟩

/-- **Columns have different names.**  In a union each purpose has an ending of its own.
Outside of unions there is at most one column of values beside the discriminator. -/
theorem map_ending_purposes_nodup (t : UnionType) :
    (t.purposes.map (Purpose.ending t.isUnion)).Nodup := by
  cases hunion : t.isUnion with
  | true =>
      have hall : (Purpose.all.map (Purpose.ending true)).Nodup := by decide
      exact hall.sublist (t.purposes_sublist.map _)
  | false =>
      have hlength : t.valueKinds.length ≤ 1 := by
        simp only [isUnion, Bool.or_eq_false_iff, decide_eq_false_iff_not] at hunion
        exact Nat.le_of_not_lt hunion.1
      have htag := t.tag_notMem_valueKinds
      rw [purposes, hunion]
      cases hkinds : t.valueKinds with
      | nil => cases t.needsDiscriminator <;> decide
      | cons k rest =>
          rw [hkinds] at hlength htag
          have hrest : rest = [] := by
            rw [List.length_cons] at hlength
            exact List.length_eq_zero_iff.1 (by omega)
          subst hrest
          have hne : k ≠ .tag := by
            rintro rfl
            exact htag (List.mem_singleton_self _)
          revert hne
          cases t.needsDiscriminator <;> cases k <;> decide

/-- Nothing can be read off the undefined type. -/
theorem has_of_isUndefined (h : t.isUndefined = true) (k : Kind) : t.has k = false := by
  have hflags : t.flags = 0 := by simpa [isUndefined] using h
  simp [has, hflags]

end UnionType

namespace Field

variable {f : Field} {p : PropertyLayout} {start : Nat}

/-- The columns of a property in storage order: which there are, what they are called and how
they are stored. -/
structure Expanded (f : Field) (p : PropertyLayout) : Prop where
  name : p.name = f.name
  type : p.type = f.type
  ordered : (p.columns.map Column.purpose).Pairwise Purpose.Before
  distinct : (p.columns.map Column.name).Nodup
  named : ∀ c ∈ p.columns, c.name = f.base ++ c.purpose.ending f.type.isUnion
  stored : ∀ c ∈ p.columns, c.databaseType = c.purpose.databaseType
  tag : .tag ∈ p.columns.map Column.purpose ↔
    f.type.needsDiscriminator = true ∨ f.type.isUndefined = true
  value : ∀ k, k ≠ .tag → (.ofKind k ∈ p.columns.map Column.purpose ↔ f.type.has k = true)
  typeCode : .typeCode ∈ p.columns.map Column.purpose ↔
    f.type.isUnion = true ∧ f.type.has .entity = true
  reference : .typeCode ∈ p.columns.map Column.purpose →
    [.typeCode, .entity] <:+: p.columns.map Column.purpose

theorem map_name_layout (f : Field) (start : Nat) :
    (f.layout start).columns.map Column.name =
      f.purposes.map (fun purpose => f.base ++ purpose.ending f.type.isUnion) := by
  have hcomp : (Column.name ∘ fun p : Purpose × Nat => f.column p.1 p.2) =
      (fun purpose => f.base ++ purpose.ending f.type.isUnion) ∘ Prod.fst := rfl
  rw [layout, List.map_map, hcomp, ← List.map_map, List.zipIdx_map_fst]

/-- A property of undefined type has a discriminator and nothing else. -/
theorem expanded_of_isUndefined (h : f.type.isUndefined = true) (start : Nat) :
    f.Expanded (f.layout start) := by
  have hpurposes : f.purposes = [.tag] := if_pos h
  have hlayout : f.layout start = ⟨f.name, f.type, [f.column .tag start]⟩ := by
    rw [layout, hpurposes]
    rfl
  have hhas := UnionType.has_of_isUndefined h
  rw [hlayout]
  refine ⟨rfl, rfl, List.pairwise_singleton _ _, List.nodup_singleton _, ?_, ?_, ?_, ?_, ?_, ?_⟩
  · simp [column]
  · simp [column]
  · simp [column, h]
  · intro k hk
    revert hk
    cases k <;> simp [column, hhas, Purpose.ofKind]
  · simp [column, hhas]
  · simp [column]

theorem expanded_of_defined (h : f.type.isUndefined = false) (start : Nat) :
    f.Expanded (f.layout start) := by
  have hpurposes : f.purposes = f.type.purposes := if_neg (by simp [h])
  have hcolumns := (f.map_purpose_layout start).trans hpurposes
  have hdistinct : (f.type.purposes.map
      (fun purpose => f.base ++ purpose.ending f.type.isUnion)).Nodup := by
    have hinjective : Function.Injective (f.base ++ · : String → String) :=
      fun _ _ h => (String.append_right_inj f.base).1 h
    have hendings := f.type.map_ending_purposes_nodup.map hinjective
    rwa [List.map_map] at hendings
  refine ⟨rfl, rfl, ?_, ?_, ?_, (f.laid_layout start).databaseType, ?_, ?_, ?_, ?_⟩
  · exact hcolumns ▸ f.type.purposes_pairwise
  · exact f.map_name_layout start ▸ hpurposes ▸ hdistinct
  · intro c hc
    obtain ⟨p, -, rfl⟩ := List.mem_map.1 hc
    rfl
  · rw [hcolumns, UnionType.tag_mem_purposes_iff]
    simp [h]
  · intro k hk
    rw [hcolumns, UnionType.ofKind_mem_purposes_iff hk]
  · rw [hcolumns, UnionType.typeCode_mem_purposes_iff]
  · intro htypeCode
    rw [hcolumns] at htypeCode ⊢
    obtain ⟨hunion, hentity⟩ := UnionType.typeCode_mem_purposes_iff.1 htypeCode
    exact UnionType.typeCode_entity_infix hunion hentity

/-- **One property.**  Wherever a property is laid out, it has the columns of its type. -/
theorem expanded_layout (f : Field) (start : Nat) : f.Expanded (f.layout start) := by
  cases h : f.type.isUndefined with
  | true => exact expanded_of_isUndefined h start
  | false => exact expanded_of_defined h start

end Field

namespace Layout

/-- A layout has one property for each field in order, and its columns are numbered from zero
without gaps. -/
structure Expands (l : Layout) (fields : List Field) : Prop where
  properties : List.Forall₂ Field.Expanded fields l.properties
  ordinals : l.columns.map Column.ordinal =
    List.range (l.properties.map (fun p => p.columns.length)).sum

/-- **A whole row.**  Fields are laid out one by one, and the numbers of their columns go on
from one property to the next. -/
theorem expands_ofFields (fields : List Field) : (ofFields fields).Expands fields where
  properties := by
    refine (forall₂_place fields 0).imp ?_
    rintro f _ ⟨start, rfl⟩
    exact f.expanded_layout start
  ordinals := by
    have hlaid : (ofFields fields).Laid := ⟨fields, rfl⟩
    rw [hlaid.ordinals, columns, List.length_flatMap]

/-- **Physical layouts.**  The layout of a schema object has its properties in order.  The layout
of projected columns has one property for each column, named as the column is or for its place.
The rows of a node are laid out in one of these ways.  In all of these layouts the columns are
numbered from zero without gaps.  The columns of a property stand in storage order, have
different names that start with the base name, and have the database type of their purpose; there
is a discriminator if the type needs one or is undefined, and the object type of a reference in
unions, right before the reference. -/
theorem layouts_expand_their_fields :
    (∀ d : Definition, (ofDefinition d).Expands
      (d.properties.map (fun p => ⟨p.name, p.column, p.type⟩))) ∧
    (∀ (tree : Tree) (bindings : Bindings) (columns : List NodeId),
      (ofProjection tree bindings columns).Expands
        (columns.zipIdx.map (fun c => projectedField tree bindings c.1 c.2))) ∧
    ∀ (tree : Tree) (bindings : Bindings) (n : NodeId) (l : Layout),
      ofNode tree bindings n = .ok l → ∃ fields, l.Expands fields := by
  refine ⟨fun d => expands_ofFields _, fun tree bindings columns => expands_ofFields _, ?_⟩
  intro tree bindings n l h
  obtain ⟨fields, rfl⟩ := laid_ofNode h
  exact ⟨fields, expands_ofFields fields⟩

/-- A ledger whose notes have no type yet, whose marks are of a kind nobody knows, and that is
paid by anything that can be referred to or named. -/
def wideLedger : Definition :=
  ⟨9, "Ledger", "_Ledger9",
    [⟨"Note", "_Fld1", .undefined⟩, ⟨"Mark", "_Fld2", ⟨0x8000, TypeCode.unassigned⟩⟩,
      ⟨"Payer", "_Fld3", .ofKinds [.string, .entity]⟩, ⟨"Total", "_Fld4", .ofKind .numeric⟩]⟩

/-- A query for a number without a name. -/
def namelessColumn : Tree :=
  ⟨#[.scalarLiteral .number "1", .columnExpression 0 none, .selectExpression { columns := [1] }]⟩

/-- Marks take no column, payers take four, and the total comes right after them. -/
theorem wideLedger_is_expanded :
    (ofDefinition wideLedger).Expands
        (wideLedger.properties.map (fun p => ⟨p.name, p.column, p.type⟩)) ∧
      (ofDefinition wideLedger).columns.map Column.name =
        ["_Fld1_TYPE", "_Fld3_TYPE", "_Fld3_S", "_Fld3_RTRef", "_Fld3_RRRef", "_Fld4"] ∧
      ∃ l, ofNode namelessColumn .empty 2 = .ok l ∧ (∃ fields, l.Expands fields) ∧
        l.columns.map Column.name = ["_col0"] := by
  obtain ⟨hdefinition, -, hnode⟩ := layouts_expand_their_fields
  refine ⟨hdefinition wideLedger, by decide +kernel, _, rfl,
    hnode namelessColumn .empty 2 _ rfl, ?_⟩
  decide +kernel

end Layout

end UnionScript
