import Mathlib.Data.List.Basic
import Mathlib.Order.Lattice
import UnionScript.Proofs.Layout.Columns
import UnionScript.Proofs.UnionType.Join

/-!
# Union types as a semilattice

Merging is a join: a merged type is determined by the set of the types that went into it, so
all laws of joins follow from there being one join of a set (`JoinOf.unique`).  The order that
belongs to the join says of two types that the second one admits at least what the first one
does.  What can be read off a type grows along this order (`KeptBy`, `keptBy_of_le`): its
kinds, whether it is a union, whether its references lead anywhere, and its physical columns.

Main statement: `types_form_semilattice`.
-/

namespace UnionScript

namespace UnionType

variable {t u : UnionType}

/-- Two types are merged to their join. -/
theorem joinOf_merge (t u : UnionType) : JoinOf (fun v => v = t ∨ v = u) (t.merge u) :=
  (JoinOf.singleton t).merge (.singleton u)

theorem merge_comm (t u : UnionType) : t.merge u = u.merge t :=
  (joinOf_merge t u).unique ((joinOf_merge u t).congr fun _ => or_comm)

theorem merge_assoc (t u v : UnionType) : (t.merge u).merge v = t.merge (u.merge v) := by
  have hleft := (joinOf_merge t u).merge (.singleton v)
  have hright := (JoinOf.singleton t).merge (joinOf_merge u v)
  exact hleft.unique (hright.congr fun _ => or_assoc.symm)

theorem merge_self (t : UnionType) : t.merge t = t :=
  (joinOf_merge t t).unique ((JoinOf.singleton t).congr fun _ => or_self_iff.symm)

theorem undefined_merge (t : UnionType) : undefined.merge t = t :=
  (merge_comm undefined t).trans (merge_undefined t)

/-- **Order and repetition.**  Lists of the same types are merged to the same type. -/
theorem mergeAll_congr {l l' : List UnionType} (h : ∀ t, t ∈ l ↔ t ∈ l') :
    mergeAll l = mergeAll l' := by
  have hjoin : ∀ l : List UnionType, JoinOf (· ∈ l) (mergeAll l) := by
    intro l
    have hall := joinOf_mergeAll (f := id) (P := fun a u => u = a) (l := l)
      fun a _ => .singleton a
    rw [List.map_id] at hall
    exact hall.congr fun v => by simp
  exact (hjoin l).unique ((hjoin l').congr fun v => (h v).symm)

instance : Max UnionType := ⟨merge⟩

/-- One type lies below another one if merging it in changes nothing. -/
instance : SemilatticeSup UnionType := .mk' merge_comm merge_assoc merge_self

/-- All that shows at a type shows at another one. -/
structure KeptBy (t u : UnionType) : Prop where
  flags : ∀ i, t.flags.getLsbD i = true → u.flags.getLsbD i = true
  isUnion : t.isUnion = true → u.isUnion = true
  any : t.code = TypeCode.any → u.code = TypeCode.any
  purposes : t.purposes ⊆ u.purposes

/-- A type below another one has no kinds and no code that the other one has not. -/
theorem merge_eq_of_le (h : t ≤ u) :
    t.flags ||| u.flags = u.flags ∧ TypeCode.merge t.code u.code = u.code := by
  have hmerge : t.merge u = u := h
  exact ⟨congrArg UnionType.flags hmerge, congrArg UnionType.code hmerge⟩

theorem flags_of_le (h : t ≤ u) {i : Nat} (hi : t.flags.getLsbD i = true) :
    u.flags.getLsbD i = true := by
  rw [← (merge_eq_of_le h).1, BitVec.getLsbD_or, hi, Bool.true_or]

/-- References to any object type stay references to any object type. -/
theorem any_of_le (h : t ≤ u) (hany : t.code = TypeCode.any) : u.code = TypeCode.any := by
  rw [← (merge_eq_of_le h).2, hany, TypeCode.merge_any_left]

theorem valueKinds_sublist_of_le (h : t ≤ u) : t.valueKinds.Sublist u.valueKinds :=
  List.monotone_filter_right Kind.values fun _ hk => flags_of_le h hk

/-- A type above a union is a union. -/
theorem isUnion_of_le (h : t ≤ u) (hunion : t.isUnion = true) : u.isUnion = true := by
  simp only [isUnion, Bool.or_eq_true, Bool.and_eq_true, decide_eq_true_eq, beq_iff_eq] at hunion ⊢
  rcases hunion with hseveral | ⟨hentity, hany⟩
  · exact Or.inl (Nat.lt_of_lt_of_le hseveral (valueKinds_sublist_of_le h).length_le)
  · exact Or.inr ⟨flags_of_le h hentity, any_of_le h hany⟩

/-- The columns for a kind outside of unions are among those in unions. -/
theorem kindPurposes_subset {union union' : Bool} (h : union = true → union' = true) (k : Kind) :
    kindPurposes union k ⊆ kindPurposes union' k := by
  cases union with
  | true => rw [h rfl]; exact List.Subset.refl _
  | false => cases union' <;> cases k <;> decide

/-- **Columns stay.**  A type has the columns of all types below it. -/
theorem purposes_of_le (h : t ≤ u) : t.purposes ⊆ u.purposes := by
  intro purpose hpurpose
  rw [mem_purposes_iff] at hpurpose ⊢
  rcases hpurpose with ⟨rfl, htag⟩ | ⟨k, hk, hpurpose⟩
  · refine Or.inl ⟨rfl, ?_⟩
    rw [needsDiscriminator, Bool.or_eq_true] at htag ⊢
    exact htag.imp (isUnion_of_le h) (flags_of_le h)
  · right
    exact ⟨k, (valueKinds_sublist_of_le h).subset hk,
      kindPurposes_subset (isUnion_of_le h) k hpurpose⟩

theorem keptBy_of_le (h : t ≤ u) : t.KeptBy u :=
  ⟨fun _ => flags_of_le h, isUnion_of_le h, any_of_le h, purposes_of_le h⟩

/-- A code is unassigned exactly where no reference is admitted, and there is no code
below. -/
theorem CodeFits.unassigned_iff (h : t.CodeFits) :
    (t.code = TypeCode.unassigned ↔ t.has .entity = false) ∧ TypeCode.unassigned ≤ t.code := by
  have hcarries := h.carriesReference_iff
  cases hhas : t.has .entity with
  | false => simp [h.absent hhas]
  | true =>
      refine ⟨?_, Int32.le_trans (by decide) (h.present hhas)⟩
      simpa [CarriesReference, hhas] using hcarries

/-- **Union types form a semilattice.**  A type that the operations on types make has an
unassigned code exactly as long as it admits no reference, and no code below that.  Merging is
associative, commutative and idempotent, and the undefined type changes nothing.  So what a list
of types is merged to depends neither on their order nor on repetitions.  A merged type keeps
all kinds of either side, a union stays a union and a reference to any object type one to any
object type, and no physical column is lost. -/
theorem types_form_semilattice :
    (∀ t : UnionType, t.Made → (t.code = TypeCode.unassigned ↔ t.has .entity = false) ∧
      TypeCode.unassigned ≤ t.code) ∧
    (∀ t u v : UnionType, (t.merge u).merge v = t.merge (u.merge v)) ∧
    (∀ t u : UnionType, t.merge u = u.merge t) ∧
    (∀ t : UnionType, t.merge t = t) ∧
    (∀ t : UnionType, undefined.merge t = t ∧ t.merge undefined = t) ∧
    (∀ l l' : List UnionType, (∀ t, t ∈ l ↔ t ∈ l') → mergeAll l = mergeAll l') ∧
    ∀ t u : UnionType, t.KeptBy (t.merge u) ∧ u.KeptBy (t.merge u) := by
  refine ⟨fun t ht => ht.codeFits.unassigned_iff, merge_assoc, merge_comm, merge_self,
    fun t => ⟨undefined_merge t, merge_undefined t⟩, fun l l' => mergeAll_congr, fun t u => ?_⟩
  exact ⟨keptBy_of_le le_sup_left, keptBy_of_le le_sup_right⟩

/-- Bills are paid by an object of one type or another, or by someone known by name. -/
def payerTypes : List UnionType :=
  [entity 5, (entity 7).withTag, ofKinds [.string], entity 5]

/-- The type of what pays a bill leads anywhere, whatever the order in which it was found
out, and stores the object type beside the reference. -/
theorem payerTypes_are_merged :
    (mergeAll payerTypes).Made ∧ TypeCode.unassigned ≤ (mergeAll payerTypes).code ∧
      mergeAll payerTypes = mergeAll (payerTypes.reverse ++ payerTypes) ∧
      ((entity 5).merge (entity 7)).code = TypeCode.any ∧
      ((entity 5).merge (entity 7)).KeptBy
        (((entity 5).merge (entity 7)).merge (ofKinds [.string])) ∧
      Purpose.typeCode ∈ (((entity 5).merge (entity 7)).merge (ofKinds [.string])).purposes := by
  have hmade : (mergeAll payerTypes).Made :=
    ((((Made.undefined.merge (.entity 5)).merge (.withTag (.entity 7))).merge
      (.ofKinds [.string])).merge (.entity 5))
  obtain ⟨hcode, -, -, -, -, hlists, hkept⟩ := types_form_semilattice
  have hreferences := (hkept ((entity 5).merge (entity 7)) (ofKinds [.string])).1
  refine ⟨hmade, (hcode _ hmade).2, hlists _ _ (by simp), by decide, hreferences, ?_⟩
  exact hreferences.purposes (by decide)

end UnionType

end UnionScript
