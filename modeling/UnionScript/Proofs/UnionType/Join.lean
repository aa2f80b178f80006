import UnionScript.Proofs.UnionType.Construction

/-!
# Joins of union types

Types are merged one after the other, and two different codes collapse to that of
any object type on the way.  All the same the result can be said of the set of
the merged types at once (`JoinOf`): it admits the kinds that one of them admits,
and its code is the one that all references among them have.

* `joinOf_mergeAll` — merging joins of sets gives the join of all these sets;
* `JoinOf.unique` — a set has one join, so neither order nor grouping nor
  repetition of the merged types matters.
-/

namespace UnionScript

namespace TypeCode

theorem merge_unassigned_left (code : TypeCode) : merge unassigned code = code := by
  simp [merge]

theorem merge_unassigned_right (code : TypeCode) : merge code unassigned = code := by
  unfold merge
  split
  · rename_i h
    exact h.symm
  · simp

/-- Any object type stays any object type. -/
theorem merge_any_left (code : TypeCode) : merge any code = any := by
  unfold merge
  rw [if_neg (by decide)]
  split
  · rfl
  · split <;> rfl

theorem merge_any_right (code : TypeCode) : merge code any = any := by
  unfold merge
  split
  · rfl
  · rw [if_neg (by decide)]
    split
    · assumption
    · rfl

theorem merge_self (code : TypeCode) : merge code code = code := by
  simp [merge]

/-- The codes of references to different object types make one to any. -/
theorem merge_of_ne {left right : TypeCode} (hleft : left ≠ unassigned)
    (hright : right ≠ unassigned) (hne : left ≠ right) : merge left right = any := by
  simp [merge, hleft, hright, hne]

end TypeCode

namespace UnionType

theorem merge_undefined (t : UnionType) : t.merge undefined = t := by
  simp [merge, undefined, TypeCode.merge_unassigned_right]

theorem mergeAll_singleton (t : UnionType) : mergeAll [t] = t := by
  simp [mergeAll, merge, undefined, TypeCode.merge_unassigned_left]

/-- The type has the code of a reference. -/
def CarriesReference (t : UnionType) : Prop :=
  t.code ≠ TypeCode.unassigned

/-- The code of a set of types: unassigned if none of them carries a reference, the
code of those that do if it is the same for all, and that of any object type
otherwise. -/
inductive JoinCode (P : UnionType → Prop) : TypeCode → Prop
  | unassigned (hnone : ∀ u, P u → ¬ u.CarriesReference) : JoinCode P TypeCode.unassigned
  | single {u : UnionType} (hu : P u) (hcarries : u.CarriesReference)
      (hall : ∀ v, P v → v.CarriesReference → v.code = u.code) : JoinCode P u.code
  | several {u v : UnionType} (hu : P u) (hv : P v) (hcarries : u.CarriesReference)
      (hcarries' : v.CarriesReference) (hne : u.code ≠ v.code) : JoinCode P TypeCode.any

/-- What the types of a set admit together. -/
structure JoinOf (P : UnionType → Prop) (t : UnionType) : Prop where
  flags : ∀ i, t.flags.getLsbD i = true ↔ ∃ u, P u ∧ u.flags.getLsbD i = true
  code : JoinCode P t.code

variable {P Q : UnionType → Prop} {t u : UnionType}

/-- The code of a type that the operations on types make tells whether references
are admitted. -/
theorem CodeFits.carriesReference_iff (h : t.CodeFits) :
    t.CarriesReference ↔ t.has .entity = true := by
  constructor
  · intro hcarries
    cases hhas : t.has .entity with
    | true => rfl
    | false => exact (hcarries (h.absent hhas)).elim
  · intro hhas heq
    have hle := h.present hhas
    rw [heq] at hle
    exact absurd hle (by decide)

namespace JoinCode

variable {a b : TypeCode}

/-- Types without references change nothing about the code of a set. -/
theorem of_silent (h : JoinCode Q a) (hP : ∀ u, P u → ¬ u.CarriesReference) :
    JoinCode (fun u => P u ∨ Q u) a := by
  cases h with
  | unassigned hnone =>
      refine .unassigned fun u hu => ?_
      rcases hu with hu | hu
      · exact hP u hu
      · exact hnone u hu
  | single hu hcarries hall =>
      refine .single (Or.inr hu) hcarries fun v hv hcarries' => ?_
      rcases hv with hv | hv
      · exact (hP v hv hcarries').elim
      · exact hall v hv hcarries'
  | several hu hv hcarries hcarries' hne =>
      exact .several (Or.inr hu) (Or.inr hv) hcarries hcarries' hne

theorem symm (h : JoinCode (fun u => P u ∨ Q u) a) : JoinCode (fun u => Q u ∨ P u) a := by
  have hsame : (fun u => P u ∨ Q u) = fun u => Q u ∨ P u := funext fun _ => propext or_comm
  exact hsame ▸ h

/-- Merging codes joins the sets that they come from. -/
theorem merge (h : JoinCode P a) (h' : JoinCode Q b) :
    JoinCode (fun u => P u ∨ Q u) (TypeCode.merge a b) := by
  cases h with
  | unassigned hnone =>
      rw [TypeCode.merge_unassigned_left]
      exact h'.of_silent hnone
  | several hu hv hcarries hcarries' hne =>
      rw [TypeCode.merge_any_left]
      exact .several (Or.inl hu) (Or.inl hv) hcarries hcarries' hne
  | @single u hu hcarries hall =>
      cases h' with
      | unassigned hnone =>
          rw [TypeCode.merge_unassigned_right]
          exact (of_silent (.single hu hcarries hall) hnone).symm
      | several hv hw hcarries' hcarries'' hne =>
          rw [TypeCode.merge_any_right]
          exact .several (Or.inr hv) (Or.inr hw) hcarries' hcarries'' hne
      | @single v hv hcarries' hall' =>
          by_cases hne : u.code = v.code
          · rw [← hne, TypeCode.merge_self]
            refine .single (Or.inl hu) hcarries fun w hw hcarries'' => ?_
            rcases hw with hw | hw
            · exact hall w hw hcarries''
            · exact (hall' w hw hcarries'').trans hne.symm
          · rw [TypeCode.merge_of_ne hcarries hcarries' hne]
            exact .several (Or.inl hu) (Or.inr hv) hcarries hcarries' hne

/-- A set has one code. -/
theorem unique (h : JoinCode P a) (h' : JoinCode P b) : a = b := by
  cases h with
  | unassigned hnone =>
      cases h' with
      | unassigned => rfl
      | single hv hcarries _ => exact (hnone _ hv hcarries).elim
      | several hv _ hcarries _ _ => exact (hnone _ hv hcarries).elim
  | single hu hcarries hall =>
      cases h' with
      | unassigned hnone => exact (hnone _ hu hcarries).elim
      | single hv hcarries' _ => exact (hall _ hv hcarries').symm
      | several hv hw hcarries' hcarries'' hne =>
          exact (hne ((hall _ hv hcarries').trans (hall _ hw hcarries'').symm)).elim
  | several hu hw hcarries hcarries'' hne =>
      cases h' with
      | unassigned hnone => exact (hnone _ hu hcarries).elim
      | single _ _ hall => exact (hne ((hall _ hu hcarries).trans (hall _ hw hcarries'').symm)).elim
      | several => rfl

end JoinCode

namespace JoinOf

/-- Nothing is admitted by no types. -/
theorem undefined (hnone : ∀ u, ¬ P u) : JoinOf P undefined where
  flags i := by simp [UnionType.undefined, hnone]
  code := .unassigned fun u hu => (hnone u hu).elim

/-- A type by itself. -/
theorem singleton (t : UnionType) : JoinOf (fun u => u = t) t where
  flags i := by simp
  code := by
    by_cases hcarries : t.CarriesReference
    · exact .single rfl hcarries fun v hv _ => hv ▸ rfl
    · have hcode : t.code = TypeCode.unassigned := Decidable.not_not.1 hcarries
      rw [hcode]
      exact .unassigned fun u hu => hu ▸ hcarries

/-- Merging types joins the sets that they come from. -/
theorem merge (h : JoinOf P t) (h' : JoinOf Q u) : JoinOf (fun v => P v ∨ Q v) (t.merge u) where
  flags i := by
    rw [UnionType.merge, BitVec.getLsbD_or, Bool.or_eq_true, h.flags, h'.flags]
    simp only [or_and_right, exists_or]
  code := h.code.merge h'.code

theorem congr (h : JoinOf P t) (hsame : ∀ v, P v ↔ Q v) : JoinOf Q t := by
  have heq : P = Q := funext fun v => propext (hsame v)
  exact heq ▸ h

/-- **One join.**  Two types that say of a set what its types admit are the
same. -/
theorem unique (h : JoinOf P t) (h' : JoinOf P u) : t = u := by
  have hflags : t.flags = u.flags := by
    refine BitVec.eq_of_getLsbD_eq fun i _ => ?_
    rw [Bool.eq_iff_iff, h.flags, h'.flags]
  have hcode : t.code = u.code := h.code.unique h'.code
  cases t
  cases u
  congr

end JoinOf

/-- **Merging joins.**  Types that are joins of sets are merged to the join of all
these sets. -/
theorem joinOf_mergeAll {α : Type} {f : α → UnionType} {P : α → UnionType → Prop} {l : List α}
    (h : ∀ a ∈ l, JoinOf (P a) (f a)) :
    JoinOf (fun u => ∃ a ∈ l, P a u) (mergeAll (l.map f)) := by
  -- What was merged before is a join of its own.
  have hfold : ∀ (l : List α) (Q : UnionType → Prop) (t : UnionType),
      (∀ a ∈ l, JoinOf (P a) (f a)) → JoinOf Q t →
        JoinOf (fun u => Q u ∨ ∃ a ∈ l, P a u) ((l.map f).foldl UnionType.merge t) := by
    intro l
    induction l with
    | nil =>
        intro Q t _ ht
        exact ht.congr (by simp)
    | cons a rest ih =>
        intro Q t hall ht
        rw [List.forall_mem_cons] at hall
        refine (ih _ _ hall.2 (ht.merge hall.1)).congr fun v => ?_
        simp [or_assoc]
  exact (hfold l (fun _ => False) _ h (.undefined (by simp))).congr (by simp)

end UnionType

end UnionScript
