import UnionScript.UnionType

/-!
# How union types come about

A union type is a set of kinds beside a code, and not every pair of the two makes
sense: a code says what references lead to, so it belongs to types that admit
references.  The operations on types keep to that (`Made.codeFits`): a type that
they make has an unassigned code as long as it admits no reference, and a code of
its own, never a negative one, as soon as it does.

So a reference that is no union leads to exactly one object type
(`CodeFits.any_lt_code`).
-/

namespace UnionScript

/-- No two kinds have the same bit. -/
theorem Kind.bit_injective : Function.Injective Kind.bit := by
  intro k k'
  cases k <;> cases k' <;> simp [Kind.bit]

/-- Two codes of references make a code of references. -/
theorem TypeCode.any_le_merge {left right : TypeCode} (hleft : TypeCode.any ≤ left)
    (hright : TypeCode.any ≤ right) : TypeCode.any ≤ TypeCode.merge left right := by
  unfold TypeCode.merge
  split
  · exact hright
  · split
    · exact hleft
    · split
      · exact hleft
      · decide

namespace UnionType

/-- The types that the operations on types make. -/
inductive Made : UnionType → Prop
  | undefined : Made undefined
  | ofKind (k : Kind) : Made (ofKind k)
  | entity (code : TypeCode) : Made (entity code)
  | ofFlags (flags : BitVec 16) : Made (ofFlags flags)
  | ofKinds (kinds : List Kind) : Made (ofKinds kinds)
  | add {t : UnionType} (ht : Made t) (k : Kind) : Made (t.add k)
  | merge {t u : UnionType} (ht : Made t) (hu : Made u) : Made (t.merge u)
  | withTag {t : UnionType} (ht : Made t) : Made t.withTag

/-- The code of a type says whether references are admitted. -/
structure CodeFits (t : UnionType) : Prop where
  absent : t.has .entity = false → t.code = TypeCode.unassigned
  present : t.has .entity = true → TypeCode.any ≤ t.code

variable {t u : UnionType}

/-- A merged type admits what either of its parts admits. -/
theorem has_merge (t u : UnionType) (k : Kind) : (t.merge u).has k = (t.has k || u.has k) := by
  simp [has, merge]

/-- The discriminator is the only kind that is added. -/
theorem has_withTag (t : UnionType) {k : Kind} (hk : k ≠ .tag) : t.withTag.has k = t.has k := by
  have hbit : k.bit ≠ Kind.tag.bit := fun h => hk (Kind.bit_injective h)
  have htag : Kind.tag.flag.getLsbD k.bit = false := by
    simp [Kind.flag, Ne.symm hbit]
  simp [has, withTag, htag]

theorem codeFits_undefined : CodeFits undefined :=
  ⟨fun _ => rfl, fun h => by simp [undefined, has] at h⟩

/-- Flags name no object type, so the code is the general one or none. -/
theorem codeFits_ofFlags (flags : BitVec 16) : CodeFits (ofFlags flags) := by
  refine ⟨fun h => ?_, fun h => ?_⟩
  · simp only [has, ofFlags] at h
    simp [ofFlags, h]
  · simp only [has, ofFlags] at h
    simp only [ofFlags, h, if_true]
    decide

/-- A type made of a code admits objects. -/
theorem codeFits_entity (code : TypeCode) : CodeFits (entity code) := by
  have hhas : (entity code).has .entity = true := by
    simp [has, entity, Kind.flag, Kind.bit]
  refine ⟨fun h => ?_, fun _ => ?_⟩
  · rw [hhas] at h
    cases h
  · by_cases hneg : code < TypeCode.any
    · simp only [entity, hneg, if_true]
      decide
    · simp only [entity, hneg, if_false]
      exact Int32.not_lt.1 hneg

/-- A merged type has the code of the side that admits references, or that of
both sides together. -/
theorem CodeFits.merge (ht : t.CodeFits) (hu : u.CodeFits) : (t.merge u).CodeFits := by
  have hcode : (t.merge u).code = TypeCode.merge t.code u.code := rfl
  constructor
  · intro h
    rw [has_merge, Bool.or_eq_false_iff] at h
    rw [hcode, ht.absent h.1, hu.absent h.2]
    rfl
  · intro h
    rw [has_merge] at h
    rw [hcode]
    cases hthas : t.has .entity with
    | false =>
        have huhas : u.has .entity = true := by simpa [hthas] using h
        rw [ht.absent hthas, TypeCode.merge, if_pos rfl]
        exact hu.present huhas
    | true =>
        cases huhas : u.has .entity with
        | false =>
            have hle := ht.present hthas
            have hne : t.code ≠ TypeCode.unassigned := by
              intro heq
              rw [heq] at hle
              exact absurd hle (by decide)
            rw [hu.absent huhas, TypeCode.merge, if_neg hne, if_pos rfl]
            exact hle
        | true => exact TypeCode.any_le_merge (ht.present hthas) (hu.present huhas)

theorem codeFits_ofKinds (kinds : List Kind) : CodeFits (ofKinds kinds) := by
  have hfold : ∀ (types : List UnionType) (t : UnionType), t.CodeFits →
      (∀ u ∈ types, u.CodeFits) → (types.foldl UnionType.merge t).CodeFits := by
    intro types
    induction types with
    | nil => exact fun t ht _ => ht
    | cons u rest ih =>
        intro t ht hall
        rw [List.forall_mem_cons] at hall
        exact ih (t.merge u) (ht.merge hall.1) hall.2
  refine hfold _ _ codeFits_undefined ?_
  intro u hu
  obtain ⟨k, -, rfl⟩ := List.mem_map.1 hu
  exact codeFits_ofFlags k.flag

/-- **Codes fit.**  The operations on types make no code without references and
no reference without a code. -/
theorem Made.codeFits (h : t.Made) : t.CodeFits := by
  induction h with
  | undefined => exact codeFits_undefined
  | ofKind k => exact codeFits_ofFlags k.flag
  | entity code => exact codeFits_entity code
  | ofFlags flags => exact codeFits_ofFlags flags
  | ofKinds kinds => exact codeFits_ofKinds kinds
  | add _ k ih => exact ih.merge (codeFits_ofFlags k.flag)
  | merge _ _ iht ihu => exact iht.merge ihu
  | @withTag t _ ih =>
      have hhas : t.withTag.has .entity = t.has .entity := has_withTag t (by decide)
      exact ⟨fun h => ih.absent (hhas ▸ h), fun h => ih.present (hhas ▸ h)⟩

/-- References that are no union lead to one object type. -/
theorem CodeFits.any_lt_code (h : t.CodeFits) (hhas : t.has .entity = true)
    (hunion : t.isUnion = false) : TypeCode.any < t.code := by
  have hne : t.code ≠ TypeCode.any := by
    intro heq
    simp [isUnion, hhas, heq] at hunion
  exact Int32.lt_of_le_of_ne (h.present hhas) (Ne.symm hne)

end UnionType

end UnionScript
