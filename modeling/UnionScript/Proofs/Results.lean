import Mathlib.Data.Option.Defs

/-!
# Facts about results

What several modules use of optional values and of results in general: values that
are related where they are given (`rel_cases`, `rel_bind`, `eq_of_rel_eq`), results that
fail alike or are related (`Agree`), results that are made of others
(`bind_pure_eq_ok_iff`), and results that can be evaluated (`exists_ok_of_any`).
-/

namespace UnionScript

variable {ε α β γ δ : Type}

section

variable {R : α → β → Prop} {a : Option α} {b : Option β}

/-- Related optional values are both missing, or both given and related. -/
theorem rel_cases (h : Option.Rel R a b) :
    (a = none ∧ b = none) ∨ ∃ x y, a = some x ∧ b = some y ∧ R x y := by
  cases h with
  | none => exact Or.inl ⟨rfl, rfl⟩
  | some h => exact Or.inr ⟨_, _, rfl, rfl, h⟩

/-- Going on alike from related optional values gives related ones. -/
theorem rel_bind {S : γ → δ → Prop} {f : α → Option γ} {g : β → Option δ} (h : Option.Rel R a b)
    (hf : ∀ x y, R x y → Option.Rel S (f x) (g y)) : Option.Rel S (a.bind f) (b.bind g) := by
  cases h with
  | none => exact .none
  | some h => exact hf _ _ h

/-- Optional values that are equal where they are given are equal. -/
theorem eq_of_rel_eq {a b : Option α} (h : Option.Rel (· = ·) a b) : a = b := by
  cases h with
  | none => rfl
  | some h => rw [h]

end

/-- Both results are the same failure, or both are values and these are related. -/
inductive Agree {ε α β : Type} (R : α → β → Prop) : Except ε α → Except ε β → Prop
  | ok {a : α} {b : β} (h : R a b) : Agree R (.ok a) (.ok b)
  | error (e : ε) : Agree R (.error e) (.error e)

theorem agree_refl (result : Except ε α) : Agree (· = ·) result result := by
  cases result with
  | ok a => exact .ok rfl
  | error e => exact .error e

/-- A result that is made of another one. -/
theorem bind_pure_eq_ok_iff {x : Except ε α} {f : α → β} {b : β} :
    (x >>= fun a => pure (f a)) = .ok b ↔ ∃ a, x = .ok a ∧ f a = b := by
  cases x <;> simp [bind, Except.bind, pure, Except.pure]

/-- A result with a property that can be evaluated. -/
theorem exists_ok_of_any {e : Except ε α} {P : α → Prop} [DecidablePred P]
    (h : e.toOption.any (fun a => decide (P a)) = true) : ∃ a, e = .ok a ∧ P a := by
  cases e with
  | error fault => simp [Except.toOption] at h
  | ok a => exact ⟨a, rfl, by simpa [Except.toOption] using h⟩

end UnionScript
