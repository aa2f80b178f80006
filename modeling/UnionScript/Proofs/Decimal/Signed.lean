import Mathlib.Algebra.Group.Int.Defs
import Mathlib.Algebra.Group.Nat.Defs
import UnionScript.Decimal.Signed
import UnionScript.Proofs.Results

/-!
# What bounded integers are read from

An integer is written as an optional sign and at least one digit, and such a text denotes a number
however long it is (`Denotes`).  Digits are read from the left and reading stops at the digit with
which the number leaves its range.  More digits only make it greater, so reading stops early only
if the whole number is out of range: a text is read to a number exactly if it denotes that number
(`readInt32_eq_ok_iff`).
-/

namespace UnionScript.Decimal

/-- The text is one digit or more. -/
def IsNumber (cs : List Char) : Prop :=
  cs ≠ [] ∧ ∀ c ∈ cs, c.isDigit

/-- The number that an optional sign and at least one digit stand for. -/
inductive Denotes : List Char → Int → Prop
  | unsigned {cs : List Char} (h : IsNumber cs) : Denotes cs (Nat.ofDigitChars 10 cs 0)
  | plus {cs : List Char} (h : IsNumber cs) : Denotes ('+' :: cs) (Nat.ofDigitChars 10 cs 0)
  | minus {cs : List Char} (h : IsNumber cs) : Denotes ('-' :: cs) (-Nat.ofDigitChars 10 cs 0)

variable {c : Char} {cs : List Char} {limit n m : Nat} {overflow : IntegerFault}

/-- Digits are the characters that have a value. -/
theorem digitValue?_eq (c : Char) :
    digitValue? c = if c.isDigit then some (c.toNat - 48) else none := by
  simp [digitValue?, Char.isDigit, Char.le_def]

/-- Digits that are appended to a number do not make it smaller. -/
theorem le_ofDigitChars (n : Nat) (cs : List Char) : n ≤ Nat.ofDigitChars 10 cs n := by
  induction cs generalizing n with
  | nil => simp
  | cons c rest ih =>
      rw [Nat.ofDigitChars_cons]
      exact Nat.le_trans (by omega) (ih _)

/-- **Digits are read** to the number that they make, if it is within the limit. -/
theorem readMagnitude_eq_ok_iff (hn : n ≤ limit) :
    readMagnitude limit overflow n cs = .ok m ↔
      (∀ c ∈ cs, c.isDigit) ∧ m = Nat.ofDigitChars 10 cs n ∧ m ≤ limit := by
  induction cs generalizing n with
  | nil =>
      simp only [readMagnitude, Except.ok.injEq, Nat.ofDigitChars_nil, List.not_mem_nil,
        false_implies, implies_true, true_and]
      constructor
      · rintro rfl
        exact ⟨rfl, hn⟩
      · exact fun h => h.1.symm
  | cons c rest ih =>
      rw [readMagnitude, digitValue?_eq, Nat.ofDigitChars_cons, List.forall_mem_cons]
      by_cases hdigit : c.isDigit
      · simp only [hdigit, if_true, true_and]
        split
        · -- The number has left its range, and what follows does not bring it back.
          rename_i hover
          have hle := le_ofDigitChars (10 * n + (c.toNat - '0'.toNat)) rest
          constructor
          · intro h
            cases h
          · rintro ⟨-, rfl, hlimit⟩
            exact absurd (Nat.le_trans hle hlimit) (Nat.not_le.2 hover)
        · rename_i hwithin
          exact ih (Nat.not_lt.1 hwithin)
      · simp [hdigit]

theorem readDigits_eq_ok_iff :
    readDigits limit overflow cs = .ok m ↔
      IsNumber cs ∧ m = Nat.ofDigitChars 10 cs 0 ∧ m ≤ limit := by
  unfold readDigits IsNumber
  cases cs with
  | nil => simp
  | cons c rest =>
      simp [readMagnitude_eq_ok_iff (Nat.zero_le limit)]

/-- A text that is read denotes what it is read to. -/
theorem denotes_of_readInt32 {code : Int32} (h : readInt32 cs = .ok code) :
    Denotes cs code.toInt := by
  have hpow : Nat.pow 2 31 = 2 ^ 31 := rfl
  -- Within the limit of its sign a number has thirty-two bits.
  have hfits : ∀ {v : Int}, -2 ^ 31 ≤ v → v < 2 ^ 31 → Denotes cs v →
      Denotes cs (Int32.ofInt v).toInt := by
    intro v hmin hmax hv
    rwa [Int32.toInt_ofInt_of_le hmin hmax]
  revert h
  fun_cases readInt32 cs with
  | case1 =>
      intro h
      cases h
  | case2 rest =>
      intro h
      obtain ⟨n, hn, rfl⟩ := bind_pure_eq_ok_iff.1 h
      obtain ⟨hnumber, rfl, hlimit⟩ := readDigits_eq_ok_iff.1 hn
      exact hfits (by omega) (by omega) (.minus hnumber)
  | case3 rest =>
      intro h
      obtain ⟨n, hn, rfl⟩ := bind_pure_eq_ok_iff.1 h
      obtain ⟨hnumber, rfl, hlimit⟩ := readDigits_eq_ok_iff.1 hn
      exact hfits (by omega) (by omega) (.plus hnumber)
  | case4 =>
      intro h
      obtain ⟨n, hn, rfl⟩ := bind_pure_eq_ok_iff.1 h
      obtain ⟨hnumber, rfl, hlimit⟩ := readDigits_eq_ok_iff.1 hn
      exact hfits (by omega) (by omega) (.unsigned hnumber)

/-- A text that denotes a number of the range is read to it. -/
theorem readInt32_of_denotes {v : Int} (h : Denotes cs v) (hmin : -2 ^ 31 ≤ v) (hmax : v < 2 ^ 31) :
    readInt32 cs = .ok (Int32.ofInt v) := by
  have hpow : Nat.pow 2 31 = 2 ^ 31 := rfl
  cases h with
  | minus h => exact bind_pure_eq_ok_iff.2 ⟨_, readDigits_eq_ok_iff.2 ⟨h, rfl, by omega⟩, rfl⟩
  | plus h => exact bind_pure_eq_ok_iff.2 ⟨_, readDigits_eq_ok_iff.2 ⟨h, rfl, by omega⟩, rfl⟩
  | unsigned h =>
      fun_cases readInt32 cs with
      | case1 => exact (h.1 rfl).elim
      | case2 rest => exact absurd (h.2 '-' List.mem_cons_self) (by decide)
      | case3 rest => exact absurd (h.2 '+' List.mem_cons_self) (by decide)
      | case4 => exact bind_pure_eq_ok_iff.2 ⟨_, readDigits_eq_ok_iff.2 ⟨h, rfl, by omega⟩, rfl⟩

/-- **Integers are read** from the texts that denote them, and from no others. -/
theorem readInt32_eq_ok_iff {code : Int32} :
    readInt32 cs = .ok code ↔ Denotes cs code.toInt := by
  refine ⟨denotes_of_readInt32, fun h => ?_⟩
  rw [readInt32_of_denotes h code.le_toInt code.toInt_lt, Int32.ofInt_toInt]

/-- **Integers are read back** from their own texts. -/
theorem denotes_toString (v : Int) : Denotes (toString v).toList v := by
  have hnumber : ∀ n : Nat, IsNumber (Nat.toDigits 10 n) := fun n =>
    ⟨Nat.toDigits_ne_nil, fun c hc => Nat.isDigit_of_mem_toDigits (by decide) (by decide) hc⟩
  cases v with
  | ofNat n =>
      have h := Denotes.unsigned (hnumber n)
      rw [Nat.ofDigitChars_ten_toDigits] at h
      simpa [toString, Int.repr] using h
  | negSucc n =>
      have h := Denotes.minus (hnumber (n + 1))
      rw [Nat.ofDigitChars_ten_toDigits] at h
      simpa [toString, Int.repr, Int.negSucc_eq] using h

end UnionScript.Decimal
