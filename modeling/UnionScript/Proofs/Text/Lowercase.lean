import Mathlib.Data.List.Find
import UnionScript.Builtin
import UnionScript.Syntax.Node

/-!
# What lower-casing leaves of a text

Lower-casing goes by tables of the whole Unicode character set, and a capital sigma
looks at its neighbours.  Still no letter outside of ASCII has a lower case in ASCII,
but for the Kelvin sign, whose lower case is a small k (`lt_of_lowerPoint_lt`).

So the lower-cased form of a text tells where it has dots and at-signs
(`count_lowerAfter`, `head?_lowerAfter`), and whether it is a given word in any case
of ASCII letters, if the word has no k (`lowercase_eq_iff`).  That makes two names
with one key the same wherever names are compared in another way.
-/

namespace UnionScript

namespace Text

/-- Every run of letters is that of ASCII, the Kelvin sign, or outside of ASCII with all
of its small letters. -/
theorem CaseRun.cases_of_mem {run : CaseRun} (h : run ∈ CaseRun.table) :
    (run.first = 0x41 ∧ run.last = 0x5A) ∨ (run.first = 0x212A ∧ run.last = 0x212A) ∨
      (128 ≤ run.first ∧ 128 ≤ run.first + run.shift) := by
  revert run
  decide +kernel

/-- Only ASCII and the Kelvin sign have a lower case in ASCII. -/
theorem lt_of_lowerPoint_lt {n : Nat} (h : lowerPoint n < 128) : n < 128 ∨ n = 0x212A := by
  unfold lowerPoint at h
  split at h
  · rename_i run hrun
    split at h
    · rename_i hcontains
      simp only [CaseRun.contains, Bool.and_eq_true, decide_eq_true_eq] at hcontains
      rcases CaseRun.cases_of_mem (List.mem_of_find?_eq_some hrun) with hr | hr | hr <;> omega
    · exact Or.inl h
  · exact Or.inl h

/-- The Kelvin sign is the exception. -/
theorem lowerPoint_kelvin : lowerPoint 0x212A = 0x6B := by
  decide

/-- In ASCII the table agrees with the core library. -/
theorem ofNat_lowerPoint : ∀ n < 128, Char.ofNat (lowerPoint n) = (Char.ofNat n).toLower := by
  decide

/-- An ASCII character to which no character outside of ASCII is lower-cased. -/
def isPlain (c : Char) : Bool :=
  0 < c.toNat && c.toNat < 128 && c != 'k'

/-- A text of plain characters. -/
def isPlainWord (word : String) : Bool :=
  word.toList.all isPlain

/-- An ASCII character without a case. -/
structure IsCaseless (c : Char) : Prop where
  plain : isPlain c
  lower_iff : ∀ n < 128, (Char.ofNat n).toLower = c ↔ Char.ofNat n = c

theorem isCaseless_dot : IsCaseless '.' :=
  ⟨by decide, by decide⟩

theorem isCaseless_at : IsCaseless '@' :=
  ⟨by decide, by decide⟩

/-- The lower case of a character in its place. -/
def lowerAt (before : List Char) (c : Char) (after : List Char) : List Char :=
  if c = 'Σ' then [lowerSigma before after] else lowerChar c

variable {before after : List Char} {c d : Char}

theorem lowerAfter_cons (before : List Char) (c : Char) (rest : List Char) :
    lowerAfter before (c :: rest) = lowerAt before c rest ++ lowerAfter (c :: before) rest := rfl

/-- In ASCII no letter depends on its neighbours. -/
theorem lowerAt_of_ascii (h : c.toNat < 128) : lowerAt before c after = [c.toLower] := by
  have hsigma : c ≠ 'Σ' := by
    rintro rfl
    exact absurd h (by decide)
  have hdotted : c ≠ 'İ' := by
    rintro rfl
    exact absurd h (by decide)
  rw [lowerAt, if_neg hsigma, lowerChar, if_neg hdotted, ofNat_lowerPoint _ h, Char.ofNat_toNat]

/-- A code point that is none gives the character with code point 0. -/
theorem toNat_ofNat_of_pos {n : Nat} (h : 0 < (Char.ofNat n).toNat) : (Char.ofNat n).toNat = n := by
  by_cases hvalid : n.isValidChar
  · rw [Char.ofNat, dif_pos hvalid]
    rfl
  · rw [Char.ofNat, dif_neg hvalid] at h
    exact absurd h (by decide)

/-- **Lower case from outside of ASCII** is not all plain, and plain only in the small i
of the dotted capital one. -/
theorem lowerAt_cases (before : List Char) (c : Char) (after : List Char) :
    c.toNat < 128 ∨ ((∃ d ∈ lowerAt before c after, ¬ isPlain d) ∧
      ∀ d ∈ lowerAt before c after, isPlain d → d = 'i') := by
  by_cases hc : c.toNat < 128
  · exact Or.inl hc
  · right
    by_cases hsigma : c = 'Σ'
    · have hplain : ¬ isPlain (lowerSigma before after) := by
        unfold lowerSigma
        split <;> decide
      rw [lowerAt, if_pos hsigma]
      simp [hplain]
    · rw [lowerAt, if_neg hsigma]
      by_cases hdotted : c = 'İ'
      · have hplain : ¬ isPlain '\u0307' := by decide
        rw [lowerChar, if_pos hdotted]
        simp [hplain]
      · rw [lowerChar, if_neg hdotted]
        -- The one way into ASCII from outside is that of the Kelvin sign, to the letter k.
        have hplain : ¬ isPlain (Char.ofNat (lowerPoint c.toNat)) := by
          simp only [isPlain, Bool.and_eq_true, decide_eq_true_eq, bne_iff_ne]
          rintro ⟨⟨hpos, hlt⟩, hk⟩
          rw [toNat_ofNat_of_pos hpos] at hlt
          rcases lt_of_lowerPoint_lt hlt with hascii | hkelvin
          · exact hc hascii
          · rw [hkelvin, lowerPoint_kelvin] at hk
            exact hk rfl
        simp [hplain]

/-- No character is dropped. -/
theorem lowerAt_ne_nil (before : List Char) (c : Char) (after : List Char) :
    lowerAt before c after ≠ [] := by
  unfold lowerAt lowerChar
  split
  · simp
  · split <;> simp

theorem lt_of_isPlain (h : isPlain c) : c.toNat < 128 := by
  simp only [isPlain, Bool.and_eq_true, decide_eq_true_eq] at h
  exact h.1.2

/-- Nothing but a caseless character itself is lower-cased to it. -/
theorem IsCaseless.toLower_eq_iff (hd : IsCaseless d) (hc : c.toNat < 128) :
    c.toLower = d ↔ c = d := by
  have hsame := hd.lower_iff c.toNat hc
  rwa [Char.ofNat_toNat] at hsame

theorem lowerAt_of_isCaseless (hd : IsCaseless d) : lowerAt before d after = [d] := by
  have hascii := lt_of_isPlain hd.plain
  rw [lowerAt_of_ascii hascii, (hd.toLower_eq_iff hascii).2 rfl]

/-- A character without a case is the lower case of itself only. -/
theorem eq_of_mem_lowerAt (hd : IsCaseless d) (h : d ∈ lowerAt before c after) : c = d := by
  rcases lowerAt_cases before c after with hc | ⟨-, hi⟩
  · rw [lowerAt_of_ascii hc, List.mem_singleton] at h
    exact (hd.toLower_eq_iff hc).1 h.symm
  · obtain rfl := hi d h hd.plain
    exact absurd ((hd.toLower_eq_iff (c := 'I') (by decide)).1 (by decide)) (by decide)

/-- Lower-casing keeps the characters without a case and adds none. -/
theorem count_lowerAfter (hd : IsCaseless d) (before cs : List Char) :
    (lowerAfter before cs).count d = cs.count d := by
  induction cs generalizing before with
  | nil => rfl
  | cons c rest ih =>
      have hcount : (lowerAt before c rest).count d = [c].count d := by
        by_cases hc : c = d
        · rw [hc, lowerAt_of_isCaseless hd]
        · have hnot : d ∉ lowerAt before c rest := fun hmem => hc (eq_of_mem_lowerAt hd hmem)
          rw [List.count_eq_zero_of_not_mem hnot, List.count_singleton, if_neg (by simpa using hc)]
      rw [lowerAfter_cons, List.count_append, hcount, ih (c :: before), ← List.count_append,
        List.singleton_append]

/-- A text starts with a character without a case if its lower case does. -/
theorem head?_lowerAfter (hd : IsCaseless d) (before cs : List Char) :
    (lowerAfter before cs).head? = some d ↔ cs.head? = some d := by
  cases cs with
  | nil => rfl
  | cons c rest =>
      rw [lowerAfter_cons, List.head?_append,
        Option.or_of_isSome (by simp [List.isSome_head?, lowerAt_ne_nil]), List.head?_cons,
        Option.some.injEq]
      constructor
      · intro hhead
        exact eq_of_mem_lowerAt hd (List.mem_of_head? hhead)
      · rintro rfl
        rw [lowerAt_of_isCaseless hd, List.head?_cons]

theorem lowerAfter_eq_nil_iff (before cs : List Char) : lowerAfter before cs = [] ↔ cs = [] := by
  cases cs with
  | nil => simp [lowerAfter]
  | cons c rest => simp [lowerAfter_cons, lowerAt_ne_nil]

/-- Only ASCII characters have a lower case in ASCII when only ASCII letters have one. -/
theorem lt_of_toLower_lt (h : c.toLower.toNat < 128) : c.toNat < 128 := by
  unfold Char.toLower at h
  split at h
  · rename_i hletter
    have hle : c.toNat ≤ 'Z'.toNat := UInt32.le_iff_toNat_le.1 hletter.2
    exact Nat.lt_of_le_of_lt hle (by decide)
  · exact h

/-- Texts in ASCII are lower-cased character by character. -/
theorem lowerAfter_of_ascii {cs : List Char} (h : ∀ c ∈ cs, c.toNat < 128) (before : List Char) :
    lowerAfter before cs = cs.map Char.toLower := by
  induction cs generalizing before with
  | nil => rfl
  | cons c rest ih =>
      rw [lowerAfter_cons, lowerAt_of_ascii (h c List.mem_cons_self),
        ih (fun d hd => h d (List.mem_cons_of_mem c hd)) (c :: before), List.singleton_append,
        List.map_cons]

/-- A text with plain characters only in lower case is ASCII. -/
theorem lt_of_lowerAfter {cs : List Char} (h : ∀ d ∈ lowerAfter before cs, isPlain d) :
    ∀ c ∈ cs, c.toNat < 128 := by
  induction cs generalizing before with
  | nil => exact fun c hc => by cases hc
  | cons c rest ih =>
      rw [lowerAfter_cons, List.forall_mem_append] at h
      refine List.forall_mem_cons.2 ⟨?_, ih h.2⟩
      rcases lowerAt_cases before c rest with hc | ⟨⟨d, hd, hplain⟩, -⟩
      · exact hc
      · exact absurd (h.1 d hd) hplain

/-- **Plain words.**  A text is a plain word in lower case exactly if it is when only
ASCII letters have a lower case. -/
theorem lowercase_eq_iff {word : String} (hword : isPlainWord word) (s : String) :
    lowercase s = word ↔ asciiLowercase s = word := by
  have hplain : ∀ c ∈ word.toList, isPlain c := List.all_eq_true.1 hword
  have hlist : lowerAfter [] s.toList = word.toList ↔ s.toList.map Char.toLower = word.toList := by
    constructor
    · intro h
      rw [← lowerAfter_of_ascii (lt_of_lowerAfter (h ▸ hplain)) [], h]
    · intro h
      rw [lowerAfter_of_ascii ?_ [], h]
      intro c hc
      refine lt_of_toLower_lt (lt_of_isPlain (hplain c.toLower ?_))
      rw [← h]
      exact List.mem_map_of_mem hc
  unfold lowercase asciiLowercase
  rw [← String.toList_inj, ← String.toList_inj, String.toList_ofList, String.toList_ofList, hlist]

end Text

section

variable {a b : String} (h : nameKey a = nameKey b)

include h

theorem lowerAfter_eq_of_nameKey_eq :
    Text.lowerAfter [] a.toList = Text.lowerAfter [] b.toList :=
  String.ofList_injective h

/-- Names with one key have the same number of dots. -/
theorem count_dot_of_nameKey_eq : a.toList.count '.' = b.toList.count '.' := by
  rw [← Text.count_lowerAfter Text.isCaseless_dot [], lowerAfter_eq_of_nameKey_eq h,
    Text.count_lowerAfter Text.isCaseless_dot]

/-- Names with one key are qualified alike. -/
theorem contains_dot_of_nameKey_eq : a.toList.contains '.' = b.toList.contains '.' := by
  have hcount := count_dot_of_nameKey_eq h
  rw [Bool.eq_iff_iff, List.contains_iff_mem, List.contains_iff_mem, ← List.count_pos_iff,
    ← List.count_pos_iff, hcount]

theorem isEmpty_of_nameKey_eq : a.isEmpty = b.isEmpty := by
  have hlist := lowerAfter_eq_of_nameKey_eq h
  have hnil : a.toList = [] ↔ b.toList = [] := by
    rw [← Text.lowerAfter_eq_nil_iff [], hlist, Text.lowerAfter_eq_nil_iff]
  rw [Bool.eq_iff_iff, String.isEmpty_iff, String.isEmpty_iff, ← String.toList_eq_nil_iff, hnil,
    String.toList_eq_nil_iff]

/-- Names with one key are names of variables alike. -/
theorem isVariableTarget_of_nameKey_eq : isVariableTarget a = isVariableTarget b := by
  have hhead : a.toList.head? = some '@' ↔ b.toList.head? = some '@' := by
    rw [← Text.head?_lowerAfter Text.isCaseless_at [], lowerAfter_eq_of_nameKey_eq h,
      Text.head?_lowerAfter Text.isCaseless_at]
  unfold isVariableTarget
  rw [Bool.eq_iff_iff, beq_iff_eq, beq_iff_eq, hhead]

/-- Names with one key are the same plain words. -/
theorem asciiLowercase_eq_iff_of_nameKey_eq {word : String} (hword : Text.isPlainWord word) :
    Text.asciiLowercase a = word ↔ Text.asciiLowercase b = word := by
  rw [← Text.lowercase_eq_iff hword, ← Text.lowercase_eq_iff hword, ← nameKey, h, nameKey]

/-- Names with one key agree with a plain word alike.  A word with the letter k is not plain, since
the Kelvin sign has the same key. -/
theorem sameAscii_of_nameKey_eq {word : String}
    (hword : Text.isPlainWord (Text.asciiLowercase word)) :
    sameAscii a word = sameAscii b word := by
  unfold sameAscii
  rw [Bool.eq_iff_iff, beq_iff_eq, beq_iff_eq, asciiLowercase_eq_iff_of_nameKey_eq h hword]

/-- Names with one key stand for the rows at hand alike. -/
theorem isPseudoTable_of_nameKey_eq : isPseudoTable a = isPseudoTable b := by
  unfold isPseudoTable
  rw [sameAscii_of_nameKey_eq h (by decide +kernel), sameAscii_of_nameKey_eq h (by decide +kernel)]

/-- Names with one key name the same built-in function. -/
theorem builtin_of_nameKey_eq : Builtin.find? a = Builtin.find? b := by
  have hplain : ∀ f ∈ Builtin.all, Text.isPlainWord (Text.asciiLowercase f.name) := by
    decide +kernel
  unfold Builtin.find?
  refine List.find?_congr fun f hf => ?_
  have hsame := sameAscii_of_nameKey_eq h (hplain f hf)
  unfold sameAscii at hsame ⊢
  rw [BEq.comm, hsame, BEq.comm]

/-- Names with one key name the same kind of values. -/
theorem ofTypeName?_of_nameKey_eq : Kind.ofTypeName? a = Kind.ofTypeName? b := by
  -- The names of kinds are plain words.
  have hplain : ∀ s k, Kind.ofTypeName? s = some k →
      Text.isPlainWord (Text.asciiLowercase s) := by
    intro s k hk
    unfold Kind.ofTypeName? at hk
    split at hk
    case h_12 => cases hk
    all_goals
      rename_i hword
      rw [hword]
      decide +kernel
  refine Option.ext fun k => ⟨fun hk => ?_, fun hk => ?_⟩
  · have hsame := (asciiLowercase_eq_iff_of_nameKey_eq h (hplain a k hk)).1 rfl
    unfold Kind.ofTypeName? at hk ⊢
    rwa [hsame]
  · have hsame := (asciiLowercase_eq_iff_of_nameKey_eq h (hplain b k hk)).2 rfl
    unfold Kind.ofTypeName? at hk ⊢
    rwa [hsame]

end

end UnionScript
