import Mathlib.Data.List.TakeWhile
import UnionScript.Entity
import UnionScript.Proofs.Decimal.Signed
import UnionScript.Proofs.Identity

/-!
# Texts that stand for an entity

An entity is spelled as a code and an identity in braces, with a colon between them, and with blanks
around the whole and around the two parts (`Entity.Spelled`).  The identity may have braces and
colons of its own.  A code never has one, so the first colon is the one between them.

* `Text.trim_eq_iff` — what is left of a text without the blanks at its ends;
* `Entity.read_eq_ok_iff` — entities are read from the texts that spell them, and from no others;
* `Entity.text_spelled` — the text of an entity spells it.

Main statement: `Entity.entities_are_read_as_spelled`.
-/

namespace UnionScript

namespace Text

/-- A text is made of another one and of blanks around it, and the other one neither starts nor ends
with a blank. -/
structure Trimmed (cs core : List Char) : Prop where
  around : ∃ before after, cs = before ++ (core ++ after) ∧ (∀ c ∈ before, isBlank c) ∧
    ∀ c ∈ after, isBlank c
  first : ∀ c ∈ core.head?, ¬ isBlank c
  last : ∀ c ∈ core.getLast?, ¬ isBlank c

variable {cs core : List Char}

/-- Nothing but blanks is left out at the start, and no blank is left there. -/
theorem trimStart_spec (cs : List Char) :
    (∃ before, cs = before ++ trimStart cs ∧ ∀ c ∈ before, isBlank c) ∧
      ∀ c ∈ (trimStart cs).head?, ¬ isBlank c := by
  refine ⟨⟨cs.takeWhile isBlank, List.takeWhile_append_dropWhile.symm, fun c hc => ?_⟩,
    fun c hc => ?_⟩
  · exact List.mem_takeWhile_imp hc
  · have := List.head?_dropWhile_not isBlank cs
    rw [trimStart] at hc
    rw [Option.mem_def.1 hc] at this
    simpa using this

/-- Blanks in front of a text that does not start with one are left out. -/
theorem trimStart_append {before : List Char} (hbefore : ∀ c ∈ before, isBlank c)
    (hfirst : ∀ c ∈ cs.head?, ¬ isBlank c) : trimStart (before ++ cs) = cs := by
  rw [trimStart, List.dropWhile_append_of_pos hbefore]
  cases cs with
  | nil => rfl
  | cons c rest => exact List.dropWhile_cons_of_neg (hfirst c rfl)

/-- Trimming leaves out the blanks at both ends. -/
theorem trimmed_trim (cs : List Char) : Trimmed cs (trim cs) := by
  obtain ⟨⟨before, hbefore, hblank⟩, hfirst⟩ := trimStart_spec cs
  obtain ⟨⟨after, hafter, hblank'⟩, hlast⟩ := trimStart_spec (trimStart cs).reverse
  have hsplit : trimStart cs = trim cs ++ after.reverse := by
    rw [← List.reverse_inj, List.reverse_append, List.reverse_reverse]
    rw [trim, trimEnd, List.reverse_reverse]
    exact hafter
  refine ⟨⟨before, after.reverse, ?_, hblank, ?_⟩, ?_, ?_⟩
  · rw [← hsplit]
    exact hbefore
  · simpa using hblank'
  · intro c hc
    refine hfirst c ?_
    rw [hsplit, List.head?_append]
    simp [Option.mem_def.1 hc]
  · intro c hc
    refine hlast c ?_
    simpa [trim, trimEnd] using hc

/-- A text can be trimmed in one way. -/
theorem Trimmed.trim_eq (h : Trimmed cs core) : trim cs = core := by
  obtain ⟨⟨before, after, rfl, hbefore, hafter⟩, hfirst, hlast⟩ := h
  cases core with
  | nil =>
      have hnil : trimStart (before ++ ([] ++ after)) = [] := by
        rw [trimStart, List.dropWhile_append_of_pos hbefore, List.dropWhile_eq_nil_iff]
        simpa using hafter
      rw [trim, hnil]
      rfl
  | cons c rest =>
      have hstart : trimStart (before ++ (c :: rest ++ after)) = c :: rest ++ after :=
        trimStart_append hbefore hfirst
      have hend : trimStart (c :: rest ++ after).reverse = (c :: rest).reverse := by
        rw [List.reverse_append]
        refine trimStart_append (by simpa using hafter) ?_
        rw [List.head?_reverse]
        exact hlast
      rw [trim, hstart, trimEnd, hend, List.reverse_reverse]

/-- **What trimming leaves** is the text between the blanks. -/
theorem trim_eq_iff : trim cs = core ↔ Trimmed cs core :=
  ⟨fun h => h ▸ trimmed_trim cs, Trimmed.trim_eq⟩

/-- Of the characters of ASCII only those up to the space are blank. -/
theorem not_isBlank {c : Char} (hspace : 0x20 < c.toNat) (hascii : c.toNat < 0x80) :
    ¬ isBlank c := by
  simp only [isBlank, Bool.or_eq_true, Bool.and_eq_true, decide_eq_true_eq, beq_iff_eq]
  omega

/-- A text without blanks at its ends is left as it is. -/
theorem Trimmed.refl (hfirst : ∀ c ∈ cs.head?, ¬ isBlank c)
    (hlast : ∀ c ∈ cs.getLast?, ¬ isBlank c) : Trimmed cs cs :=
  ⟨⟨[], [], by simp⟩, hfirst, hlast⟩

/-- A text without blanks is left as it is. -/
theorem Trimmed.of_forall (h : ∀ c ∈ cs, ¬ isBlank c) : Trimmed cs cs :=
  .refl (fun c hc => h c (List.mem_of_mem_head? hc)) fun c hc => h c (List.mem_of_getLast? hc)

end Text

namespace Entity

/-- A text spells an entity: between braces the code and the identity stand on both sides of the
first colon, and blanks may stand around each of them and around the braces. -/
inductive Spelled (e : Entity) (cs : List Char) : Prop
  | parts {code number identity form : List Char}
      (hcs : Text.Trimmed cs ('\x7b' :: (code ++ ':' :: identity ++ ['\x7d'])))
      (hcolon : ':' ∉ code) (hcode : Text.Trimmed code number)
      (hnumber : Decimal.Denotes number e.code.toInt)
      (hidentity : Text.Trimmed identity form) (hform : e.identity.Written form) : Spelled e cs

variable {e : Entity} {cs code identity : List Char}

/-- A text is cut at the first of its colons. -/
theorem splitColon?_eq_some_iff :
    splitColon? cs = some (code, identity) ↔ cs = code ++ ':' :: identity ∧ ':' ∉ code := by
  unfold splitColon?
  constructor
  · intro h
    split at h
    · rename_i c rest hdrop
      cases h
      have hcolon : c = ':' := by
        simpa [hdrop] using List.head?_dropWhile_not (· != ':') cs
      have hsplit := List.takeWhile_append_dropWhile (p := (· != ':')) (l := cs)
      rw [hdrop, hcolon] at hsplit
      refine ⟨hsplit.symm, fun hmem => ?_⟩
      simpa using List.mem_takeWhile_imp hmem
    · cases h
  · rintro ⟨rfl, hcolon⟩
    have hne : ∀ c ∈ code, (c != ':') = true := fun c hc =>
      bne_iff_ne.2 fun heq => hcolon (heq ▸ hc)
    simp [List.dropWhile_append_of_pos hne, List.takeWhile_append_of_pos hne]

/-- An entity is read if all of its parts are found. -/
theorem read_eq_ok_iff_parts : read cs = .ok e ↔ ∃ inner code identity,
    Identity.braced? (Text.trim cs) = some inner ∧ splitColon? inner = some (code, identity) ∧
      Decimal.readInt32 (Text.trim code) = .ok e.code ∧
      Identity.ofText? (Text.trim identity) = some e.identity := by
  constructor
  · intro h
    unfold read at h
    split at h
    · rename_i inner hinner
      split at h
      · rename_i code identity hsplit
        cases hcode : Decimal.readInt32 (Text.trim code) with
        | error fault =>
            rw [hcode] at h
            cases h
        | ok number =>
            rw [hcode] at h
            cases hfound : Identity.ofText? (Text.trim identity) with
            | none =>
                rw [hfound] at h
                cases h
            | some found =>
                rw [hfound] at h
                cases h
                exact ⟨inner, code, identity, hinner, hsplit, hcode, hfound⟩
      · cases h
    · cases h
  · rintro ⟨inner, code, identity, hinner, hsplit, hcode, hidentity⟩
    rw [read, hinner]
    dsimp only
    rw [hsplit]
    dsimp only
    rw [hcode, hidentity]
    rfl

/-- **Entities are read** from the texts that spell them, and from no others. -/
theorem read_eq_ok_iff : read cs = .ok e ↔ e.Spelled cs := by
  rw [read_eq_ok_iff_parts]
  constructor
  · rintro ⟨inner, code, identity, hinner, hsplit, hcode, hidentity⟩
    obtain ⟨rfl, hcolon⟩ := splitColon?_eq_some_iff.1 hsplit
    exact .parts (Text.trim_eq_iff.1 (Identity.braced?_eq_some_iff.1 hinner)) hcolon
      (Text.trimmed_trim code) (Decimal.readInt32_eq_ok_iff.1 hcode)
      (Text.trimmed_trim identity) (Identity.ofText?_eq_some_iff.1 hidentity)
  · rintro ⟨hcs, hcolon, hcode, hnumber, hidentity, hform⟩
    refine ⟨_, _, _, Identity.braced?_eq_some_iff.2 hcs.trim_eq,
      splitColon?_eq_some_iff.2 ⟨rfl, hcolon⟩, ?_, ?_⟩
    · rw [hcode.trim_eq]
      exact Decimal.readInt32_eq_ok_iff.2 hnumber
    · rw [hidentity.trim_eq]
      exact Identity.ofText?_eq_some_iff.2 hform

/-- The text of an integer has digits and a sign only. -/
theorem isDigit_or_sign {cs : List Char} {v : Int} (h : Decimal.Denotes cs v) :
    ∀ c ∈ cs, c.isDigit ∨ c = '+' ∨ c = '-' := by
  cases h with
  | unsigned h => exact fun c hc => Or.inl (h.2 c hc)
  | plus h =>
      intro c hc
      rcases List.mem_cons.1 hc with rfl | hc
      · exact Or.inr (Or.inl rfl)
      · exact Or.inl (h.2 c hc)
  | minus h =>
      intro c hc
      rcases List.mem_cons.1 hc with rfl | hc
      · exact Or.inr (Or.inr rfl)
      · exact Or.inl (h.2 c hc)

/-- **The text of an entity** spells it. -/
theorem text_spelled (e : Entity) : e.Spelled e.text.toList := by
  have hnumber := Decimal.denotes_toString e.code.toInt
  have hform := e.identity.text_hyphenated
  have htext : e.text.toList = '\x7b' :: ((toString e.code.toInt).toList ++ ':' ::
      e.identity.text.toList ++ ['\x7d']) := by
    simp [text]
  rw [htext]
  refine .parts (.refl ?_ ?_) ?_ (.of_forall ?_) hnumber (.of_forall ?_) (.hyphenated hform)
  · intro c hfirst
    cases hfirst
    decide
  · intro c hlast
    rw [← List.cons_append, List.getLast?_concat] at hlast
    cases hlast
    decide
  · intro hcolon
    exact absurd (isDigit_or_sign hnumber ':' hcolon) (by decide)
  · intro c hc
    rcases isDigit_or_sign hnumber c hc with hdigit | rfl | rfl
    · obtain ⟨hfirst, hlast⟩ := Char.isDigit_iff_toNat.1 hdigit
      exact Text.not_isBlank (Nat.lt_of_lt_of_le (by decide) hfirst)
        (Nat.lt_of_le_of_lt hlast (by decide))
    · decide
    · decide
  · intro c hc
    rcases hform.isSome_value?_or_hyphen c hc with hdigit | rfl
    · obtain ⟨hfirst, hlast⟩ := Text.Hex.range_of_value? hdigit
      exact Text.not_isBlank hfirst hlast
    · decide

/-- **Texts of entities.**  An entity is read back from its text.  In general it is read from the
texts that spell it: between blanks, braces around a code and an identity that are parted by the
first colon, where the code between blanks is an optional sign and digits for a number of
thirty-two bits, and the identity between blanks has one of the forms of identities.  Any other text
is refused as a literal, as it was given. -/
theorem entities_are_read_as_spelled :
    (∀ e : Entity, ofText e.text = .ok e) ∧
    (∀ (s : String) (e : Entity), ofText s = .ok e ↔ e.Spelled s.toList) ∧
    ∀ s : String, (∃ message, ofText s = .error (.invalidLiteral s message)) ↔
      ∀ e : Entity, ¬ e.Spelled s.toList := by
  have hread : ∀ (s : String) (e : Entity), ofText s = .ok e ↔ e.Spelled s.toList := by
    intro s e
    rw [← read_eq_ok_iff, ofText]
    cases read s.toList <;> simp [Except.mapError]
  refine ⟨fun e => (hread _ e).2 e.text_spelled, hread, fun s => ?_⟩
  simp only [← read_eq_ok_iff, ofText]
  cases read s.toList <;> simp [Except.mapError]

end Entity

end UnionScript
