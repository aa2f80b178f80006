import UnionScript.Identity
import UnionScript.Proofs.Text.Hex

/-!
# The forms of an identity

An identity has four written forms (`Written`): its thirty-two digits, the digits in groups with
hyphens between them, and these groups in braces or behind `urn:uuid:`.  It is read from any of them
and from nothing else (`ofText?_eq_some_iff`), and its own text is the form in groups
(`text_hyphenated`).
-/

namespace UnionScript.Identity

/-- Thirty-two digits that denote an identity. -/
structure Plain (i : Identity) (cs : List Char) : Prop where
  length : cs.length = 32
  value : Text.Hex.read? cs = some i.toNat

/-- The digits of an identity in groups of 8, 4, 4, 4 and 12 with hyphens between them. -/
inductive Hyphenated (i : Identity) : List Char → Prop
  | groups {a b c d e : List Char} (ha : a.length = 8) (hb : b.length = 4) (hc : c.length = 4)
      (hd : d.length = 4) (h : i.Plain (a ++ b ++ c ++ d ++ e)) :
      Hyphenated i (a ++ '-' :: (b ++ '-' :: (c ++ '-' :: (d ++ '-' :: e))))

/-- The written forms of an identity. -/
inductive Written (i : Identity) : List Char → Prop
  | plain {cs : List Char} (h : i.Plain cs) : Written i cs
  | hyphenated {cs : List Char} (h : i.Hyphenated cs) : Written i cs
  | braced {cs : List Char} (h : i.Hyphenated cs) : Written i ('\x7b' :: (cs ++ ['\x7d']))
  | urn {scheme cs : List Char} (hscheme : scheme.map Char.toLower = "urn:uuid:".toList)
      (h : i.Hyphenated cs) : Written i (scheme ++ cs)

variable {i : Identity} {cs group rest : List Char} {size : Nat}

theorem Hyphenated.length (h : i.Hyphenated cs) : cs.length = 36 := by
  cases h with
  | groups ha hb hc hd h =>
      have := h.length
      simp only [List.length_append, List.length_cons] at this ⊢
      omega

/-- The form in groups has digits and hyphens only. -/
theorem Hyphenated.isSome_value?_or_hyphen (h : i.Hyphenated cs) :
    ∀ x ∈ cs, (Text.Hex.value? x).isSome ∨ x = '-' := by
  cases h with
  | groups ha hb hc hd h =>
      have hvalue := Text.Hex.isSome_value?_of_read? h.value
      simp only [List.mem_append, List.mem_cons] at hvalue ⊢
      grind

/-- A text is cut behind a group by the hyphen there. -/
theorem takeGroup?_eq_some_iff :
    takeGroup? size cs = some (group, rest) ↔ cs = group ++ '-' :: rest ∧ group.length = size := by
  constructor
  · intro h
    unfold takeGroup? at h
    split at h
    · rename_i rest' hdrop
      cases h
      have hlt : size < cs.length := by
        have := congrArg List.length hdrop
        simp only [List.length_drop, List.length_cons] at this
        omega
      rw [← hdrop, List.take_append_drop, List.length_take]
      exact ⟨rfl, Nat.min_eq_left (Nat.le_of_lt hlt)⟩
    · cases h
  · rintro ⟨rfl, rfl⟩
    simp [takeGroup?]

/-- Hyphens are removed from between groups of 8, 4, 4 and 4 and what follows. -/
theorem joinGroups?_eq_some_iff {joined : List Char} :
    joinGroups? cs = some joined ↔ ∃ a b c d e, a.length = 8 ∧ b.length = 4 ∧ c.length = 4 ∧
      d.length = 4 ∧ cs = a ++ '-' :: (b ++ '-' :: (c ++ '-' :: (d ++ '-' :: e))) ∧
      joined = a ++ b ++ c ++ d ++ e := by
  simp only [joinGroups?, Option.bind_eq_bind, Option.bind_eq_some_iff, Prod.exists,
    takeGroup?_eq_some_iff, Option.pure_def, Option.some.injEq]
  constructor
  · rintro ⟨a, _, ⟨rfl, ha⟩, b, _, ⟨rfl, hb⟩, c, _, ⟨rfl, hc⟩, d, e, ⟨rfl, hd⟩, rfl⟩
    exact ⟨a, b, c, d, e, ha, hb, hc, hd, rfl, rfl⟩
  · rintro ⟨a, b, c, d, e, ha, hb, hc, hd, rfl, rfl⟩
    exact ⟨a, _, ⟨rfl, ha⟩, b, _, ⟨rfl, hb⟩, c, _, ⟨rfl, hc⟩, d, e, ⟨rfl, hd⟩, rfl⟩

/-- Thirty-two digits are read to the identity that they denote. -/
theorem ofDigits?_eq_some_iff : ofDigits? cs = some i ↔ i.Plain cs := by
  unfold ofDigits?
  constructor
  · intro h
    split at h
    · rename_i hlength
      obtain ⟨n, hn, rfl⟩ := Option.map_eq_some_iff.1 h
      have hlt : n < 2 ^ 128 := by
        have := Text.Hex.lt_of_read? hn
        rw [hlength] at this
        omega
      refine ⟨hlength, ?_⟩
      rw [hn, BitVec.toNat_ofNat, Nat.mod_eq_of_lt hlt]
    · cases h
  · intro h
    rw [if_pos h.length, h.value, Option.map_some, BitVec.ofNat_toNat, BitVec.setWidth_eq]

theorem ofHyphenated?_eq_some_iff : ofHyphenated? cs = some i ↔ i.Hyphenated cs := by
  simp only [ofHyphenated?, Option.bind_eq_some_iff, joinGroups?_eq_some_iff, ofDigits?_eq_some_iff]
  constructor
  · rintro ⟨_, ⟨a, b, c, d, e, ha, hb, hc, hd, rfl, rfl⟩, h⟩
    exact .groups ha hb hc hd h
  · intro h
    cases h with
    | @groups a b c d e ha hb hc hd h => exact ⟨_, ⟨a, b, c, d, e, ha, hb, hc, hd, rfl, rfl⟩, h⟩

/-- What is in braces stands between the two. -/
theorem braced?_eq_some_iff {inner : List Char} :
    braced? cs = some inner ↔ cs = '\x7b' :: (inner ++ ['\x7d']) := by
  constructor
  · intro h
    unfold braced? at h
    split at h
    · rename_i rest
      split at h
      · rename_i hlast
        cases h
        obtain ⟨inner, rfl⟩ := List.getLast?_eq_some_iff.1 hlast
        rw [List.dropLast_concat]
      · cases h
    · cases h
  · rintro rfl
    simp [braced?]

/-- What follows `urn:uuid:` follows nine characters that are these in some case. -/
theorem urn?_eq_some_iff :
    urn? cs = some rest ↔
      ∃ scheme : List Char, scheme.map Char.toLower = "urn:uuid:".toList ∧ cs = scheme ++ rest := by
  unfold urn?
  constructor
  · intro h
    split at h
    · rename_i hscheme
      cases h
      exact ⟨cs.take 9, hscheme, (List.take_append_drop 9 cs).symm⟩
    · cases h
  · rintro ⟨scheme, hscheme, rfl⟩
    have hlength : scheme.length = 9 := by simpa using congrArg List.length hscheme
    simp [← hlength, hscheme]

/-- **Identities are read** from their written forms, and from nothing else. -/
theorem ofText?_eq_some_iff : ofText? cs = some i ↔ i.Written cs := by
  constructor
  · intro h
    unfold ofText? at h
    split at h
    · exact .plain (ofDigits?_eq_some_iff.1 h)
    split at h
    · exact .hyphenated (ofHyphenated?_eq_some_iff.1 h)
    split at h
    · obtain ⟨inner, hinner, hread⟩ := Option.bind_eq_some_iff.1 h
      obtain rfl := braced?_eq_some_iff.1 hinner
      exact .braced (ofHyphenated?_eq_some_iff.1 hread)
    split at h
    · obtain ⟨inner, hinner, hread⟩ := Option.bind_eq_some_iff.1 h
      obtain ⟨scheme, hscheme, rfl⟩ := urn?_eq_some_iff.1 hinner
      exact .urn hscheme (ofHyphenated?_eq_some_iff.1 hread)
    · cases h
  · -- The forms are told apart by their lengths.
    intro h
    cases h with
    | plain h => rw [ofText?, if_pos h.length, ofDigits?_eq_some_iff.2 h]
    | hyphenated h => simp [ofText?, h.length, ofHyphenated?_eq_some_iff.2 h]
    | @braced inner h =>
        have hinner := braced?_eq_some_iff.2 (rfl : '\x7b' :: (inner ++ ['\x7d']) = _)
        simp [ofText?, h.length, hinner, ofHyphenated?_eq_some_iff.2 h]
    | @urn scheme inner hscheme h =>
        have hlength : scheme.length = 9 := by simpa using congrArg List.length hscheme
        have hinner := urn?_eq_some_iff.2 ⟨scheme, hscheme, (rfl : scheme ++ inner = _)⟩
        simp [ofText?, h.length, hlength, hinner, ofHyphenated?_eq_some_iff.2 h]

/-- **The text of an identity** is its digits in groups. -/
theorem text_hyphenated (i : Identity) : i.Hyphenated i.text.toList := by
  have hplain : i.Plain (Text.Hex.digits 'a' 32 i.toNat) :=
    ⟨Text.Hex.length_digits _ _ _, Text.Hex.read?_digits (Or.inr rfl) (by simpa using i.isLt)⟩
  generalize hcs : Text.Hex.digits 'a' 32 i.toNat = cs at hplain
  have hlength := hplain.length
  have htext : i.text.toList = cs.take 8 ++ '-' :: ((cs.drop 8).take 4 ++ '-' ::
      ((cs.drop 12).take 4 ++ '-' :: ((cs.drop 16).take 4 ++ '-' :: cs.drop 20))) := by
    have hlast : (cs.drop 20).take 12 = cs.drop 20 :=
      List.take_of_length_le (by simp [hlength])
    simp [text, hcs, String.intercalate_cons_cons, hlast]
  -- Each group begins where the one before it ends.
  have hgroup : ∀ start size, (cs.drop start).take size ++ cs.drop (start + size) =
      cs.drop start := by
    intro start size
    rw [← List.drop_drop, List.take_append_drop]
  have hjoin : cs.take 8 ++ (cs.drop 8).take 4 ++ (cs.drop 12).take 4 ++ (cs.drop 16).take 4 ++
      cs.drop 20 = cs := by
    simp only [List.append_assoc]
    rw [hgroup 16 4, hgroup 12 4, hgroup 8 4, List.take_append_drop]
  rw [htext]
  refine .groups ?_ ?_ ?_ ?_ (hjoin.symm ▸ hplain) <;>
    simp [List.length_take, List.length_drop, hlength]

end UnionScript.Identity
