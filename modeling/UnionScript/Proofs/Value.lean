import UnionScript.Proofs.Text.Hex
import UnionScript.Value

/-!
# What literals are decoded to

A text goes into a statement between quotes, with its own quotes doubled.  Whoever reads the
statement goes on from the first quote until one stands alone (`Text.Quoted.scan?`).  That is the
last one of the literal, whatever the text is, and what was read by then is the text
(`Text.Quoted.scan?_encode`).  All other values of a fixed size are written as their bytes.

Main statement: `Value.literals_are_decoded`.
-/

namespace UnionScript

namespace Text.Quoted

/-- Reads a quoted text from behind its first quote on, and gives what was read and what follows
the last quote.  A doubled quote is read as a quote, and one that stands alone is the last one. -/
def scan? : List Char → Option (List Char × List Char)
  | [] => none
  | [c] => if c = mark then some ([], []) else none
  | c :: d :: rest =>
    if c = mark then
      if d = mark then (scan? rest).map (fun found => (mark :: found.1, found.2))
      else some ([], d :: rest)
    else (scan? (d :: rest)).map (fun found => (c :: found.1, found.2))

/-- A character that is no quote is read as it is. -/
theorem scan?_cons {c : Char} (hc : c ≠ mark) (rest : List Char) :
    scan? (c :: rest) = (scan? rest).map (fun found => (c :: found.1, found.2)) := by
  cases rest with
  | nil => simp [scan?, hc]
  | cons d rest => simp [scan?, hc]

/-- A doubled quote is read as one. -/
theorem scan?_doubled (rest : List Char) :
    scan? (mark :: mark :: rest) = (scan? rest).map (fun found => (mark :: found.1, found.2)) := by
  simp [scan?]

/-- A quote that stands alone ends the text. -/
theorem scan?_alone {rest : List Char} (hrest : rest.head? ≠ some mark) :
    scan? (mark :: rest) = some ([], rest) := by
  cases rest with
  | nil => simp [scan?]
  | cons d rest =>
      have hd : d ≠ mark := fun heq => hrest (congrArg some heq)
      simp [scan?, hd]

/-- **Quoted texts end where they should.**  A text whose quotes were doubled is read up to the
quote behind it. -/
theorem scan?_encode (cs : List Char) {rest : List Char} (hrest : rest.head? ≠ some mark) :
    scan? (encode cs ++ mark :: rest) = some (cs, rest) := by
  induction cs with
  | nil => exact scan?_alone hrest
  | cons c cs ih =>
      by_cases hc : c = mark
      · subst hc
        rw [encode, if_pos rfl, List.cons_append, List.cons_append, scan?_doubled, ih,
          Option.map_some]
      · rw [encode, if_neg hc, List.cons_append, scan?_cons hc, ih, Option.map_some]

end Text.Quoted

namespace Value

open Text.Quoted Text.Hex

/-- The literal of a text is the text with doubled quotes between quotes. -/
theorem toList_literal_string (s : String) :
    (Value.string s).literal.toList = 'N' :: mark :: (encode s.toList ++ [mark]) := by
  simp [literal, quote, mark]

/-- Different texts have different literals. -/
theorem literal_string_injective {s t : String}
    (h : (Value.string s).literal = (Value.string t).literal) : s = t := by
  have hlist := congrArg String.toList h
  rw [toList_literal_string, toList_literal_string] at hlist
  obtain ⟨-, -, hbody⟩ : 'N' = 'N' ∧ mark = mark ∧
      encode s.toList ++ [mark] = encode t.toList ++ [mark] := by simpa using hlist
  have hscan := congrArg scan? hbody
  rw [scan?_encode _ (by decide), scan?_encode _ (by decide)] at hscan
  exact String.toList_inj.1 (Prod.mk.inj (Option.some.inj hscan)).1

/-- **Literals are decoded to their values.**  The literal of a text is a quoted text: read from
behind its first quote on, it ends at its last quote, whatever follows that is no quote, and what
was read is the text.  So different texts have different literals.  Bytes, identities, versions,
discriminators and object types are written behind `0x` as bytes, in two capital digits each, with
the most significant byte first and as many of them as the kind of value takes.  An object type
that is negative counts as zero. -/
theorem literals_are_decoded :
    (∀ s : String, (Value.string s).literal.toList = 'N' :: mark :: (encode s.toList ++ [mark]) ∧
      ∀ rest, rest.head? ≠ some mark →
        scan? (encode s.toList ++ mark :: rest) = some (s.toList, rest)) ∧
    (∀ s t : String, (Value.string s).literal = (Value.string t).literal → s = t) ∧
    (∀ bytes, Writes bytes (Value.binary bytes).literal) ∧
    (∀ i : Identity, WritesNumber 16 i.toNat (Value.uuid i).literal) ∧
    (∀ v : UInt64, WritesNumber 8 v.toNat (Value.version v).literal) ∧
    (∀ byte : UInt8, WritesNumber 1 byte.toNat (Value.tag byte).literal) ∧
    ∀ code : TypeCode, WritesNumber 4 code.toInt.toNat (Value.typeCode code).literal := by
  refine ⟨fun s => ⟨toList_literal_string s, fun rest => scan?_encode s.toList⟩,
    fun s t => literal_string_injective, writes_literal, fun i => ?_, fun v => ?_, fun byte => ?_,
    fun code => ?_⟩
  · exact writesNumber_literal (by simpa using i.isLt)
  · exact writesNumber_literal (by simpa using v.toNat_lt)
  · exact ⟨[byte], rfl, by simp [number], writes_literal [byte]⟩
  · have hlt := code.toInt_lt
    exact writesNumber_literal (by omega)

/-- A text of quotes only, and a text that goes on behind its literal. -/
theorem quotes_are_decoded :
    (Value.string "''").literal = "N''''''" ∧ ", 1".toList.head? ≠ some mark ∧
      scan? (encode "''".toList ++ mark :: ", 1".toList) = some ("''".toList, ", 1".toList) :=
  ⟨by decide, by decide, (literals_are_decoded.1 "''").2 ", 1".toList (by decide)⟩

end Value

end UnionScript
