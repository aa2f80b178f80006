import UnionScript.Proofs.Lists
import UnionScript.Proofs.Transfer.Coverage
import UnionScript.Proofs.UnionType.Construction

/-!
# Rows are written coherently

The discriminator of a stored value says which of its columns counts.  Where a
rule makes the discriminator up, it and each of the other columns are chosen on
their own.  They agree all the same: a discriminator other than the undefined one
names the only kind of the source, the column of this kind is copied and no other
is, and an object type is written only for a reference (`PropertyRule.Stores`).

What ties the choices together is that a source without a discriminator column of
its own has one column only (`PropertyLayout.HoldsOnly.purposes`).
-/

namespace UnionScript

/-- The column is copied from a column of the source. -/
def ColumnRule.isCopied (c : ColumnRule) : Bool :=
  match c.source with
  | .column _ => true
  | _ => false

theorem ColumnRule.isCopied_iff {c : ColumnRule} :
    c.isCopied = true ↔ ∃ column, c.source = .column column := by
  unfold ColumnRule.isCopied
  split <;> simp_all

/-- The row that a rule writes holds a value of one kind, and nothing beside it. -/
structure PropertyRule.Stores (rule : PropertyRule) (s : PropertyLayout) (k : Kind) : Prop where
  source : rule.source = some s
  only : s.type.valueKinds = [k]
  admitted : rule.target.type.has k = true
  copied : ∃ c column, rule.columns.filter ColumnRule.isCopied = [c] ∧
    c.source = .column column ∧ c.target.purpose = .ofKind k ∧
    column ∈ s.columns ∧ column.purpose = .ofKind k
  others : ∀ c ∈ rule.columns, (c.target.purpose.kind?).isSome →
    c.target.purpose ≠ .ofKind k → c.source = .default c.target.purpose
  typeCode : ∀ c ∈ rule.columns, c.target.purpose = .typeCode →
    c.source = .typeCode (if k = .entity then s.type.code else TypeCode.any)
  reference : k = .entity → TypeCode.any < s.type.code

namespace UnionType

variable {t : UnionType} {k : Kind}

/-- A type that is stored without a discriminator admits one kind at most. -/
theorem valueKinds_cases (h : t.needsDiscriminator = false) :
    t.valueKinds = [] ∨ ∃ k, t.valueKinds = [k] := by
  have hunion : t.isUnion = false := (Bool.or_eq_false_iff.1 h).1
  have hlength : t.valueKinds.length ≤ 1 := by
    have hnot := (Bool.or_eq_false_iff.1 hunion).1
    simpa using hnot
  match hkinds : t.valueKinds with
  | [] => exact Or.inl rfl
  | [k] => exact Or.inr ⟨k, rfl⟩
  | k :: k' :: rest =>
      simp only [hkinds, List.length_cons] at hlength
      omega

/-- The kinds of a type are admitted by it, and the discriminator is none of
them. -/
theorem has_of_valueKinds (h : t.valueKinds = [k]) : t.has k = true ∧ k ≠ .tag := by
  have hmem : k ∈ t.valueKinds := h ▸ List.mem_singleton_self k
  have hne : k ≠ .tag := fun heq => t.tag_notMem_valueKinds (heq ▸ hmem)
  exact ⟨(mem_valueKinds_iff hne).1 hmem, hne⟩

/-- A type that admits something is defined. -/
theorem isUndefined_of_has (h : t.has k = true) : t.isUndefined = false := by
  rw [isUndefined, beq_eq_false_iff_ne]
  intro hzero
  rw [has, hzero] at h
  simp at h

end UnionType

namespace PropertyLayout

/-- The values of a property are of one kind, and it does not store which. -/
structure HoldsOnly (s : PropertyLayout) (k : Kind) : Prop where
  kinds : s.type.valueKinds = [k]
  untagged : ∀ c ∈ s.columns, c.purpose ≠ .tag

variable {s : PropertyLayout} {k : Kind}

theorem HoldsOnly.isUndefined (h : s.HoldsOnly k) : s.type.isUndefined = false :=
  UnionType.isUndefined_of_has (UnionType.has_of_valueKinds h.kinds).1

/-- A property of defined type without a discriminator column needs none. -/
theorem Laid.not_needsDiscriminator (hs : s.Laid) (hdefined : s.type.isUndefined = false)
    (huntagged : ∀ c ∈ s.columns, c.purpose ≠ .tag) : s.type.needsDiscriminator = false := by
  rw [Bool.eq_false_iff]
  intro hneeds
  have htag : Purpose.tag ∈ s.type.purposes := UnionType.mem_purposes_iff.2 (Or.inl ⟨rfl, hneeds⟩)
  obtain ⟨c, hc, hpurpose⟩ := (hs.exists_column_iff hdefined).2 htag
  exact huntagged c hc hpurpose

theorem HoldsOnly.not_needsDiscriminator (h : s.HoldsOnly k) (hs : s.Laid) :
    s.type.needsDiscriminator = false :=
  hs.not_needsDiscriminator h.isUndefined h.untagged

theorem HoldsOnly.isUnion (h : s.HoldsOnly k) (hs : s.Laid) : s.type.isUnion = false :=
  (Bool.or_eq_false_iff.1 (h.not_needsDiscriminator hs)).1

/-- **One column.**  A property that holds values of one kind and does not store
which has the column of this kind only. -/
theorem HoldsOnly.purposes (h : s.HoldsOnly k) (hs : s.Laid) :
    s.columns.map Column.purpose = [.ofKind k] := by
  have hkind : UnionType.kindPurposes false k = [Purpose.ofKind k] := by
    simp [UnionType.kindPurposes]
  rw [hs.purposes, h.isUndefined, if_neg Bool.false_ne_true, UnionType.purposes,
    h.not_needsDiscriminator hs, if_neg Bool.false_ne_true, h.isUnion hs, h.kinds,
    List.flatMap_singleton, hkind, List.nil_append]

/-- The column of the only kind is found, and no other. -/
theorem HoldsOnly.column? (h : s.HoldsOnly k) (hs : s.Laid) :
    ∃ column ∈ s.columns, column.purpose = .ofKind k ∧
      ∀ purpose, s.column? purpose = if purpose = .ofKind k then some column else none := by
  obtain ⟨column, hcolumns, hpurpose⟩ := List.map_eq_singleton_iff.1 (h.purposes hs)
  refine ⟨column, by simp [hcolumns], hpurpose, fun purpose => ?_⟩
  by_cases heq : purpose = .ofKind k
  · simp [PropertyLayout.column?, hcolumns, hpurpose, heq]
  · simp [PropertyLayout.column?, hcolumns, hpurpose, heq, Ne.symm heq]

/-- The object type of references that are no union is known. -/
theorem HoldsOnly.singleReference? (h : s.HoldsOnly k) (hs : s.Laid) (hcode : s.type.CodeFits) :
    s.type.singleReference?.getD TypeCode.any =
      if k = .entity then s.type.code else TypeCode.any := by
  have hsingle : s.type.singleKind? = some k := by
    simp [UnionType.singleKind?, h.isUnion hs, h.kinds]
  by_cases hk : k = .entity
  · have hlt : TypeCode.any < s.type.code := by
      refine hcode.any_lt_code ?_ (h.isUnion hs)
      rw [← hk]
      exact (UnionType.has_of_valueKinds h.kinds).1
    simp [UnionType.singleReference?, hsingle, hk, hlt]
  · simp [UnionType.singleReference?, hsingle, hk]

end PropertyLayout

namespace Transfer

variable {target : UnionType} {source : Option PropertyLayout} {s : PropertyLayout} {k : Kind}

/-- Values without a kind get the undefined discriminator. -/
theorem discriminatorFor_of_empty {t : UnionType} (hunion : t.isUnion = false)
    (hkinds : t.valueKinds = []) :
    discriminatorFor target (some t) = Kind.undefinedDiscriminator := by
  have hentity : t.has .entity = false := by
    rw [Bool.eq_false_iff]
    intro hhas
    have hmem := (UnionType.mem_valueKinds_iff (by decide)).2 hhas
    simp [hkinds] at hmem
  simp [discriminatorFor, hunion, hentity, UnionType.singleKind?, hkinds]

/-- Values of one kind get the discriminator of that kind, if it has one and the
target admits it. -/
theorem discriminatorFor_of_single {t : UnionType} (hunion : t.isUnion = false)
    (hkinds : t.valueKinds = [k]) :
    discriminatorFor target (some t) =
      if target.has k = true then k.discriminator?.getD Kind.undefinedDiscriminator
      else Kind.undefinedDiscriminator := by
  have hsingle : t.singleKind? = some k := by
    simp [UnionType.singleKind?, hunion, hkinds]
  by_cases hentity : t.has .entity = true
  · have hmem := (UnionType.mem_valueKinds_iff (by decide)).2 hentity
    rw [hkinds, List.mem_singleton] at hmem
    subst hmem
    simp [discriminatorFor, hentity, Kind.discriminator?]
  · simp [discriminatorFor, hunion, hentity, hsingle]

/-- **What a discriminator tells.**  A discriminator other than the undefined one
is made up only for a source whose values are all of its kind, and only where the
target admits this kind. -/
theorem holdsOnly_of_discriminator {purpose : Purpose} {byte : UInt8}
    (hs : ∀ s, source = some s → s.Laid)
    (h : columnSource purpose target source = .discriminator byte)
    (hbyte : byte ≠ Kind.undefinedDiscriminator) :
    ∃ s k, source = some s ∧ s.HoldsOnly k ∧ k.discriminator? = some byte ∧
      target.has k = true := by
  cases hsource : source.filter (fun s => !s.type.isUndefined) with
  | none =>
      simp only [columnSource, hsource, Option.bind_none] at h
      cases purpose <;> cases h
      exact absurd rfl hbyte
  | some s =>
      obtain ⟨hsome, hdefined⟩ := Option.filter_eq_some_iff.1 hsource
      replace hdefined : s.type.isUndefined = false := by simpa using hdefined
      cases hcolumn : s.column? purpose with
      | some column => simp [columnSource, hsource, hcolumn] at h
      | none =>
          simp only [columnSource, hsource, Option.bind_some, hcolumn, Option.map_some] at h
          cases purpose <;> cases h
          -- The source has no discriminator column, so it is no union.
          have huntagged := PropertyLayout.column?_eq_none_iff.1 hcolumn
          have hneeds := (hs s hsome).not_needsDiscriminator hdefined huntagged
          have hunion : s.type.isUnion = false := (Bool.or_eq_false_iff.1 hneeds).1
          rcases UnionType.valueKinds_cases hneeds with hkinds | ⟨k, hkinds⟩
          · exact absurd (discriminatorFor_of_empty hunion hkinds) hbyte
          · rw [discriminatorFor_of_single hunion hkinds] at hbyte ⊢
            by_cases hadmits : target.has k = true
            · rw [if_pos hadmits] at hbyte ⊢
              refine ⟨s, k, hsome, ⟨hkinds, huntagged⟩, ?_, hadmits⟩
              cases hdiscriminator : k.discriminator? with
              | none => simp [hdiscriminator] at hbyte
              | some byte => rfl
            · exact absurd (if_neg hadmits) hbyte

/-- Where the rules come from: each fills a property of the target from a
property of the source, or from nothing. -/
theorem exists_of_mem_rules {target source : Layout} {names : Option (List (String × String))}
    {rules : List PropertyRule} (hrules : Transfer.rules target source names = .ok rules)
    {rule : PropertyRule} (hrule : rule ∈ rules) :
    ∃ p ∈ target.properties, ∃ found : Option PropertyLayout,
      (∀ s, found = some s → s ∈ source.properties) ∧ rule = propertyRule p found := by
  cases names with
  | none =>
      obtain rfl := Except.ok.inj hrules
      obtain ⟨p, hp, rfl⟩ := List.mem_map.1 hrule
      exact ⟨p, hp, _, fun s hs => (Layout.property?_eq_some_iff.1 hs).mem, rfl⟩
  | some names =>
      have hassigned := mapM_eq_ok_iff.1 hrules
      obtain ⟨⟨i, hi⟩, rfl⟩ := List.mem_iff_get.1 hrule
      obtain ⟨p, s, hp, hs, hrule⟩ :=
        assigned_eq_ok_iff.1 (hassigned.get (hassigned.length_eq ▸ hi) hi)
      rw [hrule]
      refine ⟨p, (Layout.property?_eq_some_iff.1 hp).mem, some s, ?_, rfl⟩
      rintro _ ⟨⟩
      exact (Layout.property?_eq_some_iff.1 hs).mem

/-- A type that admits a kind has a column for it. -/
theorem exists_target_column {p : PropertyLayout} (hp : p.Laid) (hadmits : p.type.has k = true)
    (hk : k ≠ .tag) : ∃ column ∈ p.columns, column.purpose = .ofKind k := by
  refine (hp.exists_column_iff (UnionType.isUndefined_of_has hadmits)).2 ?_
  refine UnionType.mem_purposes_iff.2 (Or.inr ⟨k, (UnionType.mem_valueKinds_iff hk).2 hadmits, ?_⟩)
  unfold UnionType.kindPurposes
  split
  · rename_i h
    simp [h.1, Purpose.ofKind]
  · exact List.mem_singleton_self _

/-- From a source of one kind a column is copied exactly for the purpose of that
kind. -/
theorem isCopied_iff_of_holdsOnly {p : PropertyLayout} (hs : s.Laid) (honly : s.HoldsOnly k)
    {c : ColumnRule} (hc : c ∈ (propertyRule p (some s)).columns) :
    c.isCopied = true ↔ c.target.purpose = .ofKind k := by
  obtain ⟨column, -, -, hcolumn⟩ := honly.column? hs
  obtain ⟨-, hsource⟩ := mem_columns_propertyRule.1 hc
  rw [ColumnRule.isCopied_iff, hsource]
  simp [columnSource_eq_column_iff, honly.isUndefined, hcolumn]

/-- Exactly one column is copied from a source of one kind to a target that admits
it. -/
theorem copied_of_holdsOnly {p : PropertyLayout} (hp : p.Laid) (hs : s.Laid)
    (honly : s.HoldsOnly k) (hadmits : p.type.has k = true) :
    ∃ c column, (propertyRule p (some s)).columns.filter ColumnRule.isCopied = [c] ∧
      c.source = .column column ∧ c.target.purpose = .ofKind k ∧
      column ∈ s.columns ∧ column.purpose = .ofKind k := by
  obtain ⟨column, hmem, hpurpose, hcolumn⟩ := honly.column? hs
  obtain ⟨t, ht, htpurpose⟩ :=
    exists_target_column hp hadmits (UnionType.has_of_valueKinds honly.kinds).2
  have hsource : columnSource t.purpose p.type (some s) = .column column :=
    columnSource_eq_column_iff.2 ⟨s, rfl, honly.isUndefined, by simp [hcolumn, htpurpose]⟩
  have hc : (⟨t, .column column⟩ : ColumnRule) ∈ (propertyRule p (some s)).columns :=
    mem_columns_propertyRule.2 ⟨ht, hsource.symm⟩
  refine ⟨⟨t, .column column⟩, column, ?_, rfl, htpurpose, hmem, hpurpose⟩
  have hnodup : ((propertyRule p (some s)).columns.map (fun c => c.target.purpose)).Nodup := by
    have hmap := congrArg (List.map Column.purpose) (targets_propertyRule p (some s))
    rw [List.map_map] at hmap
    exact hmap ▸ hp.nodup
  refine filter_eq_singleton_of_nodup hnodup hc fun c' hc' => ?_
  rw [isCopied_iff_of_holdsOnly hs honly hc', htpurpose]

/-- **What a source of one kind fills.**  Its column is copied to the column of
its kind, nothing else is copied, and an object type is that of its references. -/
theorem stores_of_holdsOnly {p : PropertyLayout} (hp : p.Laid) (hs : s.Laid)
    (hcode : s.type.CodeFits) (honly : s.HoldsOnly k) (hadmits : p.type.has k = true) :
    (propertyRule p (some s)).Stores s k where
  source := rfl
  only := honly.kinds
  admitted := hadmits
  copied := copied_of_holdsOnly hp hs honly hadmits
  others := by
    intro c hc hvalue hne
    obtain ⟨column, -, -, hcolumn⟩ := honly.column? hs
    rw [(mem_columns_propertyRule.1 hc).2]
    generalize c.target.purpose = purpose at hvalue hne ⊢
    cases purpose with
    | tag | typeCode => exact absurd hvalue (by decide)
    | _ => simp [columnSource, Option.filter, honly.isUndefined, hcolumn, hne]
  typeCode := by
    intro c hc htypeCode
    obtain ⟨column, -, -, hcolumn⟩ := honly.column? hs
    have hne : Purpose.typeCode ≠ .ofKind k := by cases k <;> decide
    rw [(mem_columns_propertyRule.1 hc).2, htypeCode, ← honly.singleReference? hs hcode]
    simp [columnSource, Option.filter, honly.isUndefined, hcolumn, hne]
  reference := by
    rintro rfl
    exact hcode.any_lt_code (UnionType.has_of_valueKinds honly.kinds).1 (honly.isUnion hs)

/-- **Rows are coherent.**  Whether a target is filled by name or by assignments,
a discriminator other than the undefined one that a rule makes up is that of the
only kind of the source, and the rest of the row agrees with it.  Conversely, a
source of one kind that has no discriminator column gets the discriminator of that
kind, if there is one and the target admits the kind. -/
theorem discriminators_are_coherent {target source : Layout} (htarget : target.Laid)
    (hsource : source.Laid) (hmade : ∀ s ∈ source.properties, s.type.Made)
    {names : Option (List (String × String))} {rules : List PropertyRule}
    (hrules : Transfer.rules target source names = .ok rules) {rule : PropertyRule}
    (hrule : rule ∈ rules) :
    (∀ c ∈ rule.columns, ∀ byte, c.source = .discriminator byte →
      byte ≠ Kind.undefinedDiscriminator →
      ∃ s k, k.discriminator? = some byte ∧ rule.Stores s k) ∧
    (∀ s k byte, rule.source = some s → s.type.valueKinds = [k] →
      (∀ c ∈ s.columns, c.purpose ≠ .tag) → rule.target.type.has k = true →
      k.discriminator? = some byte →
      ∀ c ∈ rule.columns, c.target.purpose = .tag → c.source = .discriminator byte) := by
  obtain ⟨p, hp, found, hfound, rfl⟩ := exists_of_mem_rules hrules hrule
  have hlaid : ∀ s, found = some s → s.Laid := fun s hs => hsource.property (hfound s hs)
  constructor
  · intro c hc byte hdiscriminator hbyte
    obtain ⟨-, hcolumn⟩ := mem_columns_propertyRule.1 hc
    obtain ⟨s, k, rfl, honly, hk, hadmits⟩ :=
      holdsOnly_of_discriminator hlaid (hcolumn.symm.trans hdiscriminator) hbyte
    refine ⟨s, k, hk, ?_⟩
    exact stores_of_holdsOnly (htarget.property hp) (hlaid s rfl)
      (hmade s (hfound s rfl)).codeFits honly hadmits
  · rintro s k byte ⟨⟩ hkinds huntagged hadmits hk c hc htag
    change p.type.has k = true at hadmits
    have honly : s.HoldsOnly k := ⟨hkinds, huntagged⟩
    have hnone : s.column? .tag = none := PropertyLayout.column?_eq_none_iff.2 huntagged
    have hdiscriminator : discriminatorFor p.type (some s.type) = byte := by
      rw [discriminatorFor_of_single (honly.isUnion (hlaid s rfl)) hkinds, if_pos hadmits, hk,
        Option.getD_some]
    rw [(mem_columns_propertyRule.1 hc).2, htag]
    simp [columnSource, Option.filter, honly.isUndefined, hnone, hdiscriminator]

/-- A row with two unions, and one with a reference and a text. -/
def referenceFields : List Field × List Field :=
  ([⟨"Owner", "_Fld1", UnionType.ofKinds [.boolean, .entity]⟩,
      ⟨"Note", "_Fld2", (UnionType.ofKind .string).withTag⟩],
    [⟨"owner", "a", UnionType.entity 42⟩, ⟨"text", "b", UnionType.ofKind .string⟩])

/-- The reference is written with its object type, and the text under its own
discriminator. -/
theorem discriminators_of_referenceFields :
    ∃ rules, Transfer.rules (.ofFields referenceFields.1) (.ofFields referenceFields.2)
        (some [("OWNER", "owner"), ("note", "text")]) = .ok rules ∧
      rules.map (fun rule => rule.columns.map (fun c => c.source.literal?)) =
        [[some "0x08", some "0x00", some "0x0000002A", none], [some "0x05", none]] ∧
      ∀ rule ∈ rules, ∃ s k, rule.Stores s k := by
  obtain ⟨rules, hrules, hliterals, hbytes⟩ :
      ∃ rules, Transfer.rules (.ofFields referenceFields.1) (.ofFields referenceFields.2)
          (some [("OWNER", "owner"), ("note", "text")]) = .ok rules ∧
        rules.map (fun rule => rule.columns.map (fun c => c.source.literal?)) =
          [[some "0x08", some "0x00", some "0x0000002A", none], [some "0x05", none]] ∧
        ∀ rule ∈ rules, ∃ c ∈ rule.columns, c.source = .discriminator 8 ∨
          c.source = .discriminator 5 := ⟨_, rfl, by decide, by decide⟩
  refine ⟨rules, hrules, hliterals, fun rule hrule => ?_⟩
  have hmade : ∀ s ∈ (Layout.ofFields referenceFields.2).properties, s.type.Made := by
    intro s hs
    rcases List.mem_pair.1 hs with rfl | rfl
    · exact .entity 42
    · exact .ofKind .string
  obtain ⟨hforward, -⟩ := discriminators_are_coherent ⟨_, rfl⟩ ⟨_, rfl⟩ hmade hrules hrule
  obtain ⟨c, hc, h | h⟩ := hbytes rule hrule
  · obtain ⟨s, k, -, hstores⟩ := hforward c hc 8 h (by decide)
    exact ⟨s, k, hstores⟩
  · obtain ⟨s, k, -, hstores⟩ := hforward c hc 5 h (by decide)
    exact ⟨s, k, hstores⟩

end Transfer

end UnionScript
