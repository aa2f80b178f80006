import UnionScript.Proofs.Layout.Columns
import UnionScript.Proofs.Lists
import UnionScript.Transfer.Rule

/-!
# Rules cover the target

Rows are transferred by one rule for each property of the target, and the rules
together fill every column of the target once.  A column is copied only from a
column with the same purpose and database type.  A property without a source
takes the default of each of its columns, and it makes no difference whether the
source has no such property or one of undefined type.

* `Transfer.columnSource_eq_column_iff` — which columns are copied;
* `Transfer.columnSource_of_undefined` — a source of undefined type is none;
* `Transfer.literal?_columnSource_none` — what is not copied from anywhere has
  the literal of its default.
-/

namespace UnionScript

/-- The texts that stand for what columns hold while their kind is not the
current one. -/
def Purpose.defaultText : Purpose → String
  | .tag => "0x01"
  | .boolean => "0x00"
  | .numeric | .integer => "0"
  | .dateTime => "'2001-01-01 00:00:00'"
  | .string => "N''"
  | .binary => "0x"
  | .uuid | .entity => "0x00000000000000000000000000000000"
  | .typeCode => "0x00000000"
  | .version => "0x0000000000000000"

theorem Purpose.defaultLiteral_eq_defaultText (purpose : Purpose) :
    purpose.defaultLiteral = purpose.defaultText := by
  cases purpose <;> decide

namespace Transfer

variable {purpose : Purpose} {target : UnionType} {source : Option PropertyLayout}

/-- **What is copied.**  A column is copied exactly if the source is of defined
type and has a column for the same purpose. -/
theorem columnSource_eq_column_iff {c : Column} :
    columnSource purpose target source = .column c ↔
      ∃ s, source = some s ∧ s.type.isUndefined = false ∧ s.column? purpose = some c := by
  constructor
  · intro h
    cases hfound : (source.filter (fun s => !s.type.isUndefined)).bind (·.column? purpose) with
    | none =>
        simp only [columnSource, hfound] at h
        cases purpose <;> cases h
    | some column =>
        simp only [columnSource, hfound] at h
        obtain rfl : column = c := ColumnSource.column.inj h
        obtain ⟨s, hs, hcolumn⟩ := Option.bind_eq_some_iff.1 hfound
        obtain ⟨hsome, hdefined⟩ := Option.filter_eq_some_iff.1 hs
        exact ⟨s, hsome, by simpa using hdefined, hcolumn⟩
  · rintro ⟨s, rfl, hdefined, hcolumn⟩
    simp [columnSource, Option.filter, hdefined, hcolumn]

/-- A source of undefined type is no source. -/
theorem columnSource_of_undefined (h : ∀ s, source = some s → s.type.isUndefined = true) :
    columnSource purpose target source = columnSource purpose target none := by
  have hnone : source.filter (fun s => !s.type.isUndefined) = none := by
    rw [Option.filter_eq_none_iff]
    intro s hs
    simp [h s hs]
  simp [columnSource, hnone]

/-- What comes from nowhere has the literal of its default. -/
theorem literal?_columnSource_none :
    (columnSource purpose target none).literal? = some purpose.defaultLiteral := by
  cases purpose <;> rfl

/-- The columns of a rule are those of the property that it fills. -/
theorem targets_propertyRule (p : PropertyLayout) (source : Option PropertyLayout) :
    (propertyRule p source).columns.map ColumnRule.target = p.columns := by
  simp [propertyRule, Function.comp_def]

/-- What a rule says about a column. -/
theorem mem_columns_propertyRule {p : PropertyLayout} {c : ColumnRule} :
    c ∈ (propertyRule p source).columns ↔
      c.target ∈ p.columns ∧ c.source = columnSource c.target.purpose p.type source := by
  simp only [propertyRule, List.mem_map]
  constructor
  · rintro ⟨column, hcolumn, rfl⟩
    exact ⟨hcolumn, rfl⟩
  · rintro ⟨hcolumn, hsource⟩
    exact ⟨c.target, hcolumn, by rw [← hsource]⟩

/-- A property is filled by assignment if target and source both have it. -/
theorem assigned_eq_ok_iff {target source : Layout} {names : String × String}
    {rule : PropertyRule} :
    assigned target source names = .ok rule ↔
      ∃ t s, target.property? names.1 = some t ∧ source.property? names.2 = some s ∧
        rule = propertyRule t (some s) := by
  unfold assigned
  cases target.property? names.1 with
  | none => simp
  | some t =>
      cases source.property? names.2 with
      | none => simp
      | some s =>
          simp only [Except.ok.injEq, Option.some.injEq]
          constructor
          · rintro rfl
            exact ⟨t, s, rfl, rfl, rfl⟩
          · rintro ⟨_, _, rfl, rfl, hrule⟩
            exact hrule.symm

/-- **Copied columns fit.**  A column is copied from a column of the source with
the same purpose and the same database type. -/
theorem copied_fits {p s : PropertyLayout} (hp : p.Laid) (hs : s.Laid) {c : ColumnRule}
    (hc : c ∈ (propertyRule p (some s)).columns) {column : Column}
    (hcopied : c.source = .column column) :
    column ∈ s.columns ∧ column.purpose = c.target.purpose ∧
      column.databaseType = c.target.databaseType := by
  obtain ⟨htarget, hsource⟩ := mem_columns_propertyRule.1 hc
  obtain ⟨_, ⟨⟩, -, hcolumn⟩ := columnSource_eq_column_iff.1 (hsource.symm.trans hcopied)
  obtain ⟨hmem, hpurpose⟩ := PropertyLayout.mem_of_column? hcolumn
  refine ⟨hmem, hpurpose, ?_⟩
  rw [hs.databaseType column hmem, hp.databaseType c.target htarget, hpurpose]

/-- **Properties of one type.**  From a source of its own type, which is defined, a
property is copied as a whole. -/
theorem all_copied {p source : PropertyLayout} (hp : p.Laid) (hsource : source.Laid)
    (htype : source.type = p.type) (hdefined : source.type.isUndefined = false) :
    ∀ c ∈ (propertyRule p (some source)).columns, ∃ column ∈ source.columns,
      c.source = .column column ∧ column.purpose = c.target.purpose := by
  intro c hc
  obtain ⟨hmem, hc⟩ := mem_columns_propertyRule.1 hc
  have hpurpose : c.target.purpose ∈ source.type.purposes := by
    rw [htype]
    exact (hp.exists_column_iff (htype ▸ hdefined)).1 ⟨c.target, hmem, rfl⟩
  cases hcolumn : source.column? c.target.purpose with
  | none =>
      obtain ⟨column, hcolumn', hsame⟩ := (hsource.exists_column_iff hdefined).2 hpurpose
      exact absurd hsame (PropertyLayout.column?_eq_none_iff.1 hcolumn column hcolumn')
  | some column =>
      obtain ⟨hcolumn', hsame⟩ := PropertyLayout.mem_of_column? hcolumn
      refine ⟨column, hcolumn', hc.trans ?_, hsame⟩
      exact columnSource_eq_column_iff.2 ⟨source, rfl, hdefined, hcolumn⟩

/-- **Nothing to copy.**  From a source that is missing or of undefined type no
column is copied, and each takes the literal of its default. -/
theorem columns_of_undefined (p : PropertyLayout)
    (h : ∀ s, source = some s → s.type.isUndefined = true) :
    (propertyRule p source).columns = (propertyRule p none).columns ∧
      ∀ c ∈ (propertyRule p source).columns, (∀ column, c.source ≠ .column column) ∧
        c.source.literal? = some c.target.purpose.defaultLiteral := by
  refine ⟨?_, fun c hc => ⟨fun column hcopied => ?_, ?_⟩⟩
  · simp only [propertyRule, columnSource_of_undefined h]
  · obtain ⟨-, hsource⟩ := mem_columns_propertyRule.1 hc
    obtain ⟨s, hs, hdefined, -⟩ := columnSource_eq_column_iff.1 (hsource.symm.trans hcopied)
    rw [h s hs] at hdefined
    cases hdefined
  · obtain ⟨-, hsource⟩ := mem_columns_propertyRule.1 hc
    rw [hsource, columnSource_of_undefined h, literal?_columnSource_none]

/-- **Rules cover the target.**  Filling a target from any source gives one rule
for each property of the target, in order, and the rules fill every column of the
target once.  Columns are copied only from the first property of the source that
has the name of the target's, and only with the same purpose and database type.
If there is no such property, or it is of undefined type, no column is copied and
all have the literals of their defaults. -/
theorem rules_cover_target {target source : Layout} (htarget : target.Laid)
    (hsource : source.Laid) :
    ∃ rules, Transfer.rules target source none = .ok rules ∧
      rules.map PropertyRule.target = target.properties ∧
      rules.flatMap (fun rule => rule.columns.map ColumnRule.target) = target.columns ∧
      target.columns.map Column.ordinal = List.range target.columns.length ∧
      ∀ rule ∈ rules,
        (∀ c ∈ rule.columns, ∀ column, c.source = .column column →
          ∃ s, source.FirstNamed rule.target.name s ∧ column ∈ s.columns ∧
            column.purpose = c.target.purpose ∧
            column.databaseType = c.target.databaseType) ∧
        ((∀ s, source.FirstNamed rule.target.name s → s.type.isUndefined = true) →
          rule.columns = (propertyRule rule.target none).columns ∧
          ∀ c ∈ rule.columns, (∀ column, c.source ≠ .column column) ∧
            c.source.literal? = some c.target.purpose.defaultLiteral ∧
            c.target.purpose.defaultLiteral = c.target.purpose.defaultText) := by
  refine ⟨byName target source, rfl, ?_, ?_, htarget.ordinals, ?_⟩
  · simp [byName, propertyRule, Function.comp_def]
  · simp only [byName, List.flatMap_map, targets_propertyRule, Layout.columns]
  · intro rule hrule
    obtain ⟨p, hp, rfl⟩ := List.mem_map.1 hrule
    change (∀ c ∈ _, _) ∧ ((∀ s, source.FirstNamed p.name s → _) → _)
    refine ⟨fun c hc column hcopied => ?_, fun hundefined => ?_⟩
    · cases hfound : source.property? p.name with
      | none =>
          rw [hfound] at hc
          exact absurd hcopied (((columns_of_undefined p (by simp)).2 c hc).1 column)
      | some s =>
          rw [hfound] at hc
          have hfirst := Layout.property?_eq_some_iff.1 hfound
          exact ⟨s, hfirst,
            copied_fits (htarget.property hp) (hsource.property hfirst.mem) hc hcopied⟩
    · obtain ⟨hcolumns, hdefaults⟩ := columns_of_undefined p fun s hs =>
        hundefined s (Layout.property?_eq_some_iff.1 hs)
      refine ⟨hcolumns, fun c hc => ⟨(hdefaults c hc).1, (hdefaults c hc).2, ?_⟩⟩
      exact Purpose.defaultLiteral_eq_defaultText _

/-- A row with a union, a text and a number, and one with an undefined property
and a text. -/
def mixedFields : List Field × List Field :=
  ([⟨"Owner", "_Fld1", UnionType.ofKinds [.boolean, .entity]⟩,
      ⟨"Code", "_Code", UnionType.ofKind .string⟩, ⟨"Rest", "_Rest", UnionType.ofKind .numeric⟩],
    [⟨"OWNER", "a", UnionType.undefined⟩, ⟨"code", "b", UnionType.ofKind .string⟩])

/-- Of the six columns of the target the text is copied, and the union and the
number take their defaults. -/
theorem rules_cover_mixedFields :
    (Layout.ofFields mixedFields.1).Laid ∧ (Layout.ofFields mixedFields.2).Laid ∧
      ∃ rules, Transfer.rules (.ofFields mixedFields.1) (.ofFields mixedFields.2) none =
          .ok rules ∧
        rules.map (fun rule => rule.columns.map (fun c => c.source.literal?)) =
          [[some "0x01", some "0x00", some "0x00000000",
              some "0x00000000000000000000000000000000"], [none], [some "0"]] ∧
        rules.flatMap (fun rule => rule.columns.map ColumnRule.target) =
          (Layout.ofFields mixedFields.1).columns := by
  have htarget : (Layout.ofFields mixedFields.1).Laid := ⟨_, rfl⟩
  have hsource : (Layout.ofFields mixedFields.2).Laid := ⟨_, rfl⟩
  obtain ⟨rules, hrules, -, hcolumns, -⟩ := rules_cover_target htarget hsource
  refine ⟨htarget, hsource, rules, hrules, ?_, hcolumns⟩
  obtain rfl := Except.ok.inj hrules
  decide

end Transfer

end UnionScript
