import UnionScript.Proofs.BoundScript.Meaning
import UnionScript.Proofs.Layout.Columns
import UnionScript.Proofs.Syntax.Leftmost

/-!
# The names of projected columns

A projected column is named twice.  Where columns are looked up, it goes by its own
name: its alias, or else the name of the column or variable that it directly is
(`Tree.columnName?`).  Where rows are laid out, it is exposed by the name that comes
with its type, and for lack of one by its place.

The two go together as long as a column has both a name of its own and a type
(`Layout.sameName_projectedField`).  They part where a column has no name of its own:
a column in parentheses is exposed by the name inside of them, and a number by its
place, but neither is found by it.

* `Layout.ofNode_of_mem_projection` — rows are laid out by the columns that names are
  looked up in;
* `projected_names_agree` — the first column that is found by a name is the first that
  is exposed by it, unless an earlier one without a name of its own or without a type
  comes in between.
-/

namespace UnionScript

/-- Column references are bound to properties of their name. -/
def Tree.NamesProperties (tree : Tree) (bindings : Bindings) : Prop :=
  ∀ n identifier definition index, tree.get? n = some (.columnReference identifier) →
    bindings.find? n = some (.property definition index) →
    definition.FirstAt (lastPart identifier) index

/-- Binding binds column references to properties of their name. -/
theorem namesProperties_of_bindScript {config : Config} {tree : Tree} {provider : Provider}
    {root : NodeId} {bound : BoundScript}
    (hbind : bindScript config tree provider root = .ok bound) :
    tree.NamesProperties bound.bindings := by
  obtain ⟨q, hmeaningful, hbindings⟩ := exists_meaningful_of_bindScript hbind
  intro n identifier definition index hn hb
  obtain ⟨-, x, hx, haccepts⟩ := hmeaningful.bindings n _ (hbindings ▸ hb)
  obtain rfl : Node.columnReference identifier = x := Option.some.inj (hn.symm.trans hx)
  exact haccepts

namespace Typing

variable {tree : Tree} {bindings : Bindings} {inferred : Inferred} {steps : Nat}

/-- The type of a column or variable comes with its name. -/
theorem name_of_referenceName? (hnames : tree.NamesProperties bindings) {expression : NodeId}
    {own : String} (hown : tree.referenceName? expression = some own)
    (hinfer : inferWithin tree bindings steps expression = some inferred) :
    ∃ name, inferred.name = some name ∧ sameName name own := by
  cases steps with
  | zero => cases hinfer
  | succ steps =>
      unfold Tree.referenceName? at hown
      split at hown
      · rename_i identifier hreference
        cases hown
        rw [inferWithin, hreference, Option.bind_some, node] at hinfer
        obtain ⟨b, hb, hinfer⟩ := Option.bind_eq_some_iff.1 hinfer
        cases b with
        | property definition index =>
            obtain ⟨⟨p, hp, hname⟩, -⟩ := hnames _ identifier definition index hreference hb
            simp only [column, hp, Option.map_some, Option.some.injEq] at hinfer
            exact ⟨p.name, hinfer ▸ rfl, hname⟩
        | column projected =>
            obtain ⟨i, -, rfl⟩ := Option.map_eq_some_iff.1 hinfer
            exact ⟨_, rfl, by simp [sameName]⟩
        | enumValue member =>
            cases hinfer
            exact ⟨_, rfl, by simp [sameName]⟩
        | _ => cases hinfer
      · rename_i identifier hreference
        cases hown
        rw [inferWithin, hreference, Option.bind_some, node] at hinfer
        obtain ⟨type, -, rfl⟩ := Option.map_eq_some_iff.1 hinfer
        exact ⟨_, rfl, by simp [sameName]⟩
      · cases hown

/-- **Own names come with the type.**  A column that has a type and a name of its own
is exposed by that name. -/
theorem name_of_columnName? (hnames : tree.NamesProperties bindings) {column : NodeId}
    {own : String} (hown : tree.columnName? column = some own)
    (hinfer : inferWithin tree bindings steps column = some inferred) :
    ∃ name, inferred.name = some name ∧ sameName name own := by
  cases steps with
  | zero => cases hinfer
  | succ steps =>
      unfold Tree.columnName? at hown
      split at hown
      · rename_i expression aliasName hcolumn
        rw [inferWithin, hcolumn, Option.bind_some, node] at hinfer
        obtain ⟨i, hi, rfl⟩ := Option.map_eq_some_iff.1 hinfer
        cases aliasName with
        | none => exact name_of_referenceName? hnames hown hi
        | some aliasName =>
            cases hown
            exact ⟨_, rfl, by simp [sameName]⟩
      · cases hown

end Typing

namespace Layout

section

variable (tree : Tree) (bindings : Bindings) {columns : List NodeId} {column : NodeId}

/-- The rows of a node are laid out by its projected columns, however many links away
they are. -/
theorem ofNodeWithin_of_mem_projectionWithin {fuel : Nat} {n : NodeId}
    (h : column ∈ tree.projectionWithin fuel n) :
    ofNodeWithin tree bindings fuel n =
      .ok (ofProjection tree bindings (tree.projectionWithin fuel n)) := by
  induction fuel generalizing n with
  | zero => cases h
  | succ fuel ih =>
      unfold Tree.projectionWithin at h ⊢
      unfold ofNodeWithin RowSource.ofNode
      split at h <;> rename_i hn
      · simp [hn]
      · simp [hn]
      · simp [hn, ih h]
      · simp [hn, ih h]
      · simp [hn, ih h]
      · cases h

/-- **Rows are laid out by the columns that names are looked up in.** -/
theorem ofNode_of_mem_projection {n : NodeId} (h : column ∈ tree.projection n) :
    ofNode tree bindings n = .ok (ofProjection tree bindings (tree.projection n)) :=
  ofNodeWithin_of_mem_projectionWithin tree bindings h

theorem length_ofProjection (columns : List NodeId) :
    (ofProjection tree bindings columns).properties.length = columns.length := by
  have hnames := congrArg List.length (map_name_place (columns.zipIdx.map
    (fun c => projectedField tree bindings c.1 c.2)) 0)
  simpa [ofProjection, ofFields] using hnames

/-- Every projected column has a property in its place. -/
theorem getElem?_ofProjection {i : Nat} (h : columns[i]? = some column) :
    ∃ start, (ofProjection tree bindings columns).properties[i]? =
      some ((projectedField tree bindings column i).layout start) := by
  refine getElem?_place ?_ 0
  simp [List.getElem?_zipIdx, h]

/-- **Properties by name.**  A name that some projected column is exposed by stands for
the first such column. -/
theorem exists_property?_ofProjection {name : String} {i : Nat} (hi : columns[i]? = some column)
    (hname : sameName (projectedField tree bindings column i).name name) :
    ∃ first ≤ i, ∃ e, columns[first]? = some e ∧
      (ofProjection tree bindings columns).property? name =
        (ofProjection tree bindings columns).properties[first]? ∧
      sameName (projectedField tree bindings e first).name name ∧
      ∀ j < first, ∀ e', columns[j]? = some e' →
        ¬ sameName (projectedField tree bindings e' j).name name := by
  have hfield : ∀ {j e}, columns[j]? = some e →
      (columns.zipIdx.map (fun c => projectedField tree bindings c.1 c.2))[j]? =
        some (projectedField tree bindings e j) := by
    intro j e he
    simp [List.getElem?_zipIdx, he]
  obtain ⟨first, hle, g, start, hg, hsame, hearlier, hp, hproperty⟩ :=
    exists_property?_ofFields (hfield hi) hname
  obtain ⟨e, he⟩ : ∃ e, columns[first]? = some e := by
    obtain ⟨hlt, -⟩ := List.getElem?_eq_some_iff.1 hi
    exact ⟨_, List.getElem?_eq_getElem (Nat.lt_of_le_of_lt hle hlt)⟩
  obtain rfl : projectedField tree bindings e first = g :=
    Option.some.inj ((hfield he).symm.trans hg)
  exact ⟨first, hle, e, he, hproperty.trans hp.symm, hsame,
    fun j hj e' he' => hearlier j hj _ (hfield he')⟩

end

section

variable {tree : Tree} {bindings : Bindings} (hnames : tree.NamesProperties bindings)
  {column : NodeId} {own : String} (hown : tree.columnName? column = some own)
  {inferred : Inferred} (hinfer : Typing.infer? tree bindings column = some inferred)

include hnames hown hinfer

/-- A column that has a type and a name of its own is exposed by that name. -/
theorem sameName_projectedField (i : Nat) :
    sameName (projectedField tree bindings column i).name own := by
  obtain ⟨name, hname, hsame⟩ := Typing.name_of_columnName? hnames hown hinfer
  simpa [projectedField, Typing.infer, hinfer, hname] using hsame

/-- It is found by the names that it is exposed by. -/
theorem projects_eq_of_columnName? (name : String) (i : Nat) :
    tree.projects name column = sameName (projectedField tree bindings column i).name name := by
  have hsame := sameName_projectedField hnames hown hinfer i
  rw [sameName, beq_iff_eq] at hsame
  rw [tree.projects_eq, hown, Option.any_some, sameName, sameName, hsame]

end

end Layout

/-- The place of the first projected column of a name. -/
theorem Tree.projectedColumn?_eq_some {tree : Tree} {s column : NodeId} {name : String}
    (h : tree.projectedColumn? s name = some column) :
    (tree.projection s)[(tree.projection s).idxOf column]? = some column ∧
      tree.projects name column ∧
      ∀ j < (tree.projection s).idxOf column, ∀ e, (tree.projection s)[j]? = some e →
        tree.projects name e = false := by
  obtain ⟨hprojects, before, behind, hsplit, hbefore⟩ := List.find?_eq_some_iff_append.1 h
  have hnew : column ∉ before := by
    intro hmem
    simpa [hprojects] using hbefore column hmem
  have hindex : (tree.projection s).idxOf column = before.length := by
    rw [hsplit, List.idxOf_append_of_notMem hnew, List.idxOf_cons_self, Nat.add_zero]
  rw [hindex, hsplit]
  refine ⟨by simp, hprojects, fun j hj e he => ?_⟩
  rw [List.getElem?_append_left hj] at he
  simpa using hbefore e (List.mem_of_getElem? he)

/-- **Names of projected columns.**  A name is found in the columns of a row source, and
the column that it is found for has a type.  Then the rows have a layout with a property
for each column, and the property in the place of that column has its type and the name.
By the name the layout has the first property that is exposed by it.  This is the one of
that column, unless it is of an earlier column that has no name of its own or no type. -/
theorem projected_names_agree {config : Config} {tree : Tree} {provider : Provider}
    {root : NodeId} {bound : BoundScript}
    (hbind : bindScript config tree provider root = .ok bound) {s column : NodeId}
    {name : String} (hfound : tree.projectedColumn? s name = some column) {inferred : Inferred}
    (hinfer : Typing.infer? tree bound.bindings column = some inferred) :
    let place := (tree.projection s).idxOf column
    let exposed := fun e j => (Layout.projectedField tree bound.bindings e j).name
    ∃ layout p, Layout.ofNode tree bound.bindings s = .ok layout ∧
      layout.properties.length = (tree.projection s).length ∧
      layout.properties[place]? = some p ∧ sameName p.name name ∧ p.type = inferred.type ∧
      ∃ first ≤ place, ∃ e, (tree.projection s)[first]? = some e ∧
        layout.property? name = layout.properties[first]? ∧ sameName (exposed e first) name ∧
        (∀ j < first, ∀ e', (tree.projection s)[j]? = some e' → ¬ sameName (exposed e' j) name) ∧
        (first = place ∨ tree.columnName? e = none ∨
          Typing.infer? tree bound.bindings e = none) := by
  intro place exposed
  have hnames := namesProperties_of_bindScript hbind
  obtain ⟨hplace, hprojects, hearlier⟩ := Tree.projectedColumn?_eq_some hfound
  obtain ⟨own, hown⟩ := Tree.exists_columnName?_of_projects hprojects
  have hname : sameName (exposed column place) name := by
    rw [← Layout.projects_eq_of_columnName? hnames hown hinfer]
    exact hprojects
  obtain ⟨start, hp⟩ := Layout.getElem?_ofProjection tree bound.bindings hplace
  refine ⟨_, _, Layout.ofNode_of_mem_projection tree bound.bindings
    (List.mem_of_getElem? hplace), Layout.length_ofProjection _ _ _, hp, hname, ?_, ?_⟩
  · simp [Field.layout, Layout.projectedField, Typing.infer, hinfer]
  · obtain ⟨first, hfirst, e, he, hproperty, hexposed, hbefore⟩ :=
      Layout.exists_property?_ofProjection tree bound.bindings hplace hname
    refine ⟨first, hfirst, e, he, hproperty, hexposed, hbefore, ?_⟩
    refine (Nat.eq_or_lt_of_le hfirst).imp_right fun hlt => ?_
    cases hother : tree.columnName? e with
    | none => exact Or.inl rfl
    | some other =>
        cases htype : Typing.infer? tree bound.bindings e with
        | none => exact Or.inr rfl
        | some type =>
            -- With a name of its own and a type the earlier column would have been found.
            have hmissed := hearlier first hlt e he
            rw [Layout.projects_eq_of_columnName? hnames hother htype name first] at hmissed
            exact absurd hexposed (Bool.eq_false_iff.1 hmissed)

/-- A schema that knows one object, with one property. -/
def sumsOnly : Provider :=
  ⟨fun name => .ok (if nameKey name = "sums" then some ⟨7, "Sums", "t_sums",
    [.ofType "_col0" "c_first" (.ofKind .numeric)]⟩ else none), fun _ => .ok none⟩

/-- A script that stores two numbers, the second one by the name that the first one has
for its place. -/
def numberedColumns : Tree :=
  ⟨#[.tableReference "Sums" none, .scalarLiteral .number "1", .columnExpression 1 none,
    .scalarLiteral .number "2", .columnExpression 3 (some "_col0"),
    .selectExpression { columns := [2, 4] }, .insert { target := 0, source := 5 }, .script [6]]⟩

/-- **A name that is given twice.**  The second column is found by its alias, and the
layout has the first column by that name. -/
theorem numberedColumns_disagree :
    ∃ bound layout, bindScript {} numberedColumns sumsOnly 7 = .ok bound ∧
      bound.diagnostics = [] ∧ numberedColumns.projectedColumn? 5 "_col0" = some 4 ∧
      (numberedColumns.projection 5).idxOf 4 = 1 ∧
      (Typing.infer? numberedColumns bound.bindings 4).isSome ∧
      Layout.ofNode numberedColumns bound.bindings 5 = .ok layout ∧
      layout.property? "_col0" = layout.properties[0]? ∧
      layout.properties[0]? ≠ layout.properties[1]? :=
  ⟨_, _, rfl, rfl, by decide +kernel, by decide +kernel, by decide +kernel, rfl,
    by decide +kernel, by decide +kernel⟩

/-- A common table of a union.  The first block projects a column, the same column in
parentheses, and another column. -/
def commonTotals : Tree :=
  ⟨#[.tableReference "Orders" (some "o"), .columnReference "o.ID", .columnExpression 1 none,
    .columnReference "o.Id", .group 3, .columnExpression 4 none, .columnReference "o.TOTAL",
    .columnExpression 6 none, .selectExpression { columns := [2, 5, 7], source := some 0 },
    .scalarLiteral .number "1", .columnExpression 9 none, .selectExpression { columns := [10] },
    .tableUnion 8 11 true, .group 12, .commonTable "t" 13, .commonTables [14],
    .tableReference "T" none, .columnReference "Total", .columnExpression 17 none,
    .selectExpression { columns := [18], source := some 16 }, .select (some 15) 19,
    .script [20]]⟩

/-- The third column is found by its name in other spelling, and so is its property:
the column in parentheses is exposed as well, but by another name. -/
theorem commonTotals_agree :
    ∃ bound layout, bindScript {} commonTotals ordersOnly 21 = .ok bound ∧
      bound.diagnostics = [] ∧ commonTotals.projectedColumn? 14 "Total" = some 7 ∧
      Typing.infer? commonTotals bound.bindings 7 =
        some ⟨.ofKind .numeric, some "total"⟩ ∧
      Layout.ofNode commonTotals bound.bindings 14 = .ok layout ∧
      layout.property? "Total" = layout.properties[2]? := by
  obtain ⟨bound, hbind, hdiagnostics, hinfer, hexposed⟩ :
      ∃ bound, bindScript {} commonTotals ordersOnly 21 = .ok bound ∧ bound.diagnostics = [] ∧
        Typing.infer? commonTotals bound.bindings 7 = some ⟨.ofKind .numeric, some "total"⟩ ∧
        ∀ j < 2, ∀ e, (commonTotals.projection 14)[j]? = some e →
          ¬ sameName (Layout.projectedField commonTotals bound.bindings e j).name "Total" := by
    refine ⟨_, rfl, by decide +kernel, by decide +kernel, by decide +kernel⟩
  have hfound : commonTotals.projectedColumn? 14 "Total" = some 7 := by decide +kernel
  obtain ⟨layout, p, hlayout, -, -, -, -, first, hle, e, he, hproperty, hsame, -, -⟩ :=
    projected_names_agree hbind hfound hinfer
  have hplace : (commonTotals.projection 14).idxOf 7 = 2 := by decide +kernel
  obtain rfl : first = 2 := by
    rcases Nat.lt_or_eq_of_le (hplace ▸ hle) with hlt | heq
    · exact absurd hsame (hexposed first hlt e he)
    · exact heq
  exact ⟨bound, layout, hbind, hdiagnostics, hfound, hinfer, hlayout, hproperty⟩

end UnionScript
