import UnionScript.Proofs.Lists
import UnionScript.Proofs.Transfer.Coverage
import UnionScript.Transfer.Statement

/-!
# Assigned values

A statement that changes rows has a rule for each of its assignments, in their order.
The assigned values are laid out as a row of their own, with a property for each
assignment, and a rule finds its source in that row by name.  So a rule has the value of
its own assignment only if that is the first one to the name; a later assignment to the
same name, in whatever case, is filled from the first.

* `Assignment`, `Tree.Assigns` — what a node assigns;
* `assignedLayout` — the row of the assigned values;
* `Transfer.updateRules_eq_ok_iff` — when the rules of a statement are made, and from
  what;
* `FirstTo` — the first assignment to a name.

Main statement: `rules_take_first_assignment_to_name`.
-/

namespace UnionScript

/-- What is assigned: the name of a property, and the node of its value. -/
structure Assignment where
  name : String
  initializer : NodeId
deriving DecidableEq, Repr

/-- The field that holds an assigned value. -/
def Assignment.field (tree : Tree) (bindings : Bindings) (a : Assignment) : Field :=
  ⟨a.name, a.name, (Typing.infer tree bindings a.initializer).type⟩

/-- The row of assigned values. -/
def assignedLayout (tree : Tree) (bindings : Bindings) (assignments : List Assignment) : Layout :=
  .ofFields (assignments.map (Assignment.field tree bindings))

/-- A node assigns a value to the property that a column reference names. -/
def Tree.Assigns (t : Tree) (n : NodeId) (a : Assignment) : Prop :=
  ∃ column identifier, t.get? n = some (.setExpression column a.initializer) ∧
    t.get? column = some (.columnReference identifier) ∧ a.name = lastPart identifier

/-- A node assigns one thing. -/
theorem Tree.rightUnique_assigns (t : Tree) : Relator.RightUnique t.Assigns := by
  rintro n ⟨name, value⟩ ⟨name', value'⟩ ⟨column, identifier, hn, hcolumn, rfl⟩
    ⟨column', identifier', hn', hcolumn', rfl⟩
  simp only [hn, Option.some.injEq, Node.setExpression.injEq] at hn'
  obtain ⟨rfl, rfl⟩ := hn'
  simp only [hcolumn, Option.some.injEq, Node.columnReference.injEq] at hcolumn'
  rw [hcolumn']

/-- An assignment is the first one to a name. -/
def FirstTo (assignments : List Assignment) (name : String) (i : Nat) (a : Assignment) : Prop :=
  assignments[i]? = some a ∧ sameName a.name name ∧
    ∀ j < i, ∀ b, assignments[j]? = some b → ¬ sameName b.name name

namespace Transfer

variable {tree : Tree} {bindings : Bindings} {n target : NodeId} {nodes : List NodeId}

/-- A node has an assigned field if it assigns something. -/
theorem assignedField_eq_ok_iff {f : Field} :
    assignedField tree bindings n = .ok f ↔
      ∃ a, tree.Assigns n a ∧ f = a.field tree bindings := by
  constructor
  · intro h
    unfold assignedField at h
    split at h
    · rename_i column initializer hn
      split at h
      · rename_i identifier hcolumn
        exact ⟨⟨lastPart identifier, initializer⟩, ⟨column, identifier, hn, hcolumn, rfl⟩,
          (Except.ok.inj h).symm⟩
      · cases h
    · cases h
  · rintro ⟨⟨name, initializer⟩, ⟨column, identifier, hn, hcolumn, rfl⟩, rfl⟩
    simp only at hn
    simp only [assignedField, hn, hcolumn, Assignment.field]

/-- The assigned fields are those of what the nodes assign. -/
theorem forall₂_assignedField_iff {fields : List Field} :
    List.Forall₂ (fun n f => assignedField tree bindings n = .ok f) nodes fields ↔
      ∃ assignments, List.Forall₂ tree.Assigns nodes assignments ∧
        fields = assignments.map (Assignment.field tree bindings) := by
  constructor
  · intro h
    induction h with
    | nil => exact ⟨[], .nil, rfl⟩
    | cons hfirst _ ih =>
        obtain ⟨a, ha, rfl⟩ := assignedField_eq_ok_iff.1 hfirst
        obtain ⟨assignments, hassigns, rfl⟩ := ih
        exact ⟨a :: assignments, .cons ha hassigns, rfl⟩
  · rintro ⟨assignments, hassigns, rfl⟩
    rw [List.forall₂_map_right_iff]
    exact hassigns.imp fun n a ha => assignedField_eq_ok_iff.2 ⟨a, ha, rfl⟩

/-- Where each node assigns something, the assigned fields are made. -/
theorem mapM_assignedField {assignments : List Assignment}
    (h : List.Forall₂ tree.Assigns nodes assignments) :
    nodes.mapM (assignedField tree bindings) =
      .ok (assignments.map (Assignment.field tree bindings)) :=
  mapM_eq_ok_iff.2 (forall₂_assignedField_iff.2 ⟨assignments, h, rfl⟩)

/-- **Rules of a statement that changes rows.**  They are made if its target has a layout
and each of its nodes assigns something, and then there is one for each assignment, from
the row of the assigned values. -/
theorem updateRules_eq_ok_iff
    (hparts : (tree.get? n).bind updateParts? = some (some (target, nodes)))
    {rules : List PropertyRule} :
    updateRules tree bindings n = .ok rules ↔
      ∃ layout assignments, Layout.ofNode tree bindings target = .ok layout ∧
        List.Forall₂ tree.Assigns nodes assignments ∧
        List.Forall₂ (fun a rule => assigned layout (assignedLayout tree bindings assignments)
          (a.name, a.name) = .ok rule) assignments rules := by
  simp only [updateRules, hparts, bind, Except.bind]
  cases hlayout : Layout.ofNode tree bindings target with
  | error fault => simp
  | ok layout =>
      simp only [Except.ok.injEq, exists_and_left, exists_eq_left']
      cases hfields : nodes.mapM (assignedField tree bindings) with
      | error fault =>
          simp only [reduceCtorEq, false_iff]
          rintro ⟨assignments, hassigns, -⟩
          cases hfields.symm.trans (mapM_assignedField hassigns)
      | ok fields =>
          have hrules : ∀ assignments : List Assignment,
              Transfer.rules layout (assignedLayout tree bindings assignments)
                  (some ((assignments.map (Assignment.field tree bindings)).map
                    (fun f => (f.name, f.name)))) = .ok rules ↔
                List.Forall₂ (fun a rule => assigned layout
                  (assignedLayout tree bindings assignments) (a.name, a.name) = .ok rule)
                  assignments rules := by
            intro assignments
            rw [Transfer.rules, byAssignment, mapM_eq_ok_iff, List.map_map,
              List.forall₂_map_left_iff]
            rfl
          constructor
          · intro h
            obtain ⟨assignments, hassigns, rfl⟩ :=
              forall₂_assignedField_iff.1 (mapM_eq_ok_iff.1 hfields)
            exact ⟨assignments, hassigns, (hrules assignments).1 h⟩
          · rintro ⟨assignments, hassigns, h⟩
            obtain rfl := Except.ok.inj (hfields.symm.trans (mapM_assignedField hassigns))
            exact (hrules assignments).2 h

/-- **Sources by name.**  In the row of the assigned values a name stands for the value of
the first assignment to it. -/
theorem exists_property?_assignedLayout (tree : Tree) (bindings : Bindings)
    {assignments : List Assignment} {a : Assignment} {i : Nat} (ha : assignments[i]? = some a) :
    ∃ first ≤ i, ∃ b source, FirstTo assignments a.name first b ∧
      (assignedLayout tree bindings assignments).properties[first]? = some source ∧
      (assignedLayout tree bindings assignments).property? a.name = some source ∧
      source.type = (Typing.infer tree bindings b.initializer).type := by
  have hfield : ∀ {j : Nat} {b : Assignment}, assignments[j]? = some b →
      (assignments.map (Assignment.field tree bindings))[j]? = some (b.field tree bindings) := by
    intro j b hb
    rw [List.getElem?_map, hb, Option.map_some]
  have hname : ∀ b : Assignment, (b.field tree bindings).name = b.name := fun _ => rfl
  have hown : sameName (a.field tree bindings).name a.name := by
    rw [hname]
    exact beq_self_eq_true _
  obtain ⟨first, hle, g, start, hg, hsame, hearlier, hp, hproperty⟩ :=
    Layout.exists_property?_ofFields (hfield ha) hown
  rw [List.getElem?_map] at hg
  obtain ⟨b, hb, rfl⟩ := Option.map_eq_some_iff.1 hg
  rw [hname] at hsame
  refine ⟨first, hle, b, _, ⟨hb, hsame, fun j hj e he => ?_⟩, hp, hproperty, rfl⟩
  rw [← hname e]
  exact hearlier j hj _ (hfield he)

/-- **Assignments that have rules.**  The rules of a statement are made if its target has
each assigned property, and they fill these properties. -/
theorem exists_updateRules
    (hparts : (tree.get? n).bind updateParts? = some (some (target, nodes))) {layout : Layout}
    (hlayout : Layout.ofNode tree bindings target = .ok layout) {assignments : List Assignment}
    (hassigns : List.Forall₂ tree.Assigns nodes assignments)
    (hfound : ∀ a ∈ assignments, ∃ t, layout.property? a.name = some t) :
    ∃ rules, updateRules tree bindings n = .ok rules ∧
      List.Forall₂ (fun a rule => layout.property? a.name = some rule.target ∧
        rule.columns.map ColumnRule.target = rule.target.columns) assignments rules := by
  obtain ⟨rules, hrules⟩ : ∃ rules, List.Forall₂ (fun a rule => assigned layout
      (assignedLayout tree bindings assignments) (a.name, a.name) = .ok rule)
      assignments rules := by
    refine exists_forall₂ fun a ha => ?_
    obtain ⟨t, ht⟩ := hfound a ha
    obtain ⟨i, hi⟩ := List.mem_iff_getElem?.1 ha
    obtain ⟨-, -, -, source, -, -, hsource, -⟩ := exists_property?_assignedLayout tree bindings hi
    exact ⟨_, assigned_eq_ok_iff.2 ⟨t, source, ht, hsource, rfl⟩⟩
  refine ⟨rules, (updateRules_eq_ok_iff hparts).2 ⟨layout, assignments, hlayout, hassigns, hrules⟩,
    hrules.imp fun a rule hmade => ?_⟩
  obtain ⟨t, s, ht, -, rfl⟩ := assigned_eq_ok_iff.1 hmade
  exact ⟨ht, targets_propertyRule t (some s)⟩

/-- **A value of one name.**  A statement that changes rows has a rule for each of its
assignments, in their order.  The source of a rule is the property of the assigned values
that stands in the place of the first assignment to the same name.  It has the type of
the value that is assigned there, and all columns that the rule copies are its columns.
So a rule copies the value of its own assignment if no earlier one is to the same name in
whatever case, and otherwise that of the first. -/
theorem rules_take_first_assignment_to_name {rules : List PropertyRule}
    (hparts : (tree.get? n).bind updateParts? = some (some (target, nodes)))
    (hrules : updateRules tree bindings n = .ok rules) :
    ∃ assignments, List.Forall₂ tree.Assigns nodes assignments ∧
      rules.length = assignments.length ∧
      ∀ i rule a, rules[i]? = some rule → assignments[i]? = some a →
        ∃ first ≤ i, ∃ b source, FirstTo assignments a.name first b ∧
          (FirstTo assignments a.name i a → first = i) ∧
          (assignedLayout tree bindings assignments).properties[first]? = some source ∧
          rule.source = some source ∧
          source.type = (Typing.infer tree bindings b.initializer).type ∧
          ∀ c ∈ rule.columns, ∀ column, c.source = .column column →
            column ∈ source.columns ∧ column.purpose = c.target.purpose := by
  obtain ⟨layout, assignments, -, hassigns, hassigned⟩ := (updateRules_eq_ok_iff hparts).1 hrules
  refine ⟨assignments, hassigns, hassigned.length_eq.symm, fun i rule a hrule ha => ?_⟩
  obtain ⟨rule', hrule', hmade⟩ := exists_getElem?_of_forall₂ hassigned ha
  obtain rfl : rule' = rule := Option.some.inj (hrule'.symm.trans hrule)
  obtain ⟨t, s, -, hs, rfl⟩ := assigned_eq_ok_iff.1 hmade
  obtain ⟨first, hle, b, source, hfirst, hp, hsource, htype⟩ :=
    exists_property?_assignedLayout tree bindings ha
  obtain rfl : source = s := Option.some.inj (hsource.symm.trans hs)
  refine ⟨first, hle, b, source, hfirst, fun hown => ?_, hp, rfl, htype, fun c hc column hcopied => ?_⟩
  · obtain ⟨hb, hsame, -⟩ := hfirst
    by_contra hne
    exact hown.2.2 first (Nat.lt_of_le_of_ne hle hne) b hb hsame
  · obtain ⟨-, hcolumn⟩ := mem_columns_propertyRule.1 hc
    obtain ⟨_, ⟨⟩, -, hfound⟩ := columnSource_eq_column_iff.1 (hcolumn.symm.trans hcopied)
    exact PropertyLayout.mem_of_column? hfound

end Transfer

/-- A schema object with a text and a number. -/
def notesDefinition : Definition :=
  ⟨12, "Notes", "t_notes",
    [.ofType "Text" "c_text" (.ofKind .string), .ofType "Total" "c_total" (.ofKind .numeric)]⟩

/-- A script that assigns a number and a total, and then a text under the name of the
number. -/
def lateText : Tree :=
  ⟨#[.tableReference "Notes" none,
    .columnReference "Text", .scalarLiteral .number "1", .setExpression 1 2,
    .columnReference "Total", .scalarLiteral .number "5", .setExpression 4 5,
    .columnReference "TEXT", .scalarLiteral .string "late", .setExpression 7 8,
    .update { target := 0, assignments := [3, 6, 9] }, .script [10]]⟩

/-- The bindings of its target. -/
def lateTextBindings : Bindings :=
  Directory.empty.insert 0 (.table (.entity notesDefinition))

/-- What it assigns. -/
theorem lateText_assigns {assignments : List Assignment}
    (h : List.Forall₂ lateText.Assigns [3, 6, 9] assignments) :
    assignments = [⟨"Text", 2⟩, ⟨"Total", 5⟩, ⟨"TEXT", 8⟩] := by
  have hknown : List.Forall₂ lateText.Assigns [3, 6, 9]
      [⟨"Text", 2⟩, ⟨"Total", 5⟩, ⟨"TEXT", 8⟩] :=
    .cons ⟨1, "Text", rfl, rfl, by decide +kernel⟩
      (.cons ⟨4, "Total", rfl, rfl, by decide +kernel⟩
        (.cons ⟨7, "TEXT", rfl, rfl, by decide +kernel⟩ .nil))
  exact List.right_unique_forall₂' lateText.rightUnique_assigns h hknown

/-- The rule of the text has the number as its source. -/
theorem rules_of_lateText :
    (lateText.get? 10).bind Transfer.updateParts? = some (some (0, [3, 6, 9])) ∧
      ∃ rules, Transfer.updateRules lateText lateTextBindings 10 = .ok rules ∧
        rules.length = 3 ∧ ∀ rule, rules[2]? = some rule → ∃ source, rule.source = some source ∧
          source.type = (Typing.infer lateText lateTextBindings 2).type := by
  have hparts : (lateText.get? 10).bind Transfer.updateParts? = some (some (0, [3, 6, 9])) := rfl
  obtain ⟨rules, hrules⟩ :
      ∃ rules, Transfer.updateRules lateText lateTextBindings 10 = .ok rules := ⟨_, rfl⟩
  obtain ⟨assignments, hassigns, hlength, hsources⟩ :=
    Transfer.rules_take_first_assignment_to_name hparts hrules
  obtain rfl := lateText_assigns hassigns
  refine ⟨hparts, rules, hrules, hlength, fun rule hrule => ?_⟩
  obtain ⟨first, -, b, source, ⟨hb, -, hearlier⟩, -, -, hsource, htype, -⟩ :=
    hsources 2 rule ⟨"TEXT", 8⟩ hrule rfl
  have hsame : sameName "Text" "TEXT" := by decide +kernel
  have hfirst : first = 0 := by
    by_contra hne
    exact hearlier 0 (Nat.pos_of_ne_zero hne) ⟨"Text", 2⟩ rfl hsame
  subst hfirst
  obtain rfl := Option.some.inj hb
  exact ⟨source, hsource, htype⟩

/-- A text is assigned last, and its rule has a number for its source, so the text is not
copied and the column takes its default. -/
theorem late_text_is_not_copied :
    lateText.Assigns 9 ⟨"TEXT", 8⟩ ∧
      (Typing.infer lateText lateTextBindings 8).type = .ofKind .string ∧
      ∃ rules rule source, Transfer.updateRules lateText lateTextBindings 10 = .ok rules ∧
        rules[2]? = some rule ∧ rule.source = some source ∧ source.type = .ofKind .numeric ∧
        rule.columns.map ColumnRule.source = [.default .string] := by
  refine ⟨⟨7, "TEXT", rfl, rfl, by decide +kernel⟩, by decide +kernel, _, _, _, rfl, rfl, rfl, ?_, ?_⟩
  · decide +kernel
  · decide +kernel

end UnionScript
