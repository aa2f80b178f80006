import Mathlib.Data.List.Forall2
import UnionScript.Proofs.BoundScript.Meaning
import UnionScript.Proofs.BoundScript.References
import UnionScript.Proofs.Transfer.Coverage
import UnionScript.Proofs.Walk.Success
import UnionScript.Transfer.Statement

/-!
# Rows of one table are added to another

The plainest script that adds rows selects properties of one table under an alias
and adds them to another table.  Its names are all found, and every property of
the target that is selected with the type that it has is copied column by column,
while one that is not selected takes its defaults.

* `InsertSelect` — such a script in a tree;
* `InsertSelect.exists_run` — the walk over it ends with its references bound;
* `InsertSelect.layout_block` — the selected rows are laid out as the properties
  that are selected;
* `Fills` — how a property of the target is to be filled.

Main statement: `selected_properties_are_copied`.
-/

namespace UnionScript

/-- A column that is projected under its own name: the node of the projection, the
reference in it, and the name. -/
structure PlainColumn where
  node : NodeId
  reference : NodeId
  name : String

/-- A script that adds rows of a table to another: it selects columns of the table
under an alias, each under its own name. -/
structure InsertSelect (tree : Tree) where
  root : NodeId
  statement : NodeId
  target : NodeId
  targetName : String
  block : NodeId
  table : NodeId
  tableName : String
  aliasName : String
  columns : List PlainColumn
  get_root : tree.get? root = some (.script [statement])
  get_statement : tree.get? statement = some (.insert { target, source := block })
  get_target : tree.get? target = some (.tableReference targetName none)
  get_block : tree.get? block =
    some (.selectExpression { columns := columns.map PlainColumn.node, source := some table })
  get_table : tree.get? table = some (.tableReference tableName (some aliasName))
  get_column : ∀ c ∈ columns, tree.get? c.node = some (.columnExpression c.reference none)
  get_reference : ∀ c ∈ columns,
    tree.get? c.reference = some (.columnReference (aliasName ++ "." ++ c.name))

namespace Definition

variable {d : Definition}

/-- No property is repeated if no two have one name and none is among those seen
before. -/
theorem firstRepeated?_eq_none_iff {seen : List String} {properties : List Property} :
    firstRepeated? seen properties = none ↔
      (properties.map (fun p => nameKey p.name)).Nodup ∧
        ∀ p ∈ properties, nameKey p.name ∉ seen := by
  induction properties generalizing seen with
  | nil => simp [firstRepeated?]
  | cons p rest ih =>
      rw [firstRepeated?]
      split
      · rename_i hseen
        simp [hseen]
      · rename_i hseen
        rw [ih, List.map_cons, List.nodup_cons, List.forall_mem_cons]
        simp only [List.mem_map, List.mem_cons, not_or, not_exists, not_and]
        constructor
        · rintro ⟨hnodup, hrest⟩
          exact ⟨⟨fun q hq => (hrest q hq).1, hnodup⟩, hseen, fun q hq => (hrest q hq).2⟩
        · rintro ⟨⟨hne, hnodup⟩, -, hrest⟩
          exact ⟨hnodup, fun q hq => ⟨hne q hq, hrest q hq⟩⟩

/-- A well-formed object has one property of a name. -/
theorem eq_of_sameName (hd : d.fault? = none) {p q : Property} (hp : p ∈ d.properties)
    (hq : q ∈ d.properties) (hname : sameName p.name q.name) : p = q := by
  have hrepeated : firstRepeated? [] d.properties = none := by
    unfold fault? at hd
    split at hd
    · cases hd
    · exact Option.map_eq_none_iff.1 hd
  have hnodup := (firstRepeated?_eq_none_iff.1 hrepeated).1
  exact List.inj_on_of_nodup_map hnodup hp hq (beq_iff_eq.1 hname)

/-- Its properties are found under their names. -/
theorem exists_indexOf? (hd : d.fault? = none) {p : Property} (hp : p ∈ d.properties) :
    ∃ k, d.indexOf? p.name = some k ∧ d.properties[k]? = some p := by
  have hsome : (d.indexOf? p.name).isSome := by
    rw [indexOf?, List.findIdx?_isSome, List.any_eq_true]
    exact ⟨p, hp, beq_self_eq_true _⟩
  obtain ⟨k, hk⟩ := Option.isSome_iff_exists.1 hsome
  obtain ⟨⟨q, hq, hname⟩, -⟩ := firstAt_of_indexOf? hk
  obtain rfl := eq_of_sameName hd (List.mem_of_getElem? hq) hp hname
  exact ⟨k, hk, hq⟩

end Definition

namespace Walk

variable {tree : Tree} {limit depth : Nat} {n : NodeId}

theorem steps_tableReference {name : String} {aliasName : Option String}
    (hn : tree.get? n = some (.tableReference name aliasName)) :
    steps tree limit (depth + 1) n = [.useTable n name (aliasName.getD name)] := by
  rw [steps_eq_flatMap hn]
  simp [nodeStages, stageSteps, stageParts, expand]

/-- A reference that is projected as it is. -/
theorem steps_columnExpression {e : NodeId} {aliasName : Option String} {identifier : String}
    (hn : tree.get? n = some (.columnExpression e aliasName))
    (he : tree.get? e = some (.columnReference identifier)) :
    steps tree limit (depth + 2) n = [.useColumn e identifier] := by
  rw [steps_eq_flatMap hn]
  simp [nodeStages, stageSteps, stageParts, expand, steps_eq_flatMap he]

/-- A statement that adds the rows of a query. -/
theorem steps_insert {target source : NodeId}
    (hn : tree.get? n = some (.insert { target, source })) :
    steps tree limit (depth + 1) n =
      .enter n .insert false :: ((steps tree limit depth target ++
        querySteps tree (steps tree limit depth) (queryFuel tree) false source) ++ [.leave]) := by
  rw [steps_eq_flatMap hn, nodeStages, flatMap_inScope]
  simp [visitOption, stageSteps, stageParts, expand]

/-- A block in the place of a query. -/
theorem querySteps_block {visit : NodeId → List Step} {fuel : Nat} {correlated : Bool}
    {b : SelectExpression} (hn : tree.get? n = some (.selectExpression b)) :
    querySteps tree visit (fuel + 1) correlated n =
      .enter n .selectExpression correlated ::
        ((blockBody b).flatMap (fun stage =>
          (stageParts tree n stage).flatMap (expand visit (querySteps tree visit fuel))) ++
            [.leave]) := by
  rw [querySteps, queryParts, queryStages, hn, ← List.flatMap_assoc]
  exact inScope_steps ..

end Walk

/-- The step that resolves a column of the table under an alias. -/
def PlainColumn.step (aliasName : String) (c : PlainColumn) : Step :=
  .useColumn c.reference (aliasName ++ "." ++ c.name)

namespace Walk

variable {s : Surroundings} {p : Progress}

/-- **Columns of the only table.**  References to columns that the table has are
bound to them, one after the other.  A node may stand in several places: its name
says what it is bound to. -/
theorem exists_run_columns {columns : List PlainColumn} {aliasName : String}
    {target : AliasTarget} (halias : '.' ∉ aliasName.toList)
    (hget : ∀ c ∈ columns,
      s.tree.get? c.reference = some (.columnReference (aliasName ++ "." ++ c.name)))
    (hplain : ∀ c ∈ columns, '.' ∉ c.name.toList)
    (hfound : ∀ c ∈ columns, ∃ b, s.tree.columnOf? target.source c.name = some b)
    (hreads : p.scopes.Reads aliasName target) :
    ∃ q, run s (columns.map (PlainColumn.step aliasName)) p = .finished q ∧
      q.diagnostics = p.diagnostics ∧
      ∀ c ∈ columns, q.bindings.find? c.reference = s.tree.columnOf? target.source c.name := by
  induction columns generalizing p with
  | nil => exact ⟨p, rfl, rfl, by simp⟩
  | cons c rest ih =>
      rw [List.forall_mem_cons] at hget hplain hfound
      obtain ⟨b, hb⟩ := hfound.1
      obtain ⟨t, hstep, ht⟩ := Step.exists_useColumn c.reference halias hplain.1 hreads hb
      obtain ⟨q, hrun, hdiagnostics, hbound⟩ :=
        ih hget.2 hplain.2 hfound.2 (p := { p.bind c.reference b with scopes := t }) ht
      refine ⟨q, ?_, hdiagnostics, List.forall_mem_cons.2 ⟨?_, hbound⟩⟩
      · rw [List.map_cons, PlainColumn.step, run, hstep]
        exact hrun
      · by_cases hlater : ∃ c' ∈ rest, c'.reference = c.reference
        · -- The same reference once more: it has the same name.
          obtain ⟨c', hc', hsame⟩ := hlater
          have htext := hsame ▸ hget.2 c' hc'
          rw [hget.1] at htext
          have hname : c.name = c'.name := by simpa using htext
          rw [← hsame, hbound c' hc', hname]
        · have hnot : c.reference ∉ subjects (rest.map (PlainColumn.step aliasName)) := by
            intro hmem
            obtain ⟨step, hstep, hsubject⟩ := mem_subjects.1 hmem
            obtain ⟨c', hc', rfl⟩ := List.mem_map.1 hstep
            exact hlater ⟨c', hc', Option.some.inj hsubject⟩
          rw [run_find?_of_not_mem hrun hnot, hb]
          simp [Progress.bind]

end Walk

namespace InsertSelect

variable {s : Surroundings} (i : InsertSelect s.tree)

/-- The steps in the block. -/
def blockSteps : List Step :=
  .useTable i.table i.tableName i.aliasName :: i.columns.map (PlainColumn.step i.aliasName)

/-- The steps in the statement. -/
def statementSteps : List Step :=
  .useTable i.target i.targetName i.targetName ::
    .enter i.block .selectExpression false :: (i.blockSteps ++ [.leave])

theorem steps_columns (limit depth : Nat) :
    (i.columns.map PlainColumn.node).flatMap (Walk.steps s.tree limit (depth + 2)) =
      i.columns.map (PlainColumn.step i.aliasName) := by
  rw [List.flatMap_map, List.map_eq_flatMap]
  exact List.flatMap_congr fun c hc =>
    Walk.steps_columnExpression (i.get_column c hc) (i.get_reference c hc)

/-- The walk over the script. -/
theorem steps_root (limit depth : Nat) :
    Walk.steps s.tree limit (depth + 4) i.root =
      .enter i.root .script false ::
        ((.enter i.statement .insert false :: (i.statementSteps ++ [.leave])) ++ [.leave]) := by
  have hblock : Walk.querySteps s.tree (Walk.steps s.tree limit (depth + 2))
      (Walk.queryFuel s.tree) false i.block =
        .enter i.block .selectExpression false :: (i.blockSteps ++ [.leave]) := by
    rw [Walk.queryFuel, Walk.querySteps_block i.get_block, blockSteps, ← i.steps_columns limit depth]
    simp [Walk.blockBody, Walk.visitOption, Walk.visitAll, Walk.stageParts, Walk.expand,
      List.flatMap_map, Walk.steps_tableReference i.get_table]
  rw [Walk.steps_script i.get_root, List.flatMap_singleton, Walk.steps_insert i.get_statement,
    hblock, Walk.steps_tableReference i.get_target]
  rfl

theorem balanced_blockSteps : Walk.Balanced i.blockSteps := by
  refine Walk.balanced_of_quiet (List.forall_mem_cons.2 ⟨rfl, fun step hstep => ?_⟩)
  obtain ⟨c, -, rfl⟩ := List.mem_map.1 hstep
  rfl

theorem balanced_statementSteps : Walk.Balanced i.statementSteps :=
  .append (.step rfl) (.scope _ _ _ i.balanced_blockSteps)

section

variable {p : Progress} {target source : Definition}
  (htarget : s.provider.object i.targetName = .ok (some target))
  (hsource : s.provider.object i.tableName = .ok (some source))
  (halias : '.' ∉ i.aliasName.toList) (hplain : ∀ c ∈ i.columns, '.' ∉ c.name.toList)
  (hfound : ∀ c ∈ i.columns, ∃ k, source.indexOf? c.name = some k)

include hsource halias hplain hfound

/-- In its block the table is read and the columns are bound. -/
theorem exists_run_block {scope : Scope} (hbare : p.scopes.Bare)
    (hscope : p.scopes.currentScope? = some scope) (hempty : scope.aliases = .empty) :
    ∃ q, Walk.run s i.blockSteps p = .finished q ∧ q.diagnostics = p.diagnostics ∧
      q.bindings.find? i.target = p.bindings.find? i.target ∧
      ∀ c ∈ i.columns, q.bindings.find? c.reference =
        (source.indexOf? c.name).map (Binding.property source) := by
  obtain ⟨t, htable, ht⟩ :=
    Step.exists_useTable i.table i.aliasName (hbare.resolveTable_of_object hsource) hscope
  have hreads : t.Reads i.aliasName ⟨i.table, .entity source⟩ :=
    ⟨_, ht, by rw [Scope.addAlias, hempty]⟩
  obtain ⟨q, hrun, hdiagnostics, hbound⟩ := Walk.exists_run_columns halias i.get_reference hplain
    (fun c hc => by
      obtain ⟨k, hk⟩ := hfound c hc
      exact ⟨.property source k, by simp [Tree.columnOf?, TableSource.definition?, hk]⟩)
    (p := { p.bind i.table (.table (.entity source)) with scopes := t }) hreads
  have hblock : Walk.run s i.blockSteps p = .finished q := by
    rw [blockSteps, Walk.run, htable]
    exact hrun
  refine ⟨q, hblock, hdiagnostics, Walk.run_find?_of_not_mem hblock fun hmem => ?_, hbound⟩
  -- No other reference of the script stands where the target does.
  obtain ⟨step, hstep, hsubject⟩ := Walk.mem_subjects.1 hmem
  have hget := i.get_target
  rcases List.mem_cons.1 hstep with rfl | hstep
  · rw [← Option.some.inj hsubject, i.get_table] at hget
    simp at hget
  · obtain ⟨c, hc, rfl⟩ := List.mem_map.1 hstep
    rw [← Option.some.inj hsubject, i.get_reference c hc] at hget
    simp at hget

include htarget

/-- **The walk over the script** ends without a report.  The target is bound to its
object and each selected column to its property. -/
theorem exists_run (limit depth : Nat) :
    ∃ q, Walk.run s (Walk.steps s.tree limit (depth + 4) i.root) {} = .finished q ∧
      q.diagnostics = #[] ∧ q.bindings.find? i.target = some (.table (.entity target)) ∧
      ∀ c ∈ i.columns, q.bindings.find? c.reference =
        (source.indexOf? c.name).map (Binding.property source) := by
  obtain ⟨inScript, hscript, hbare, -⟩ := ScopeTree.bare_empty.exists_enter i.root .script
  obtain ⟨inStatement, hstatement, hbare, scope, hscope, -⟩ :=
    hbare.exists_enter i.statement .insert
  obtain ⟨t, htable, -⟩ := Step.exists_useTable i.target i.targetName
    (p := { scopes := inStatement }) (hbare.resolveTable_of_object htarget) hscope
  have hbare := Step.bare_of_perform hbare htable (by simp) (by simp) (by simp)
  obtain ⟨inBlock, hblock, hbare, scope, hscope, hempty⟩ :=
    hbare.exists_enter i.block .selectExpression
  obtain ⟨q, hrun, hdiagnostics, hkept, hbound⟩ :=
    i.exists_run_block hsource halias hplain hfound hbare hscope hempty
      (p := { Progress.bind {} i.target (.table (.entity target)) with scopes := inBlock })
  -- The three scopes are left again, and nothing is done in between.
  obtain ⟨t₁, hleft⟩ := Walk.run_scope i.balanced_blockSteps hblock hrun
  have hbody : Walk.run s i.statementSteps { scopes := inStatement } =
      .finished { q with scopes := t₁ } := by
    rw [statementSteps, Walk.run, htable]
    exact hleft
  obtain ⟨t₂, hleft⟩ :=
    Walk.run_scope i.balanced_statementSteps (p := { scopes := inScript }) hstatement hbody
  obtain ⟨t₃, hleft⟩ :=
    Walk.run_scope (.scope _ _ _ i.balanced_statementSteps) (p := {}) hscript hleft
  refine ⟨_, (congrArg (Walk.run s · {}) (i.steps_root limit depth)).trans hleft, hdiagnostics,
    hkept.trans ?_, hbound⟩
  simp [Progress.bind]

end

end InsertSelect

/-- The type and the name of a projected property. -/
theorem Typing.infer_of_property {tree : Tree} {bindings : Bindings} {n e : NodeId}
    {identifier : String} {d : Definition} {k : Nat} {property : Property}
    (hn : tree.get? n = some (.columnExpression e none))
    (he : tree.get? e = some (.columnReference identifier))
    (hbound : bindings.find? e = some (.property d k))
    (hk : d.properties[k]? = some property) :
    Typing.infer tree bindings n = { type := property.type, name := some property.name } := by
  have hreference : inferWithin tree bindings (255 + 1) e =
      some { type := property.type, name := some property.name } := by
    rw [inferWithin, he, Option.bind_some, node, hbound, Option.bind_some, column, hk]
    rfl
  have hcolumn : infer? tree bindings n =
      some { type := property.type, name := some property.name } := by
    rw [infer?, maxLinks, inferWithin, hn, Option.bind_some, node, hreference]
    rfl
  rw [infer, hcolumn, Option.getD_some]

/-- A property as it is laid out where it is projected. -/
def Property.projected (p : Property) : Field :=
  ⟨p.name, p.name, p.type⟩

namespace Layout

/-- Projected columns with the types and names of properties are laid out as these. -/
theorem ofProjection_eq {tree : Tree} {bindings : Bindings} {columns : List NodeId}
    {properties : List Property}
    (h : List.Forall₂ (fun n (p : Property) =>
      Typing.infer tree bindings n = { type := p.type, name := some p.name }) columns properties) :
    ofProjection tree bindings columns = ofFields (properties.map Property.projected) := by
  have hfields : ∀ start,
      (columns.zipIdx start).map (fun c => projectedField tree bindings c.1 c.2) =
        properties.map Property.projected := by
    induction h with
    | nil =>
        intro start
        rfl
    | cons hinfer _ ih =>
        intro start
        rw [List.zipIdx_cons, List.map_cons, List.map_cons, ih]
        simp [projectedField, hinfer, Property.projected]
  rw [ofProjection, hfields]

end Layout

namespace Transfer

/-- How a property of a target is filled from selected properties.  One that is
selected under its name and with its type is copied, each column from the column
with the same purpose; one that is not selected takes the defaults. -/
structure Fills (selected : List Property) (property : Property) (rule : PropertyRule) : Prop where
  name : rule.target.name = property.name
  targets : rule.columns.map ColumnRule.target = rule.target.columns
  copied : ∀ p ∈ selected, sameName p.name property.name → p.type = property.type →
    ∃ source ∈ (Layout.ofFields (selected.map Property.projected)).properties,
      source.name = p.name ∧ source.type = p.type ∧ rule.source = some source ∧
        ∀ c ∈ rule.columns, ∃ column ∈ source.columns,
          c.source = .column column ∧ column.purpose = c.target.purpose
  missing : (∀ p ∈ selected, sameName p.name property.name = false) →
    rule.source = none ∧
      ∀ c ∈ rule.columns, c.source.literal? = some c.target.purpose.defaultLiteral

/-- Properties of a well-formed object are filled from as they should be. -/
theorem fills_propertyRule {d : Definition} (hd : d.fault? = none) {selected : List Property}
    (hselected : ∀ p ∈ selected, p ∈ d.properties)
    (hdefined : ∀ p ∈ selected, p.type.isUndefined = false) (property : Property) (start : Nat) :
    Fills selected property
      (propertyRule (Field.layout ⟨property.name, property.column, property.type⟩ start)
        ((Layout.ofFields (selected.map Property.projected)).property? property.name)) where
  name := rfl
  targets := targets_propertyRule _ _
  copied p hp hname htype := by
    cases hfound : (Layout.ofFields (selected.map Property.projected)).property? property.name with
    | none =>
        have hnone := Layout.property?_ofFields_eq_none_iff.1 hfound p.projected
          (List.mem_map.2 ⟨p, hp, rfl⟩)
        cases hname.symm.trans hnone
    | some source =>
        have hfirst := Layout.property?_eq_some_iff.1 hfound
        obtain ⟨f, hf, start', hsource⟩ := Layout.exists_field_of_mem_place hfirst.mem
        obtain ⟨q, hq, rfl⟩ := List.mem_map.1 hf
        -- Whatever is selected under this name is the same property.
        obtain rfl : q = p := by
          refine Definition.eq_of_sameName hd (hselected q hq) (hselected p hp) ?_
          have hfirst := hsource ▸ hfirst.1
          simp only [sameName, beq_iff_eq] at hfirst hname ⊢
          exact hfirst.trans hname.symm
        refine ⟨source, hfirst.mem, by rw [hsource]; rfl, by rw [hsource]; rfl, rfl, ?_⟩
        refine all_copied (Field.laid_layout _ _) (hsource ▸ Field.laid_layout _ _) ?_ ?_
        · rw [hsource]
          exact htype
        · rw [hsource]
          exact hdefined q hq
  missing hmissing := by
    have hnone : (Layout.ofFields (selected.map Property.projected)).property? property.name =
        none :=
      Layout.property?_ofFields_eq_none_iff.2 (List.forall_mem_map.2 hmissing)
    rw [hnone]
    exact ⟨rfl, fun c hc => ((columns_of_undefined _ (by simp)).2 c hc).2⟩

/-- All properties of an object are filled from selected ones in order. -/
theorem forall₂_fills {d : Definition} (hd : d.fault? = none) {selected : List Property}
    (hselected : ∀ p ∈ selected, p ∈ d.properties)
    (hdefined : ∀ p ∈ selected, p.type.isUndefined = false) (target : Definition) :
    List.Forall₂ (Fills selected) target.properties
      (byName (Layout.ofDefinition target)
        (Layout.ofFields (selected.map Property.projected))) := by
  have hplaced := Layout.forall₂_place
    (target.properties.map (fun p => ⟨p.name, p.column, p.type⟩)) 0
  rw [List.forall₂_map_left_iff] at hplaced
  rw [byName, List.forall₂_map_right_iff]
  refine hplaced.imp fun property p hp => ?_
  obtain ⟨start, rfl⟩ := hp
  exact fills_propertyRule hd hselected hdefined property start

end Transfer

namespace InsertSelect

variable {tree : Tree} (i : InsertSelect tree) {bindings : Bindings}

/-- The rows of the target are laid out by its object. -/
theorem layout_target {target : Definition}
    (h : bindings.find? i.target = some (.table (.entity target))) :
    Layout.ofNode tree bindings i.target = .ok (Layout.ofDefinition target) := by
  simp [Layout.ofNode, Layout.ofNodeWithin, RowSource.ofNode, i.get_target, h, Binding.table?,
    RowSource.ofTable]

/-- The selected rows are laid out as the selected properties. -/
theorem layout_block {source : Definition} {selected : List Property}
    (hvalid : source.fault? = none)
    (hnames : i.columns.map PlainColumn.name = selected.map Property.name)
    (hselected : ∀ p ∈ selected, p ∈ source.properties)
    (hbound : ∀ c ∈ i.columns, bindings.find? c.reference =
      (source.indexOf? c.name).map (Binding.property source)) :
    Layout.ofNode tree bindings i.block =
      .ok (Layout.ofFields (selected.map Property.projected)) := by
  have hblock : Layout.ofNode tree bindings i.block =
      .ok (Layout.ofProjection tree bindings (i.columns.map PlainColumn.node)) := by
    simp [Layout.ofNode, Layout.ofNodeWithin, RowSource.ofNode, i.get_block]
  have hpairs : List.Forall₂ (fun c p => PlainColumn.name c = Property.name p)
      i.columns selected := by
    rwa [← List.forall₂_eq_eq_eq, List.forall₂_map_left_iff, List.forall₂_map_right_iff] at hnames
  rw [hblock, Layout.ofProjection_eq]
  rw [List.forall₂_map_left_iff, List.forall₂_iff_zip]
  refine ⟨hpairs.length_eq, fun {c p} hmem => ?_⟩
  obtain ⟨hc, hp⟩ := List.of_mem_zip hmem
  obtain ⟨k, hindex, hk⟩ := Definition.exists_indexOf? hvalid (hselected p hp)
  have hproperty : bindings.find? c.reference = some (.property source k) := by
    rw [hbound c hc, List.forall₂_zip hpairs hmem, hindex, Option.map_some]
  exact Typing.infer_of_property (i.get_column c hc) (i.get_reference c hc) hproperty hk

/-- **Selected properties are copied.**  Let a script add properties of one object
of the catalog, selected under an alias, to another object or to the same.  Then
all its names are found.  Each property of the target is filled, in order: from a
selected property that has its name and its type, all columns are copied, each from
a column with the same purpose; where no property of its name is selected, it has
no source and its columns have the literals of their defaults.  Only the selected
object has to be well-formed, and a property may be selected repeatedly. -/
theorem selected_properties_are_copied {c : Catalog} {target source : Definition}
    {selected : List Property} (htarget : c.object? i.targetName = some target)
    (hsource : c.object? i.tableName = some source) (hvalid : source.fault? = none)
    (halias : '.' ∉ i.aliasName.toList)
    (hnames : i.columns.map PlainColumn.name = selected.map Property.name)
    (hselected : ∀ p ∈ selected, p ∈ source.properties ∧ '.' ∉ p.name.toList ∧
      p.type.isUndefined = false) :
    ∃ bound rules, bindScript {} tree c.toProvider i.root = .ok bound ∧
      bound.diagnostics = [] ∧
      Transfer.insertRules tree bound.bindings i.statement = .ok rules ∧
      rules.map PropertyRule.target = (Layout.ofDefinition target).properties ∧
      List.Forall₂ (Transfer.Fills selected) target.properties rules := by
  have hcolumns : ∀ c ∈ i.columns, ∃ p ∈ selected, p.name = c.name := by
    intro c hc
    have hmem : c.name ∈ i.columns.map PlainColumn.name := List.mem_map.2 ⟨c, hc, rfl⟩
    rw [hnames] at hmem
    exact List.mem_map.1 hmem
  have hplain : ∀ c ∈ i.columns, '.' ∉ c.name.toList := by
    intro c hc
    obtain ⟨p, hp, hname⟩ := hcolumns c hc
    exact hname ▸ (hselected p hp).2.1
  have hfound : ∀ c ∈ i.columns, ∃ k, source.indexOf? c.name = some k := by
    intro c hc
    obtain ⟨p, hp, hname⟩ := hcolumns c hc
    obtain ⟨k, hk, -⟩ := Definition.exists_indexOf? hvalid (hselected p hp).1
    exact ⟨k, hname ▸ hk⟩
  obtain ⟨q, hrun, hdiagnostics, hbound, hproperties⟩ :=
    exists_run (s := ⟨tree, c.toProvider, true⟩) i (congrArg Except.ok htarget)
      (congrArg Except.ok hsource) halias hplain hfound 256 252
  have hbind : bindScript {} tree c.toProvider i.root = .ok (.ofProgress q) := by
    rw [bindScript_eq_run]
    exact congrArg BoundScript.ofOutcome hrun
  have hrules : Transfer.insertRules tree q.bindings i.statement =
      .ok (Transfer.byName (Layout.ofDefinition target)
        (Layout.ofFields (selected.map Property.projected))) := by
    have hblock := i.layout_block hvalid hnames (fun p hp => (hselected p hp).1) hproperties
    simp [Transfer.insertRules, i.get_statement, Transfer.insertParts?, i.layout_target hbound,
      hblock, Transfer.rules, bind, Except.bind]
  refine ⟨_, _, hbind, ?_, hrules, ?_, ?_⟩
  · simp [BoundScript.ofProgress, hdiagnostics]
  · simp [Transfer.byName, Transfer.propertyRule, Function.comp_def]
  · exact Transfer.forall₂_fills hvalid (fun p hp => (hselected p hp).1)
      (fun p hp => (hselected p hp).2.2) target

end InsertSelect

/-- A schema object with a number, a union and a text. -/
def salesDefinition : Definition :=
  ⟨11, "Sales", "t_sales",
    [.ofType "Total" "c_total" (.ofKind .numeric),
      .ofType "Owner" "c_owner" (.ofKinds [.boolean, .entity]),
      .ofType "Code" "c_code" (.ofKind .string)]⟩

/-- One with the same union and number, and with another text between them. -/
def archiveDefinition : Definition :=
  ⟨12, "Archive", "t_archive",
    [.ofType "owner" "a_owner" (.ofKinds [.boolean, .entity]),
      .ofType "Note" "a_note" (.ofKind .string),
      .ofType "TOTAL" "a_total" (.ofKind .numeric)]⟩

/-- The catalog of both. -/
def salesCatalog : Catalog :=
  ⟨.ofList [("sales", salesDefinition), ("archive", archiveDefinition)], .empty⟩

/-- A script that adds totals and owners of sales to the archive. -/
def archivedSales : Tree :=
  ⟨#[.tableReference "archive" none, .tableReference "Sales" (some "s"),
    .columnReference "s.Total", .columnExpression 2 none,
    .columnReference "s.Owner", .columnExpression 4 none,
    .selectExpression { columns := [3, 5], source := some 1 },
    .insert { target := 0, source := 6 }, .script [7]]⟩

/-- The parts of the script. -/
def archivedSalesParts : InsertSelect archivedSales where
  root := 8
  statement := 7
  target := 0
  targetName := "archive"
  block := 6
  table := 1
  tableName := "Sales"
  aliasName := "s"
  columns := [⟨3, 2, "Total"⟩, ⟨5, 4, "Owner"⟩]
  get_root := rfl
  get_statement := rfl
  get_target := rfl
  get_block := rfl
  get_table := rfl
  get_column := by decide
  get_reference := by decide

/-- The union and the number are copied, and the text between them is not. -/
theorem archivedSales_are_copied :
    ∃ bound owner note total,
      bindScript {} archivedSales salesCatalog.toProvider 8 = .ok bound ∧
      bound.diagnostics = [] ∧
      Transfer.insertRules archivedSales bound.bindings 7 = .ok [owner, note, total] ∧
      (∀ c ∈ owner.columns ++ total.columns, ∃ column, c.source = .column column) ∧
      note.source = none ∧ ∀ c ∈ note.columns, c.source.literal? =
        some c.target.purpose.defaultLiteral := by
  have htarget : salesCatalog.object? "archive" = some archiveDefinition := by decide +kernel
  have hsource : salesCatalog.object? "Sales" = some salesDefinition := by decide +kernel
  have hnames : archivedSalesParts.columns.map PlainColumn.name =
      (salesDefinition.properties.take 2).map Property.name := by decide
  have hselected : ∀ p ∈ salesDefinition.properties.take 2, p ∈ salesDefinition.properties ∧
      '.' ∉ p.name.toList ∧ p.type.isUndefined = false := by decide +kernel
  obtain ⟨bound, rules, hbind, hdiagnostics, hrules, -, hfills⟩ :=
    archivedSalesParts.selected_properties_are_copied htarget hsource (by decide +kernel)
      (by decide) hnames hselected
  rcases hfills with _ | ⟨howner, _ | ⟨hnote, _ | ⟨htotal, _ | _⟩⟩⟩
  obtain ⟨source, -, -, -, -, hcopied⟩ := howner.copied
    (.ofType "Owner" "c_owner" (.ofKinds [.boolean, .entity])) (by decide +kernel)
    (by decide +kernel) rfl
  obtain ⟨source', -, -, -, -, hcopied'⟩ := htotal.copied
    (.ofType "Total" "c_total" (.ofKind .numeric)) (by decide +kernel) (by decide +kernel) rfl
  obtain ⟨hnone, hdefaults⟩ := hnote.missing (by decide +kernel)
  refine ⟨bound, _, _, _, hbind, hdiagnostics, hrules, fun c hc => ?_, hnone, hdefaults⟩
  rcases List.mem_append.1 hc with hc | hc
  · obtain ⟨column, -, hcolumn, -⟩ := hcopied c hc
    exact ⟨column, hcolumn⟩
  · obtain ⟨column, -, hcolumn, -⟩ := hcopied' c hc
    exact ⟨column, hcolumn⟩

end UnionScript
