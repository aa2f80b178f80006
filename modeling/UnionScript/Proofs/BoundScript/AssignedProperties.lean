import Mathlib.Data.List.Forall2
import UnionScript.Proofs.BoundScript.Meaning
import UnionScript.Proofs.BoundScript.Tables
import UnionScript.Proofs.Transfer.Assignments
import UnionScript.Proofs.Walk.Precedence
import UnionScript.Proofs.Walk.Segment
import UnionScript.Proofs.Walk.Targets

/-!
# Assigned properties

A statement that changes rows names the properties that it assigns twice over: binding
looks them up in the table under assignment, and the rules of the statement look them up
in the layout of its target.  Both find the same property.

* `Walk.find?_of_assign` — a column that is assigned is bound to what the table of the
  statement has under its name, however deep the statement is nested;
* `Layout.property?_ofDefinition` — a schema object and its layout agree on names.

Main statement: `assigned_properties_are_those_bound`.
-/

namespace UnionScript

namespace Walk

/-- A statement that changes rows goes through its assignments. -/
theorem nodeStages_of_updateParts? {x : Node} {target : NodeId} {nodes : List NodeId}
    (h : Transfer.updateParts? x = some (some (target, nodes))) (n : NodeId) :
    x.kind.isItem ∧ ∃ first second,
      nodeStages n x = first ++ (assignments target nodes ++ second) := by
  cases x <;> simp only [Transfer.updateParts?, reduceCtorEq, Option.some.injEq] at h
  case update s =>
    obtain ⟨rfl, rfl⟩ := Prod.mk.inj h
    refine ⟨rfl, .own (.enter n .update false) :: (visitOption s.commonTables ++
      .visit s.target :: visitOption s.source),
      visitOption s.condition ++ (visitOption s.output ++ [.own .leave]), ?_⟩
    simp [nodeStages, inScope]
  case upsert s =>
    split at h
    · cases h
    · obtain ⟨rfl, rfl⟩ := Prod.mk.inj (Option.some.inj h)
      refine ⟨rfl, .own (.enter n .upsert false) :: (visitOption s.commonTables ++
        .visit s.target :: .visit s.source :: visitOption s.condition), [.own .leave], ?_⟩
      simp [nodeStages, inScope]

variable {s : Surroundings} {p q : Progress}

/-- A column that is assigned is bound to what the table under assignment has under its
name. -/
theorem find?_of_setColumn {n : NodeId} {identifier : String}
    (h : (Step.setColumn n identifier).perform s p = .finished q)
    (hfresh : p.bindings.find? n = none) :
    q.bindings.find? n = p.targets.head?.join.bind (s.tree.columnOf? · (lastPart identifier)) := by
  simp only [Step.perform] at h
  split at h
  · rename_i binding hbinding
    cases h
    rw [hbinding]
    exact Directory.find?_insert_self _ _ _
  · rename_i hnone
    cases h
    rw [hnone]
    exact hfresh

section

variable {root n target : NodeId} {nodes : List NodeId} {x : Node} {l : List Step}
  (hspells : Spells s.tree root (.visit root) l) (hlegal : Legal l)
  (hreach : s.tree.Reaches root n) (hx : s.tree.get? n = some x)
  (hparts : Transfer.updateParts? x = some (some (target, nodes)))

include hspells hlegal hreach hx hparts

/-- **The step about an assigned column.**  It comes after the assignments of its
statement begin. -/
theorem exists_split_of_assign {node : NodeId} (hnode : node ∈ nodes) :
    ∃ column initializer name done between rest,
      s.tree.get? node = some (.setExpression column initializer) ∧
      s.tree.get? column = some (.columnReference name) ∧
      l = done ++ .beginSet target :: (between ++ .setColumn column name :: rest) ∧
      Paired between := by
  obtain ⟨hitem, first, second, hstages⟩ := nodeStages_of_updateParts? hparts n
  obtain ⟨word, hword, hinfix⟩ := hspells.holds hlegal rfl hreach hx
    (NodeKind.keepsStages_of_isItem hitem)
  rw [hstages] at hword hinfix
  have hpart : (assignments target nodes).flatMap word <:+: l := by
    refine List.IsInfix.trans ⟨first.flatMap word, second.flatMap word, ?_⟩ hinfix
    simp only [List.flatMap_append, List.append_assoc]
  obtain ⟨column, initializer, name, between, rest, hset, hcolumn, hsplit, hpaired⟩ :=
    exists_split_of_assignments (fun stage hmem => hword stage (by simp [hmem]))
      (fun fault hfault => hlegal fault (hpart.subset hfault)) hnode
  obtain ⟨before, after, rfl⟩ := hpart
  refine ⟨column, initializer, name, before, between, rest ++ after, hset, hcolumn, ?_, hpaired⟩
  simp [hsplit]

/-- **Assigned columns.**  A column that is assigned is bound to what the table of the
statement has under its name. -/
theorem find?_of_assign (hshape : s.tree.TreeShaped) (hrun : run s l {} = .finished q)
    {identifier : String} {aliasName : Option String} {source : TableSource}
    (htarget : s.tree.get? target = some (.tableReference identifier aliasName))
    (hsource : q.bindings.find? target = some (.table source)) {node : NodeId}
    (hnode : node ∈ nodes) :
    ∃ column initializer name, s.tree.get? node = some (.setExpression column initializer) ∧
      s.tree.get? column = some (.columnReference name) ∧
      q.bindings.find? column = s.tree.columnOf? source (lastPart name) := by
  obtain ⟨column, initializer, name, done, between, rest, hset, hcolumn, rfl, hpaired⟩ :=
    exists_split_of_assign hspells hlegal hreach hx hparts hnode
  have hnodup := (hspells.covers hlegal rfl).nodup hshape
  obtain ⟨p₁, hdone, hrest⟩ := run_append_eq_finished hrun
  obtain ⟨p₂, hbegin, hrest'⟩ := run_cons_eq_finished hrest
  obtain ⟨p₃, hbetween, hlast⟩ := run_append_eq_finished hrest'
  obtain ⟨p₄, hstep, hend⟩ := run_cons_eq_finished hlast
  -- The table of the statement was visited before and is not bound again.
  have hfinished := hspells.needs_finished
    (fun fault hfault => hlegal fault (List.mem_append_left _ hfault)) (c := target) rfl
  have htable : p₁.bindings.find? target = some (.table source) := by
    have hmem := hfinished target _ Relation.ReflTransGen.refl htarget rfl
    have hnew : target ∉ subjects
        (.beginSet target :: (between ++ .setColumn column name :: rest)) :=
      not_mem_subjects_of_nodup hnodup hmem
    rw [← run_find?_of_not_mem hrest hnew, hsource]
  have htargets : p₃.targets.head?.join = some source := by
    cases hbegin
    rw [hpaired.targets hbetween]
    simp [Progress.table?, htable, Binding.table?]
  have hbefore : run s (done ++ .beginSet target :: between) {} = .finished p₃ := by
    simp [run_append, hdone, run, hbegin, hbetween, Outcome.andThen]
  have hsplit : done ++ .beginSet target :: (between ++ .setColumn column name :: rest) =
      (done ++ .beginSet target :: between) ++ ([.setColumn column name] ++ rest) := by simp
  rw [hsplit] at hnodup
  obtain ⟨hfresh, hkept⟩ := run_frame hnodup hbefore hend (List.mem_singleton_self column)
  refine ⟨column, initializer, name, hset, hcolumn, ?_⟩
  rw [hkept, find?_of_setColumn hstep hfresh, htargets, Option.bind_some]

end

end Walk

namespace Layout

/-- A table reference has the layout of the schema object that it is bound to. -/
theorem ofNode_of_definition? {tree : Tree} {bindings : Bindings} {n : NodeId}
    {identifier : String} {aliasName : Option String} {source : TableSource} {d : Definition}
    (hn : tree.get? n = some (.tableReference identifier aliasName))
    (hsource : bindings.find? n = some (.table source)) (hd : source.definition? = some d) :
    ofNode tree bindings n = .ok (ofDefinition d) := by
  have hrows : RowSource.ofTable source = .object d := by
    cases source <;> cases hd <;> rfl
  simp [ofNode, ofNodeWithin, RowSource.ofNode, hn, hsource, Binding.table?, hrows]

/-- **One property under one name.**  In its layout a schema object has the property in
the place where it has it itself. -/
theorem property?_ofDefinition {d : Definition} {name : String} {k : Nat}
    (h : d.indexOf? name = some k) :
    ∃ property start, d.properties[k]? = some property ∧
      (ofDefinition d).properties[k]? =
        some (Field.layout ⟨property.name, property.column, property.type⟩ start) ∧
      (ofDefinition d).property? name =
        some (Field.layout ⟨property.name, property.column, property.type⟩ start) := by
  obtain ⟨⟨property, hproperty, -⟩, -⟩ := Definition.firstAt_of_indexOf? h
  have hfield : (d.properties.map (fun p => (⟨p.name, p.column, p.type⟩ : Field)))[k]? =
      some ⟨property.name, property.column, property.type⟩ := by
    rw [List.getElem?_map, hproperty, Option.map_some]
  obtain ⟨start, hplace⟩ := getElem?_place hfield 0
  refine ⟨property, start, hproperty, hplace, ?_⟩
  have hindex : (d.properties.map (fun p => (⟨p.name, p.column, p.type⟩ : Field))).findIdx?
      (fun f => sameName f.name name) = some k := by
    rw [List.findIdx?_map]
    exact h
  rw [ofDefinition, property?_ofFields, hindex]
  exact hplace

end Layout

section

variable {config : Config} {tree : Tree} {provider : Provider} {root n target : NodeId}
  {bound : BoundScript} {x : Node} {nodes : List NodeId} {identifier : String}
  {aliasName : Option String} {source : TableSource} {d : Definition}

/-- Where nothing is reported, each assigned column is bound to a property of the schema
object under assignment, the first one of its name. -/
theorem exists_property_of_assign (hshape : tree.TreeShaped)
    (hbind : bindScript config tree provider root = .ok bound) (hsuccess : bound.diagnostics = [])
    (hreach : tree.Reaches root n) (hx : tree.get? n = some x)
    (hparts : Transfer.updateParts? x = some (some (target, nodes)))
    (htarget : tree.get? target = some (.tableReference identifier aliasName))
    (hsource : bound.bindings.find? target = some (.table source))
    (hd : source.definition? = some d) {node : NodeId} (hnode : node ∈ nodes) :
    ∃ a column k, tree.Assigns node a ∧ tree.get? node = some (.setExpression column a.initializer) ∧
      bound.bindings.find? column = some (.property d k) ∧ d.indexOf? a.name = some k := by
  obtain ⟨q, hrun, rfl⟩ := exists_run_of_bindScript hbind (by simp [hsuccess])
  have hspells : Walk.Spells tree root _ _ := Walk.walk_spells config.maxDepth root
  have hlegal := Walk.legal_of_run hrun
  obtain ⟨column, initializer, name, hset, hcolumn, hfound⟩ :=
    Walk.find?_of_assign (s := ⟨tree, provider, config.strict⟩) hspells hlegal hreach hx hparts
      hshape hrun htarget hsource hnode
  -- The column is not reported, so it has a binding.
  have hbelow : tree.Reaches root column := by
    have hchild : node ∈ x.children := by
      cases x <;> simp only [Transfer.updateParts?, reduceCtorEq, Option.some.injEq] at hparts
      case update s =>
        obtain ⟨rfl, rfl⟩ := Prod.mk.inj hparts
        simp [Node.children, hnode]
      case upsert s =>
        split at hparts
        · cases hparts
        · obtain ⟨rfl, rfl⟩ := Prod.mk.inj (Option.some.inj hparts)
          simp [Node.children, hnode]
    exact (hreach.tail ⟨x, hx, hchild⟩).tail ⟨_, hset, by simp [Node.children]⟩
  have hsome := Walk.isSome_find?_of_success hrun hspells hshape hsuccess hbelow
    ⟨_, _, .columnName hcolumn⟩
  have hindexed : q.bindings.find? column = (d.indexOf? (lastPart name)).map (.property d) := by
    rw [hfound, Tree.columnOf?, hd]
  obtain ⟨k, hk⟩ : ∃ k, d.indexOf? (lastPart name) = some k := by
    rw [hindexed, Option.isSome_map] at hsome
    exact Option.isSome_iff_exists.1 hsome
  refine ⟨⟨lastPart name, initializer⟩, column, k, ⟨column, name, hset, hcolumn, rfl⟩, hset, ?_, hk⟩
  exact hindexed.trans (by rw [hk, Option.map_some])

/-- **Assigned properties.**  A tree-shaped script is bound without a report, and it has a
statement that changes rows of a schema object or of a record parameter, anywhere in it.
Then the rules of the statement can be made, one for each of its assignments and in their
order.  Each rule fills the very property that the assigned column is bound to, in the
same place of the object, with all columns of that property. -/
theorem assigned_properties_are_those_bound (hshape : tree.TreeShaped)
    (hbind : bindScript config tree provider root = .ok bound) (hsuccess : bound.diagnostics = [])
    (hreach : tree.Reaches root n) (hx : tree.get? n = some x)
    (hparts : Transfer.updateParts? x = some (some (target, nodes)))
    (htarget : tree.get? target = some (.tableReference identifier aliasName))
    (hsource : bound.bindings.find? target = some (.table source))
    (hd : source.definition? = some d) :
    ∃ rules, Transfer.updateRules tree bound.bindings n = .ok rules ∧
      rules.length = nodes.length ∧
      ∀ (i : Nat) (node : NodeId) (rule : PropertyRule), nodes[i]? = some node →
        rules[i]? = some rule →
        ∃ column initializer k property, tree.get? node = some (.setExpression column initializer) ∧
          bound.bindings.find? column = some (.property d k) ∧
          d.properties[k]? = some property ∧
          (Layout.ofDefinition d).properties[k]? = some rule.target ∧
          rule.target.name = property.name ∧ rule.target.type = property.type ∧
          rule.columns.map ColumnRule.target = rule.target.columns := by
  obtain ⟨assignments, hassigned⟩ := exists_forall₂ fun node (hnode : node ∈ nodes) =>
    exists_property_of_assign hshape hbind hsuccess hreach hx hparts htarget hsource hd hnode
  have hparts' : (tree.get? n).bind Transfer.updateParts? = some (some (target, nodes)) := by
    rw [hx, Option.bind_some, hparts]
  have hassigns : List.Forall₂ tree.Assigns nodes assignments := by
    refine hassigned.imp fun node a h => ?_
    obtain ⟨_, _, h, -⟩ := h
    exact h
  have hfound : ∀ a ∈ assignments, ∃ t, (Layout.ofDefinition d).property? a.name = some t := by
    intro a ha
    obtain ⟨i, hi⟩ := List.mem_iff_getElem?.1 ha
    obtain ⟨_, -, _, k, -, -, -, hk⟩ := exists_getElem?_of_forall₂ hassigned.flip hi
    obtain ⟨_, _, -, -, hproperty⟩ := Layout.property?_ofDefinition hk
    exact ⟨_, hproperty⟩
  obtain ⟨rules, hrules, hfilled⟩ := Transfer.exists_updateRules hparts'
    (Layout.ofNode_of_definition? htarget hsource hd) hassigns hfound
  refine ⟨rules, hrules, (hassigned.length_eq.trans hfilled.length_eq).symm, ?_⟩
  intro i node rule hnode hrule
  obtain ⟨a, ha, column, k, -, hset, hcolumn, hk⟩ := exists_getElem?_of_forall₂ hassigned hnode
  obtain ⟨rule', hrule', hfills, hcolumns⟩ := exists_getElem?_of_forall₂ hfilled ha
  obtain rfl : rule' = rule := Option.some.inj (hrule'.symm.trans hrule)
  obtain ⟨property, start, hproperty, hplace, hnamed⟩ := Layout.property?_ofDefinition hk
  have htargets := Option.some.inj (hfills.symm.trans hnamed)
  refine ⟨column, a.initializer, k, property, hset, hcolumn, hproperty, ?_, ?_, ?_, hcolumns⟩
  · rw [hplace, htargets]
  · rw [htargets]
    rfl
  · rw [htargets]
    rfl

end

/-- A script that assigns the properties of a note, the first one from a statement that
assigns those of an order. -/
def nestedUpdate : Tree :=
  ⟨#[.tableReference "Notes" none, .columnReference "Text",
    .tableReference "Orders" none, .columnReference "TOTAL", .scalarLiteral .number "1",
    .setExpression 3 4, .update { target := 2, assignments := [5] }, .setExpression 1 6,
    .columnReference "Notes.total", .scalarLiteral .number "5", .setExpression 8 9,
    .update { target := 0, assignments := [7, 10] }, .script [11]]⟩

/-- The catalog of notes and orders. -/
def notesCatalog : Catalog :=
  ⟨.ofList [("notes", notesDefinition), ("orders", ordersDefinition)], .empty⟩

/-- The total of the note is filled after the total of the order was assigned inside. -/
theorem nestedUpdate_fills_notes :
    ∃ bound, bindScript {} nestedUpdate notesCatalog.toProvider 12 = .ok bound ∧
      nestedUpdate.TreeShaped ∧ bound.diagnostics = [] ∧ nestedUpdate.Reaches 12 11 ∧
      bound.bindings.find? 0 = some (.table (.entity notesDefinition)) ∧
      ∃ rules, Transfer.updateRules nestedUpdate bound.bindings 11 = .ok rules ∧
        rules.length = 2 ∧ ∀ rule, rules[1]? = some rule → ∃ k,
          bound.bindings.find? 8 = some (.property notesDefinition k) ∧
          (Layout.ofDefinition notesDefinition).properties[k]? = some rule.target := by
  obtain ⟨bound, hbind, hsuccess, hsource⟩ :
      ∃ bound, bindScript {} nestedUpdate notesCatalog.toProvider 12 = .ok bound ∧
        bound.diagnostics = [] ∧
        bound.bindings.find? 0 = some (.table (.entity notesDefinition)) := ⟨_, rfl, rfl, rfl⟩
  have hshape : nestedUpdate.TreeShaped := by decide
  have hreach : nestedUpdate.Reaches 12 11 := .single ⟨_, rfl, by decide⟩
  obtain ⟨rules, hrules, hlength, hfills⟩ := assigned_properties_are_those_bound hshape hbind
    hsuccess hreach rfl rfl rfl hsource rfl
  refine ⟨bound, hbind, hshape, hsuccess, hreach, hsource, rules, hrules, hlength, ?_⟩
  intro rule hrule
  obtain ⟨column, initializer, k, property, hset, hcolumn, -, hplace, -⟩ :=
    hfills 1 10 rule rfl hrule
  obtain ⟨rfl, -⟩ := Node.setExpression.inj (Option.some.inj hset)
  exact ⟨k, hcolumn, hplace⟩

end UnionScript
