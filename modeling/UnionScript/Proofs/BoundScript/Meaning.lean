import Mathlib.Data.List.TakeWhile
import UnionScript.Proofs.Walk.Effect

/-!
# Bindings say what names stand for

Whatever the tree, the schema and the rules are, a node is bound only to what
its kind and its text allow (`Node.Accepts`): a table reference to a table of
its name, a column reference to the first property or to a projected column of
its name, or to the enumeration member that the schema knows by its identifier.

Columns are looked up in tables that were registered long before, so the
invariant of the walk (`Meaningful`) is about the bindings and about the tables
of all scopes together.  It holds of trees of any shape, and also of what is
known when the schema fails.
-/

namespace UnionScript

namespace Tree

/-- Rows that are stored come from a query block or an output clause. -/
def StoresRows (t : Tree) (source : NodeId) : Prop :=
  ∃ x, t.get? source = some x ∧ (x.kind = .selectExpression ∨ x.kind = .output)

/-- A projected column goes by a name: its alias, or else the name of the column
or variable that it directly is. -/
inductive ProjectsAs (t : Tree) (name : String) (column : NodeId) : Prop
  | aliasName {expression : NodeId} {aliasName : String}
      (h : t.get? column = some (.columnExpression expression (some aliasName)))
      (hname : sameName aliasName name) : ProjectsAs t name column
  | columnName {expression : NodeId} {identifier : String}
      (h : t.get? column = some (.columnExpression expression none))
      (hexpression : t.get? expression = some (.columnReference identifier))
      (hname : sameName (lastPart identifier) name) : ProjectsAs t name column
  | variableName {expression : NodeId} {identifier : String}
      (h : t.get? column = some (.columnExpression expression none))
      (hexpression : t.get? expression = some (.variableReference identifier))
      (hname : sameName (bareVariable identifier) name) : ProjectsAs t name column

end Tree

/-- The first property of a name stands at a position. -/
def Definition.FirstAt (d : Definition) (name : String) (index : Nat) : Prop :=
  (∃ p, d.properties[index]? = some p ∧ sameName p.name name) ∧
    ∀ earlier < index, ∀ p, d.properties[earlier]? = some p → ¬ sameName p.name name

namespace TableSource

/-- A table that the script defines under a key. -/
def DefinedAs (tree : Tree) (key : String) : TableSource → Prop
  | .commonTable node => ∃ name query, tree.get? node = some (.commonTable name query) ∧
      nameKey name = key
  | .temporaryTable name rows =>
    nameKey name = key ∧ isVariableTarget name = false ∧ tree.StoresRows rows
  | .tableVariable name rows =>
    nameKey name = key ∧ isVariableTarget name = true ∧ tree.StoresRows rows
  | .entity _ | .parameter _ _ | .derived _ => False

/-- A table that a name stands for. -/
def StandsFor (tree : Tree) (provider : Provider) (name : String) : TableSource → Prop
  | .entity definition => provider.object name = .ok (some definition)
  | .parameter declared _ => declared = name
  | source => source.DefinedAs tree (nameKey name)

end TableSource

/-- What a node may be bound to. -/
def Node.Accepts (tree : Tree) (provider : Provider) (n : NodeId) : Node → Binding → Prop
  | .tableReference identifier _, .table source => source.StandsFor tree provider identifier
  | .tableExpression query _, .table source => source = .derived query
  | .commonTable _ _, .table source => source = .commonTable n
  | .into target, .table source =>
    ∃ rows, tree.StoresRows rows ∧ source = storedTable target rows
  | .columnReference identifier, .property definition index =>
    definition.FirstAt (lastPart identifier) index
  | .columnReference identifier, .column column => tree.ProjectsAs (lastPart identifier) column
  | .columnReference identifier, .enumValue member =>
    provider.member identifier = .ok (some member)
  | .variableReference _, .variable _ => True
  | .typeIdentifier _, .type _ => True
  | .functionCall name _ _, .function f => Builtin.find? name = some f
  | _, _ => False

/-- Nodes below the root are bound to what they accept, and the tables of all
scopes are defined under their keys. -/
structure Meaningful (s : Surroundings) (root : NodeId) (p : Progress) : Prop where
  bindings : ∀ n b, p.bindings.find? n = some b →
    s.tree.Reaches root n ∧ ∃ x, s.tree.get? n = some x ∧ x.Accepts s.tree s.provider n b
  tables : ∀ id scope key source, p.scopes.get? id = some scope →
    scope.tables.find? key = some source → source.DefinedAs s.tree key

section

variable {tree : Tree}

/-- A column that is found by a name goes by it. -/
theorem Tree.projectsAs_of_projects {name : String} {column : NodeId}
    (h : tree.projects name column) : tree.ProjectsAs name column := by
  unfold Tree.projects at h
  split at h
  · rename_i hcolumn
    exact .aliasName hcolumn h
  · rename_i expression hcolumn
    split at h
    · rename_i hexpression
      exact .columnName hcolumn hexpression h
    · rename_i hexpression
      exact .variableName hcolumn hexpression h
    · cases h
  · cases h

/-- An item that rows are ordered by is the alias of the column. -/
theorem Tree.projectsAs_of_hasAlias {name : String} {column : NodeId}
    (h : Walk.hasAlias tree name column) : tree.ProjectsAs name column := by
  unfold Walk.hasAlias at h
  split at h
  · rename_i hcolumn
    exact .aliasName hcolumn h
  · cases h

/-- A name without dots has no qualifier. -/
theorem splitQualified_eq_self {name : String} (h : '.' ∉ name.toList) :
    splitQualified name = ("", name) := by
  have hreverse : name.toList.reverse.takeWhile (· != '.') = name.toList.reverse := by
    refine List.takeWhile_eq_self_iff.2 fun c hc => ?_
    have hc : c ∈ name.toList := List.mem_reverse.1 hc
    exact bne_iff_ne.2 fun heq => h (heq ▸ hc)
  simp [splitQualified, hreverse]

/-- A name without dots is its own last part. -/
theorem lastPart_eq_self {name : String} (h : '.' ∉ name.toList) : lastPart name = name := by
  rw [lastPart, splitQualified_eq_self h]

theorem Definition.firstAt_of_indexOf? {d : Definition} {name : String} {index : Nat}
    (h : d.indexOf? name = some index) : d.FirstAt name index := by
  obtain ⟨hlt, hname, hearlier⟩ := List.findIdx?_eq_some_iff_getElem.1 h
  refine ⟨⟨_, List.getElem?_eq_getElem hlt, hname⟩, fun earlier hlt' p hp => ?_⟩
  obtain ⟨_, rfl⟩ := List.getElem?_eq_some_iff.1 hp
  exact hearlier earlier hlt'

/-- **Columns of tables.**  A column reference accepts what any table has under
its column name. -/
theorem Node.accepts_of_columnOf? {provider : Provider} {n : NodeId} {identifier : String}
    {source : TableSource} {b : Binding}
    (h : tree.columnOf? source (lastPart identifier) = some b) :
    (Node.columnReference identifier).Accepts tree provider n b := by
  unfold Tree.columnOf? at h
  split at h
  · obtain ⟨index, hindex, rfl⟩ := Option.map_eq_some_iff.1 h
    exact Definition.firstAt_of_indexOf? hindex
  · obtain ⟨column, hcolumn, rfl⟩ := Option.map_eq_some_iff.1 h
    obtain ⟨node, -, hcolumn⟩ := Option.bind_eq_some_iff.1 hcolumn
    exact Tree.projectsAs_of_projects (by simpa using List.find?_some hcolumn)

/-- The columns of a table are properties or projected columns. -/
theorem Tree.columnOf?_ne_table {tree : Tree} {source table : TableSource} {name : String} :
    tree.columnOf? source name ≠ some (.table table) := by
  intro h
  unfold Tree.columnOf? at h
  split at h <;> obtain ⟨_, -, heq⟩ := Option.map_eq_some_iff.1 h <;> cases heq

/-- A table name stands for a table of a scope, or for one whose columns are
properties. -/
theorem ScopeTree.resolveTable_cases {scopes : ScopeTree} {provider : Provider} {name : String}
    {source : TableSource} (h : scopes.resolveTable provider name = .ok (some source)) :
    (∃ id scope key, scopes.get? id = some scope ∧ scope.tables.find? key = some source) ∨
      source.node? = none := by
  unfold resolveTable at h
  split at h
  · rename_i table htable
    cases h
    obtain ⟨id, -, hid⟩ := List.exists_of_findSome?_eq_some htable
    obtain ⟨scope, hscope, hfind⟩ := Option.bind_eq_some_iff.1 hid
    exact Or.inl ⟨id, scope, _, hscope, hfind⟩
  · split at h
    · cases h
      exact Or.inr rfl
    · cases hobject : provider.object name with
      | error e => simp [hobject, Except.map] at h
      | ok found =>
          cases found with
          | none => simp [hobject, Except.map] at h
          | some definition =>
              simp only [hobject, Except.map, Option.map_some] at h
              cases h
              exact Or.inr rfl

/-- A column is found in a table that a scope has an alias for. -/
theorem exists_alias_of_resolveColumn {scopes : ScopeTree} {strict : Bool}
    {qualifier name : String} {b : Binding}
    (h : scopes.resolveColumn tree strict qualifier name = some b) :
    ∃ id scope target, scopes.get? id = some scope ∧ target ∈ scope.aliases.values ∧
      tree.columnOf? target.source name = some b := by
  unfold ScopeTree.resolveColumn at h
  split at h
  · obtain ⟨scope, hscope, h⟩ := Option.bind_eq_some_iff.1 h
    obtain ⟨id, -, hid⟩ := Option.bind_eq_some_iff.1 hscope
    have hmem : b ∈ scope.aliases.values.filterMap
        (fun target => tree.columnOf? target.source name) := by
      unfold Scope.unqualified? at h
      split at h <;> simp_all
    obtain ⟨target, htarget, hcolumn⟩ := List.mem_filterMap.1 hmem
    exact ⟨id, scope, target, hid, htarget, hcolumn⟩
  · split at h
    · cases h
    · obtain ⟨target, htarget, hcolumn⟩ := Option.bind_eq_some_iff.1 h
      unfold ScopeTree.aliasTarget? at htarget
      split at htarget
      · obtain ⟨scope, hscope, hhead⟩ := Option.bind_eq_some_iff.1 htarget
        obtain ⟨id, -, hid⟩ := Option.bind_eq_some_iff.1 hscope
        exact ⟨id, scope, target, hid, List.mem_of_mem_head? hhead, hcolumn⟩
      · obtain ⟨id, -, hid⟩ := List.exists_of_findSome?_eq_some htarget
        obtain ⟨scope, hscope, hfind⟩ := Option.bind_eq_some_iff.1 hid
        exact ⟨id, scope, target, hscope, Directory.mem_values_of_find? hfind, hcolumn⟩

/-- A table that the script defines stands for each of its spellings. -/
theorem TableSource.DefinedAs.standsFor {source : TableSource} {provider : Provider}
    {name : String} (h : source.DefinedAs tree (nameKey name)) :
    source.StandsFor tree provider name := by
  cases source with
  | entity | parameter => exact h.elim
  | derived | commonTable | temporaryTable | tableVariable => exact h

/-- The table that rows are stored in is defined under the name of its target. -/
theorem storedTable_definedAs {target : String} {rows : NodeId} (h : tree.StoresRows rows) :
    (storedTable target rows).DefinedAs tree (nameKey target) := by
  unfold storedTable
  split
  · rename_i hvariable
    exact ⟨rfl, hvariable, h⟩
  · rename_i hvariable
    exact ⟨rfl, by simpa using hvariable, h⟩

end

namespace Meaningful

variable {s : Surroundings} {root : NodeId} {p q : Progress} {step : Step} {b : Binding}

/-- A table name is resolved to a table that it stands for. -/
theorem standsFor_of_resolveTable (h : Meaningful s root p) {name : String}
    {source : TableSource} (hsource : p.scopes.resolveTable s.provider name = .ok (some source)) :
    source.StandsFor s.tree s.provider name := by
  unfold ScopeTree.resolveTable at hsource
  split at hsource
  · rename_i table htable
    cases hsource
    obtain ⟨id, -, hid⟩ := List.exists_of_findSome?_eq_some htable
    obtain ⟨scope, hscope, hfind⟩ := Option.bind_eq_some_iff.1 hid
    exact (h.tables id scope _ source hscope hfind).standsFor
  · split at hsource
    · cases hsource
      rfl
    · cases hobject : s.provider.object name with
      | error e => simp [hobject, Except.map] at hsource
      | ok found =>
          obtain ⟨definition, rfl, rfl⟩ : ∃ definition, found = some definition ∧
              TableSource.entity definition = source := by
            simpa [hobject, Except.map] using hsource
          exact hobject

/-- **What a step finds is accepted.** -/
theorem accepts_of_finds (h : Meaningful s root p) {n : NodeId} (hfits : step.Fits s.tree)
    (hn : step.subject? = some n) (hb : step.Finds s p b) :
    ∃ x, s.tree.get? n = some x ∧ x.Accepts s.tree s.provider n b := by
  cases hb <;> cases hn
  case commonTable =>
    obtain ⟨query, hx⟩ := hfits
    exact ⟨_, hx, rfl⟩
  case derived => exact ⟨_, hfits, rfl⟩
  case table hsource =>
    obtain ⟨_, hx, -⟩ := hfits
    exact ⟨_, hx, h.standsFor_of_resolveTable hsource⟩
  case enumValue hmember =>
    refine ⟨_, hfits, ?_⟩
    unfold enumMember at hmember
    split at hmember
    · exact hmember
    · cases hmember
  case column hcolumn =>
    obtain ⟨_, _, _, -, -, hsource⟩ := exists_alias_of_resolveColumn hcolumn
    exact ⟨_, hfits, Node.accepts_of_columnOf? hsource⟩
  case projection column =>
    obtain ⟨name, hx, hplain, halias⟩ := hfits
    refine ⟨_, hx, ?_⟩
    simp only [Node.Accepts, lastPart_eq_self hplain]
    exact Tree.projectsAs_of_hasAlias halias
  case variableType => exact ⟨_, hfits, trivial⟩
  case function hf =>
    obtain ⟨_, _, hx⟩ := hfits
    exact ⟨_, hx, hf⟩
  case stored => exact ⟨_, hfits.1, _, hfits.2, rfl⟩
  case type => exact ⟨_, hfits.1, trivial⟩
  case assigned hcolumn => exact ⟨_, hfits, Node.accepts_of_columnOf? hcolumn⟩

/-- What a step registers as a table is defined under its key. -/
theorem definedAs_of_registers {name : String} {source : TableSource}
    (hfits : step.Fits s.tree) (hb : step.Finds s p b)
    (hr : step.Registers b (.table name source)) :
    source.DefinedAs s.tree (nameKey name) := by
  cases hr with
  | commonTable n name source =>
      cases hb
      obtain ⟨query, hx⟩ := hfits
      exact ⟨name, query, hx, rfl⟩
  | stored n rows target table =>
      cases hb
      exact storedTable_definedAs hfits.2

/-- **Steps keep bindings meaningful.** -/
theorem takes (h : Meaningful s root p) (hfits : step.Fits s.tree)
    (hreach : ∀ n, step.subject? = some n → s.tree.Reaches root n) (htakes : step.Takes s p q) :
    Meaningful s root q where
  bindings n b hb := by
    rcases htakes.find?_cases hb with hold | ⟨hn, hfinds⟩
    · exact h.bindings n b hold
    · exact ⟨hreach n hn, h.accepts_of_finds hfits hn hfinds⟩
  tables id scope key source hscope hfind := by
    rcases htakes.table_cases hscope hfind with
      ⟨old, hold, hfind⟩ | ⟨n, b, name, -, -, hfinds, rfl, hr⟩
    · exact h.tables id old key source hold hfind
    · exact definedAs_of_registers hfits hfinds hr

end Meaningful

/-- What is known at the end of the walk is meaningful, whether or not the schema
failed. -/
theorem exists_meaningful_of_bindScript {config : Config} {tree : Tree} {provider : Provider}
    {root : NodeId} {bound : BoundScript}
    (hbind : bindScript config tree provider root = .ok bound) :
    ∃ q, Meaningful ⟨tree, provider, config.strict⟩ root q ∧ bound.bindings = q.bindings := by
  obtain ⟨q, hrun, hbindings⟩ := exists_progress_of_bindScript hbind
  have hspells : Walk.Spells tree root _ _ := Walk.walk_spells config.maxDepth root
  refine ⟨q, Walk.run_invariant _ (fun step hstep p q hp htakes => ?_) ⟨?_, ?_⟩ hrun, hbindings⟩
  · exact hp.takes (hspells.fits trivial step hstep)
      (fun n hn => hspells.reaches_of_visit hstep hn) htakes
  · intro n b hfind
    cases hfind
  · intro id scope key source hscope
    simp [ScopeTree.empty, ScopeTree.get?] at hscope

/-- **Bindings are meaningful.**  Binding binds only nodes below the root, and
each to what its kind and its text allow, whether or not the schema failed. -/
theorem bindings_are_accepted {config : Config} {tree : Tree} {provider : Provider}
    {root : NodeId} {bound : BoundScript}
    (hbind : bindScript config tree provider root = .ok bound) {n : NodeId} {b : Binding}
    (hb : bound.bindings.find? n = some b) :
    tree.Reaches root n ∧ ∃ x, tree.get? n = some x ∧ x.Accepts tree provider n b := by
  obtain ⟨q, hmeaningful, hbindings⟩ := exists_meaningful_of_bindScript hbind
  exact hmeaningful.bindings n b (hbindings ▸ hb)

/-- A schema object with two properties. -/
def ordersDefinition : Definition :=
  ⟨7, "orders", "t_orders",
    [.ofType "id" "c_id" (.ofKind .uuid), .ofType "total" "c_total" (.ofKind .numeric)]⟩

/-- A schema that fails for every name but one. -/
def ordersOnly : Provider :=
  ⟨fun name =>
    if nameKey name = "orders" then .ok (some ordersDefinition)
    else .error (.schema "offline"), fun _ => .ok none⟩

/-- A script that reads a known table, with one column reference in two slots,
and then an unknown one. -/
def sharedTotal : Tree :=
  ⟨#[.tableReference "Orders" (some "o"), .columnReference "o.TOTAL",
    .columnExpression 1 (some "sum"),
    .selectExpression { columns := [2], source := some 0, condition := some 1 },
    .select none 3, .tableReference "stock" none,
    .selectExpression { source := some 5 }, .select none 6, .script [4, 7]]⟩

/-- The column is bound to the second property, although the schema failed
later. -/
theorem binding_of_sharedTotal :
    ∃ bound, bindScript {} sharedTotal ordersOnly 8 = .ok bound ∧
      bound.diagnostics = [.schema "offline"] ∧
      bound.bindings.find? 1 = some (.property ordersDefinition 1) ∧
      sharedTotal.Reaches 8 1 ∧
      ∃ x, sharedTotal.get? 1 = some x ∧
        x.Accepts sharedTotal ordersOnly 1 (.property ordersDefinition 1) := by
  obtain ⟨bound, hbind, hdiagnostics, hb⟩ :
      ∃ bound, bindScript {} sharedTotal ordersOnly 8 = .ok bound ∧
        bound.diagnostics = [.schema "offline"] ∧
        bound.bindings.find? 1 = some (.property ordersDefinition 1) := ⟨_, rfl, rfl, rfl⟩
  exact ⟨bound, hbind, hdiagnostics, hb, bindings_are_accepted hbind hb⟩

end UnionScript
