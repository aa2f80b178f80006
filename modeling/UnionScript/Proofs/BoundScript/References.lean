import Mathlib.Data.List.Forall2
import UnionScript.Proofs.Walk.Effect

/-!
# References are bound or reported

The references of a script are the columns, variables and tables that it names
and the types of its declarations.  Binding loses none of them: each is bound or
reported, under its kind and with its text, and none is reported twice.

The walk has one step about each reference (`Walk.Spells.covers`).  The step
binds it, or reports it and leaves it without a binding, and no other step binds
or reports the same node.  So the reports of a run are those of the steps whose
nodes have no binding at its end (`Walk.run_reports`).
-/

namespace UnionScript

/-- The nodes of these kinds are references. -/
def NodeKind.isReference : NodeKind → Bool
  | .columnReference | .variableReference | .tableReference | .typeIdentifier => true
  | _ => false

namespace Tree

/-- A node is a reference: it names something of a kind by a text. -/
inductive Names (t : Tree) (n : NodeId) : NameKind → String → Prop
  | columnName {identifier : String} (h : t.get? n = some (.columnReference identifier)) :
      Names t n .column identifier
  | variableName {name : String} (h : t.get? n = some (.variableReference name)) :
      Names t n .variable name
  | tableName {identifier : String} {aliasName : Option String}
      (h : t.get? n = some (.tableReference identifier aliasName)) :
      Names t n .table identifier
  | typeName {typeName name : String} {declaration : NodeId} {initializer : Option NodeId}
      (h : t.get? n = some (.typeIdentifier typeName))
      (hdeclaration : t.get? declaration = some (.declare name n initializer)) :
      Names t n .type typeName

/-- A node is a reference of some kind. -/
def IsReference (t : Tree) (n : NodeId) : Prop :=
  ∃ kind text, t.Names n kind text

/-- A diagnostic says that the name at a node could not be resolved. -/
def Reports (t : Tree) (n : NodeId) (d : Diagnostic) : Prop :=
  ∃ kind text, t.Names n kind text ∧ d = .unresolved kind text

variable {t : Tree} {n : NodeId}

/-- What the node of a reference is. -/
theorem Names.node {kind : NameKind} {text : String} (h : t.Names n kind text) :
    ∃ x, t.get? n = some x ∧ x.kind.isReference := by
  cases h with
  | columnName h | variableName h | tableName h | typeName h _ => exact ⟨_, h, rfl⟩

/-- Walks have a step about every reference. -/
theorem IsReference.hasStep (h : t.IsReference n) :
    ∃ x, t.get? n = some x ∧ x.kind.hasStep := by
  obtain ⟨kind, text, h⟩ := h
  obtain ⟨x, hx, hkind⟩ := h.node
  refine ⟨x, hx, ?_⟩
  generalize x.kind = k at hkind
  cases k <;> cases hkind <;> rfl

end Tree

namespace Step

variable {tree : Tree} {step : Step} {n : NodeId}

/-- A step that may report is about a node. -/
theorem exists_subject_of_miss {d : Diagnostic} (h : step.miss? = some d) :
    ∃ n, step.subject? = some n := by
  cases step <;> cases h <;> exact ⟨_, rfl⟩

/-- A step reports the name at the node that it is about. -/
theorem Fits.reports {d : Diagnostic} (hfits : step.Fits tree) (hn : step.subject? = some n)
    (hd : step.miss? = some d) : tree.Reports n d := by
  cases step <;> cases hd <;> cases hn
  case useTable identifier _ =>
    obtain ⟨aliasName, h, -⟩ := hfits
    exact ⟨.table, identifier, .tableName h, rfl⟩
  case useColumn identifier => exact ⟨.column, identifier, .columnName hfits, rfl⟩
  case useVariable name => exact ⟨.variable, name, .variableName hfits, rfl⟩
  case declare typeName name initializer =>
    obtain ⟨h, declaration, hdeclaration⟩ := hfits
    exact ⟨.type, typeName, .typeName h hdeclaration, rfl⟩
  case setColumn identifier => exact ⟨.column, identifier, .columnName hfits, rfl⟩

/-- A step about a reference reports it or binds it to a projected column. -/
theorem Fits.miss_or_projection (hfits : step.Fits tree) (hn : step.subject? = some n)
    (href : tree.IsReference n) :
    (∃ d, step.miss? = some d) ∨ ∃ column, step = .useProjection n column := by
  obtain ⟨kind, text, href⟩ := href
  obtain ⟨x, hx, hkind⟩ := href.node
  have hsubject := hfits.subjectKind? hn hx
  cases step <;> cases hn
  case useTable | useColumn | useVariable | declare | setColumn => exact Or.inl ⟨_, rfl⟩
  case useProjection column => exact Or.inr ⟨column, rfl⟩
  case enter scopeKind correlated =>
    have hopens := hfits.1
    rw [← Option.some.inj hsubject] at hkind
    cases scopeKind <;> cases hkind <;> cases hopens
  all_goals
    rw [← Option.some.inj hsubject] at hkind
    cases hkind

variable {s : Surroundings} {p q : Progress}

/-- A step binds no node but the one that it is about. -/
theorem Takes.find?_of_ne (h : step.Takes s p q) (hn : step.subject? ≠ some n) :
    q.bindings.find? n = p.bindings.find? n := by
  cases h with
  | binds hm hb hscopes =>
      exact Directory.find?_insert_of_ne _ _ fun h => hn (h ▸ hm)
  | reports | enters | leaves | passes => rfl

/-- A node that has a binding keeps one. -/
theorem Takes.isSome_find? (h : step.Takes s p q) (hn : (p.bindings.find? n).isSome) :
    (q.bindings.find? n).isSome := by
  cases h with
  | @binds m b scopes hm hb hscopes =>
      by_cases hmn : m = n
      · subst hmn
        simp [Progress.bind]
      · simpa [Progress.bind, Directory.find?_insert_of_ne _ _ hmn] using hn
  | reports | enters | leaves | passes => exact hn

/-- What a step reports if the node that it is about has no binding. -/
def unresolvedIn? (bindings : Bindings) (step : Step) : Option Diagnostic :=
  if (step.subject?.bind bindings.find?).isSome then none else step.miss?

/-- **A step binds or reports.**  Bindings that agree with those after the step
show what was reported. -/
theorem Takes.reports_eq (h : step.Takes s p q) {bindings : Bindings}
    (hfresh : ∀ n, step.subject? = some n → p.bindings.find? n = none)
    (hagree : ∀ n, step.subject? = some n → bindings.find? n = q.bindings.find? n) :
    q.diagnostics.toList =
      p.diagnostics.toList ++ (step.unresolvedIn? bindings).toList := by
  cases h with
  | binds hn hb hscopes =>
      have hbound := hagree _ hn
      simp [unresolvedIn?, hn, hbound, Progress.bind]
  | reports hd =>
      obtain ⟨n, hn⟩ := exists_subject_of_miss hd
      simp [unresolvedIn?, hn, hd, hagree n hn, hfresh n hn]
  | enters hstep _ => subst hstep; simp [unresolvedIn?, miss?]
  | leaves hstep _ => subst hstep; simp [unresolvedIn?, miss?]
  | passes targets hstep =>
      cases step <;> cases hstep <;> simp [unresolvedIn?, miss?]

end Step

namespace Walk

variable {tree : Tree} {s : Surroundings} {p q : Progress} {l : List Step} {n : NodeId}

/-- Steps bind no node but those that they are about. -/
theorem progress_find?_of_not_mem (h : (run s l p).progress? = some q) (hn : n ∉ subjects l) :
    q.bindings.find? n = p.bindings.find? n := by
  refine run_invariant (fun m => m.bindings.find? n = p.bindings.find? n)
    (fun step hstep m m' hm htakes => ?_) rfl h
  have hne : step.subject? ≠ some n := fun hsub => hn (mem_subjects.2 ⟨step, hstep, hsub⟩)
  rw [htakes.find?_of_ne hne, hm]

theorem run_find?_of_not_mem (h : run s l p = .finished q) (hn : n ∉ subjects l) :
    q.bindings.find? n = p.bindings.find? n :=
  progress_find?_of_not_mem (congrArg Outcome.progress? h) hn

/-- **Reports of a run.**  Where steps are about different nodes, none of which
has a binding before, those are reported that have none afterwards. -/
theorem run_reports (h : run s l p = .finished q) (hnodup : (subjects l).Nodup)
    (hfresh : ∀ n ∈ subjects l, p.bindings.find? n = none) :
    q.diagnostics.toList =
      p.diagnostics.toList ++ l.filterMap (Step.unresolvedIn? q.bindings) := by
  induction l generalizing p with
  | nil =>
      cases h
      simp
  | cons step rest ih =>
      obtain ⟨m, hstep, hrest⟩ := run_cons_eq_finished h
      have htakes := Step.takes_of_perform hstep
      have hsplit : subjects (step :: rest) = step.subject?.toList ++ subjects rest := by
        cases hsub : step.subject? <;> simp [subjects, hsub]
      rw [hsplit] at hnodup hfresh
      -- The rest is about other nodes, so the bindings at the end still show what
      -- this step did.
      have hapart : ∀ n, step.subject? = some n → n ∉ subjects rest := by
        intro n hn hmem
        exact (List.nodup_append.1 hnodup).2.2 n (by simp [hn]) n hmem rfl
      have hrest' := ih hrest (List.nodup_append.1 hnodup).2.1 fun n hn => by
        have hne : step.subject? ≠ some n := fun hsub => hapart n hsub hn
        rw [htakes.find?_of_ne hne]
        exact hfresh n (List.mem_append_right _ hn)
      have hreports := htakes.reports_eq
        (fun n hn => hfresh n (List.mem_append_left _ (by simp [hn])))
        (fun n hn => run_find?_of_not_mem hrest (hapart n hn))
      rw [hrest', hreports, List.append_assoc, List.filterMap_cons]
      cases step.unresolvedIn? q.bindings <;> rfl

/-- A name that stands for a projected column is bound. -/
theorem run_binds_projection (h : run s l p = .finished q) {column : NodeId}
    (hmem : Step.useProjection n column ∈ l) : (q.bindings.find? n).isSome := by
  obtain ⟨before, behind, rfl⟩ := List.append_of_mem hmem
  obtain ⟨m, -, hbehind⟩ := run_append_eq_finished h
  obtain ⟨m', hstep, hrest⟩ := run_cons_eq_finished hbehind
  cases hstep
  refine run_invariant (fun p => (p.bindings.find? n).isSome) (fun _ _ _ _ hp htakes =>
    htakes.isSome_find? hp) ?_ (congrArg Outcome.progress? hrest)
  simp [Progress.bind]

/-- The nodes of the steps that report, given the bindings. -/
def unresolved (bindings : Bindings) (l : List Step) : List NodeId :=
  l.filterMap fun step => (step.unresolvedIn? bindings).bind fun _ => step.subject?

theorem mem_unresolved {bindings : Bindings} :
    n ∈ unresolved bindings l ↔
      ∃ step ∈ l, (∃ d, step.unresolvedIn? bindings = some d) ∧ step.subject? = some n := by
  simp [unresolved, List.mem_filterMap, Option.bind_eq_some_iff]

theorem unresolved_sublist (bindings : Bindings) (l : List Step) :
    (unresolved bindings l).Sublist (subjects l) := by
  refine filterMap_sublist_subjects (fun step n h => ?_) l
  obtain ⟨_, _, hn⟩ := Option.bind_eq_some_iff.1 h
  exact hn

/-- Diagnostics report the nodes of the steps in turn. -/
theorem forall₂_unresolved {bindings : Bindings} (hfits : ∀ step ∈ l, step.Fits tree) :
    List.Forall₂ tree.Reports (unresolved bindings l)
      (l.filterMap (Step.unresolvedIn? bindings)) := by
  induction l with
  | nil => exact .nil
  | cons step rest ih =>
      have hrest := ih fun step' hmem => hfits step' (List.mem_cons_of_mem step hmem)
      cases hd : step.unresolvedIn? bindings with
      | none => simpa [unresolved, hd] using hrest
      | some d =>
          have hmiss : step.miss? = some d := by
            unfold Step.unresolvedIn? at hd
            split at hd
            · cases hd
            · exact hd
          obtain ⟨n, hn⟩ := Step.exists_subject_of_miss hmiss
          simp only [unresolved, List.filterMap_cons, hd, Option.bind_some, hn]
          exact .cons ((hfits step List.mem_cons_self).reports hn hmiss) hrest

/-- The nodes of the steps that report are the references without a binding. -/
theorem mem_unresolved_iff {root : NodeId}
    (hrun : run s l p = .finished q) (hspells : Spells tree root (.visit root) l) :
    n ∈ unresolved q.bindings l ↔
      tree.Reaches root n ∧ tree.IsReference n ∧ q.bindings.find? n = none := by
  have hfits := hspells.fits trivial
  rw [mem_unresolved]
  constructor
  · rintro ⟨step, hmem, ⟨d, hd⟩, hn⟩
    have hreach := hspells.reaches_of_visit hmem hn
    unfold Step.unresolvedIn? at hd
    split at hd
    · cases hd
    · rename_i hunbound
      obtain ⟨kind, text, hnames, -⟩ := (hfits step hmem).reports hn hd
      exact ⟨hreach, ⟨kind, text, hnames⟩, by simpa [hn] using hunbound⟩
  · rintro ⟨hreach, href, hunbound⟩
    obtain ⟨x, hx, hstep⟩ := href.hasStep
    have hcovers := hspells.covers (legal_of_run hrun) rfl
    obtain ⟨step, hmem, hn⟩ := mem_subjects.1 (hcovers.complete n x hreach hx hstep)
    rcases (hfits step hmem).miss_or_projection hn href with ⟨d, hd⟩ | ⟨column, rfl⟩
    · exact ⟨step, hmem, ⟨d, by simp [Step.unresolvedIn?, hn, hunbound, hd]⟩, hn⟩
    · have hbound := run_binds_projection hrun hmem
      simp [hunbound] at hbound

/-- A run reports the nodes that it leaves without a binding, each by one diagnostic. -/
theorem forall₂_diagnostics {root : NodeId} (hrun : run s l {} = .finished q)
    (hspells : Spells tree root (.visit root) l) (hshape : tree.TreeShaped) :
    List.Forall₂ tree.Reports (unresolved q.bindings l) q.diagnostics.toList := by
  have hnodup := (hspells.covers (legal_of_run hrun) rfl).nodup hshape
  have hreports := run_reports hrun hnodup (fun n _ => Directory.find?_empty n)
  simpa [hreports] using forall₂_unresolved (hspells.fits trivial)

/-- Where nothing is reported, every reference has a binding. -/
theorem isSome_find?_of_success {root : NodeId} (hrun : run s l {} = .finished q)
    (hspells : Spells tree root (.visit root) l) (hshape : tree.TreeShaped)
    (hsuccess : q.diagnostics.toList = []) (hreach : tree.Reaches root n)
    (href : tree.IsReference n) : (q.bindings.find? n).isSome := by
  have hforall := forall₂_diagnostics hrun hspells hshape
  rw [Option.isSome_iff_ne_none]
  intro hunbound
  have hn := (mem_unresolved_iff hrun hspells).2 ⟨hreach, href, hunbound⟩
  rw [hsuccess, List.forall₂_nil_right_iff] at hforall
  rw [hforall] at hn
  cases hn

end Walk

/-- **References are bound or reported.**  In a tree-shaped tree, binding
reports exactly the references that it leaves without a binding, each once and
with its kind and text, as long as no schema fails.  So where nothing is
reported, every reference has a binding. -/
theorem diagnostics_are_unbound_references
    {config : Config} {tree : Tree} {provider : Provider} {root : NodeId}
    {bound : BoundScript} (hshape : tree.TreeShaped)
    (hbind : bindScript config tree provider root = .ok bound)
    (hschema : ∀ detail, Diagnostic.schema detail ∉ bound.diagnostics) :
    (∃ unbound : List NodeId, unbound.Nodup ∧
      (∀ n, n ∈ unbound ↔
        tree.Reaches root n ∧ tree.IsReference n ∧ bound.bindings.find? n = none) ∧
      List.Forall₂ tree.Reports unbound bound.diagnostics) ∧
    (bound.isSuccess → ∀ n, tree.Reaches root n → tree.IsReference n →
      (bound.bindings.find? n).isSome) := by
  obtain ⟨q, hrun, rfl⟩ := exists_run_of_bindScript hbind hschema
  have hspells : Walk.Spells tree root _ _ := Walk.walk_spells config.maxDepth root
  have hnodup := (hspells.covers (Walk.legal_of_run hrun) rfl).nodup hshape
  refine ⟨⟨_, hnodup.sublist (Walk.unresolved_sublist q.bindings _),
    fun n => Walk.mem_unresolved_iff hrun hspells,
    Walk.forall₂_diagnostics hrun hspells hshape⟩, ?_⟩
  intro hsuccess n hreach href
  exact Walk.isSome_find?_of_success hrun hspells hshape (List.isEmpty_iff.1 hsuccess) hreach href

/-- A script that declares a variable of an unknown type and reads an unknown
table, ordered by the alias of its only column. -/
def unknownOrders : Tree :=
  ⟨#[.typeIdentifier "Ghost", .declare "@x" 0 none, .tableReference "orders" none,
    .columnReference "orders.total", .columnExpression 3 (some "sum"),
    .columnReference "sum", .orderItem 5 false,
    .selectExpression { columns := [4], source := some 2, ordering := [6] },
    .select none 7, .script [1, 8]]⟩

/-- Of its four references the type, the table and the column are reported; the
one that rows are ordered by has a binding. -/
theorem diagnostics_of_unknownOrders :
    ∃ bound, bindScript {} unknownOrders Catalog.empty.toProvider 9 = .ok bound ∧
      unknownOrders.TreeShaped ∧
      bound.diagnostics = [.unresolved .type "Ghost", .unresolved .table "orders",
        .unresolved .column "orders.total"] ∧
      ∃ unbound : List NodeId, unbound.Nodup ∧
        (∀ n, n ∈ unbound ↔ unknownOrders.Reaches 9 n ∧ unknownOrders.IsReference n ∧
          bound.bindings.find? n = none) ∧
        List.Forall₂ unknownOrders.Reports unbound bound.diagnostics := by
  obtain ⟨bound, hbind, hdiagnostics⟩ :
      ∃ bound, bindScript {} unknownOrders Catalog.empty.toProvider 9 = .ok bound ∧
        bound.diagnostics = [.unresolved .type "Ghost", .unresolved .table "orders",
          .unresolved .column "orders.total"] := ⟨_, rfl, rfl⟩
  refine ⟨bound, hbind, by decide, hdiagnostics, ?_⟩
  exact (diagnostics_are_unbound_references (by decide) hbind (by simp [hdiagnostics])).1

end UnionScript
