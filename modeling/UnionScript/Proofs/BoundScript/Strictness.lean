import UnionScript.Proofs.Scope.Chain
import UnionScript.Proofs.Walk.Failure
import UnionScript.Proofs.Walk.Lockstep

/-!
# Strict rules are conservative

Under strict rules fewer columns are resolved, and those that are resolve to the same
(`ScopeTree.resolveColumn_of_strict`).  A column that is resolved under one kind of
rules only may give a reference variable another object type, and nothing else: what
tables a script has and what is in them, where its scopes stand, and which other names
are found do not depend on that (`Progress.Relaxes`).
-/

namespace UnionScript

/-- A column was not found. -/
def Diagnostic.isColumn : Diagnostic → Bool
  | .unresolved .column _ => true
  | _ => false

/-- Types that are equal, or differ only in what objects a reference leads to. -/
inductive VariableType.Similar : VariableType → VariableType → Prop
  | same (v : VariableType) : Similar v v
  | entity (e e' : Entity) : Similar (.entity e) (.entity e')

/-- Where a scope stands and what tables it has under which names. -/
def Scope.outline (s : Scope) :
    Frame × Directory String TableSource × Directory String AliasTarget :=
  (s.frame, s.tables, s.aliases)

/-- Scopes with the same outline and similar variables. -/
def sameOutline : Likeness where
  table := (· = ·)
  variableType := VariableType.Similar
  columns _ _ := True
  columns_empty := trivial

theorem Scope.Alike.outline {s s' : Scope} (h : s.Alike sameOutline s') :
    s.outline = s'.outline := by
  have haliases : s.aliases.Alike (· = ·) s'.aliases := by
    refine h.aliases.imp ?_
    rintro ⟨key, node, source⟩ ⟨key', node', source'⟩ ⟨hkey, hnode, hsource⟩
    obtain rfl : node = node' := hnode
    obtain rfl : source = source' := hsource
    exact ⟨hkey, rfl⟩
  unfold Scope.outline
  rw [h.frame, h.tables.eq, haliases.eq]

/-- Similar types are of the same record, if of any. -/
theorem VariableType.Similar.record_iff {v v' : VariableType} (h : v.Similar v') (d : Definition) :
    v = .record d ↔ v' = .record d := by
  cases h with
  | same => rfl
  | entity => simp

section

variable {tree : Tree} {source : TableSource} {name qualifier : String} {b : Binding}
  {t : ScopeTree}

/-- A column is no table. -/
theorem Tree.table?_of_columnOf? (h : tree.columnOf? source name = some b) : b.table? = none := by
  unfold columnOf? at h
  split at h <;>
    · obtain ⟨_, _, rfl⟩ := Option.map_eq_some_iff.1 h
      rfl

theorem Scope.exists_columnOf?_of_unqualified? {s : Scope} {strict : Bool}
    (h : s.unqualified? tree strict name = some b) :
    ∃ target ∈ s.aliases.values, tree.columnOf? target.source name = some b := by
  have hmem : b ∈ s.aliases.values.filterMap (fun target => tree.columnOf? target.source name) := by
    unfold unqualified? at h
    split at h
    · cases h
    · rename_i hvalues
      rw [hvalues, Option.some.inj h]
      exact List.mem_cons_self
    · rename_i hvalues
      split at h
      · cases h
      · rw [hvalues, Option.some.inj h]
        exact List.mem_cons_self
  exact List.mem_filterMap.1 hmem

/-- What a column resolves to is a column of some table. -/
theorem ScopeTree.exists_columnOf?_of_resolveColumn {strict : Bool}
    (h : t.resolveColumn tree strict qualifier name = some b) :
    ∃ source, tree.columnOf? source name = some b := by
  unfold resolveColumn at h
  split at h
  · obtain ⟨s, -, hs⟩ := Option.bind_eq_some_iff.1 h
    obtain ⟨target, -, hcolumn⟩ := Scope.exists_columnOf?_of_unqualified? hs
    exact ⟨target.source, hcolumn⟩
  · split at h
    · cases h
    · obtain ⟨target, -, hcolumn⟩ := Option.bind_eq_some_iff.1 h
      exact ⟨target.source, hcolumn⟩

/-- Columns are resolved only where there is a current scope. -/
theorem ScopeTree.exists_current_of_resolveColumn {strict : Bool}
    (h : t.resolveColumn tree strict qualifier name = some b) : ∃ id, t.current = some id := by
  cases hcurrent : t.current with
  | some id => exact ⟨id, rfl⟩
  | none =>
      have htarget : t.aliasTarget? qualifier = none := by
        unfold aliasTarget?
        split
        · simp [currentScope?, hcurrent]
        · simp [lookup?, hcurrent, chain_none]
      simp [resolveColumn, hasSeveralTables, currentScope?, hcurrent, htarget] at h

/-- **Strict rules resolve less.**  A column that is resolved under strict rules is
resolved to the same without them. -/
theorem ScopeTree.resolveColumn_of_strict (h : t.resolveColumn tree true qualifier name = some b) :
    t.resolveColumn tree false qualifier name = some b := by
  unfold resolveColumn at h ⊢
  split at h
  · rename_i hplain
    rw [if_pos hplain]
    obtain ⟨s, hs, hcolumn⟩ := Option.bind_eq_some_iff.1 h
    rw [hs, Option.bind_some]
    unfold Scope.unqualified? at hcolumn ⊢
    split at hcolumn
    · cases hcolumn
    · exact hcolumn
    · cases hcolumn
  · rename_i hplain
    rw [if_neg hplain, if_neg (by simp)]
    split at h
    · cases h
    · exact h

end

/-- What is known under strict rules against what is known without them. -/
structure Progress.Relaxes (tree : Tree) (p q : Progress) : Prop where
  scopes : p.scopes.Alike sameOutline q.scopes
  tables : ∀ n, p.table? n = q.table? n
  columns : ∀ n identifier, tree.get? n = some (.columnReference identifier) → p.table? n = none
  targets : p.targets = q.targets
  reports : q.diagnostics.toList.Sublist p.diagnostics.toList
  others : q.diagnostics.toList.filter (!·.isColumn) = p.diagnostics.toList.filter (!·.isColumn)

namespace Progress

variable {tree : Tree} {p q : Progress} {n : NodeId} {b b' : Binding}

/-- The table of a node that is bound. -/
theorem table?_bind (p : Progress) (n m : NodeId) (b : Binding) :
    (p.bind n b).table? m = if n = m then b.table? else p.table? m := by
  unfold table? bind
  split
  · rename_i hm
    subst hm
    rw [Directory.find?_insert_self, Option.bind_some]
  · rename_i hm
    rw [Directory.find?_insert_of_ne _ _ hm]

namespace Relaxes

theorem outlines (h : p.Relaxes tree q) (id : ScopeId) :
    (p.scopes.get? id).map Scope.outline = (q.scopes.get? id).map Scope.outline := by
  rcases rel_cases (h.scopes.scopes id) with ⟨hs, hs'⟩ | ⟨s, s', hs, hs', hsame⟩
  · rw [hs, hs']
  · rw [hs, hs', Option.map_some, Option.map_some, hsame.outline]

theorem start : ({} : Progress).Relaxes tree {} :=
  ⟨.empty, fun _ => rfl, fun _ _ _ => rfl, rfl, .slnil, rfl⟩

/-- Alike scopes are known in both. -/
theorem withScopes (h : p.Relaxes tree q) {t t' : ScopeTree} (ht : t.Alike sameOutline t') :
    Relaxes tree { p with scopes := t } { q with scopes := t' } :=
  ⟨ht, h.tables, h.columns, h.targets, h.reports, h.others⟩

/-- A node is bound in both to the same table, or to something else than a table. -/
theorem bind (h : p.Relaxes tree q) (hb : b.table? = b'.table?)
    (hn : ∀ identifier, tree.get? n = some (.columnReference identifier) → b.table? = none) :
    (p.bind n b).Relaxes tree (q.bind n b') := by
  refine ⟨h.scopes, fun m => ?_, fun m identifier hm => ?_, h.targets, h.reports, h.others⟩
  · rw [table?_bind, table?_bind, hb, h.tables m]
  · rw [table?_bind]
    split
    · rename_i heq
      exact hn identifier (heq ▸ hm)
    · exact h.columns m identifier hm

/-- The same is reported in both. -/
theorem report (h : p.Relaxes tree q) (kind : NameKind) (identifier : String) :
    (p.report kind identifier).Relaxes tree (q.report kind identifier) := by
  refine ⟨h.scopes, h.tables, h.columns, h.targets, ?_, ?_⟩
  · simpa [Progress.report] using h.reports
  · simp [Progress.report, h.others]

/-- A column is reported under strict rules, and bound without them. -/
theorem resolve (h : p.Relaxes tree q) {identifier : String}
    (hn : tree.get? n = some (.columnReference identifier)) (hb : b.table? = none) :
    (p.report .column identifier).Relaxes tree (q.bind n b) := by
  refine ⟨h.scopes, fun m => ?_, h.columns, h.targets, ?_, ?_⟩
  · rw [table?_bind]
    split
    · rename_i heq
      rw [hb]
      exact h.columns m identifier (heq ▸ hn)
    · exact h.tables m
  · simpa [Progress.report, Progress.bind] using h.reports.trans (List.sublist_append_left _ _)
  · simpa [Progress.report, Progress.bind, Diagnostic.isColumn] using h.others

end Relaxes

end Progress

namespace Step

variable {tree : Tree} {provider : Provider} {p q : Progress} {step : Step}

/-- A type is named alike whatever references were narrowed to. -/
theorem declaredVariable_similar (s s' : Surroundings) (hprovider : s.provider = s'.provider)
    (bindings bindings' : Bindings) (typeName : String) (initializer : Option NodeId) :
    Agree (Option.Rel VariableType.Similar) (declaredVariable s bindings typeName initializer)
      (declaredVariable s' bindings' typeName initializer) := by
  unfold declaredVariable
  rw [hprovider]
  split
  · exact .ok (.some (.entity _ _))
  · exact .ok (.some (.same _))
  · cases s'.provider.object typeName with
    | error e => exact .error e
    | ok found =>
        cases found with
        | none => exact .ok .none
        | some d => exact .ok (.some (.same _))

/-- A column is bound alike under both rules, or reported under strict ones only. -/
theorem bindColumn_relaxes {n : NodeId} {identifier : String}
    (hn : tree.get? n = some (.columnReference identifier)) (h : p.Relaxes tree q)
    (member : Option EnumMember) :
    (p.bindColumn ⟨tree, provider, true⟩ n identifier member).Alike (Progress.Relaxes tree)
      (q.bindColumn ⟨tree, provider, false⟩ n identifier member) := by
  cases member with
  | some member => exact .finished (h.bind rfl fun _ _ => rfl)
  | none =>
      have hsame : p.scopes.resolveColumn tree true (splitQualified identifier).1
          (splitQualified identifier).2 = q.scopes.resolveColumn tree true
            (splitQualified identifier).1 (splitQualified identifier).2 :=
        h.scopes.resolveColumn tree tree rfl rfl rfl
          (fun source source' hsource => congrArg (tree.columnOf? · _) hsource) true
      simp only [Progress.bindColumn, hsame]
      cases hstrict : q.scopes.resolveColumn tree true (splitQualified identifier).1
        (splitQualified identifier).2 with
      | some b =>
          rw [ScopeTree.resolveColumn_of_strict hstrict]
          obtain ⟨source, hcolumn⟩ := ScopeTree.exists_columnOf?_of_resolveColumn hstrict
          have hbind := h.bind (n := n) (b := b) rfl fun _ _ => Tree.table?_of_columnOf? hcolumn
          exact Progress.register_alike hbind.scopes (fun t t' => hbind.withScopes)
            fun s s' hs => hs.withColumns trivial
      | none =>
          cases hlenient : q.scopes.resolveColumn tree false (splitQualified identifier).1
            (splitQualified identifier).2 with
          | none => exact .finished (h.report .column identifier)
          | some b =>
              -- Without strict rules the current scope has one column more, which no
              -- look-up of a table or a variable depends on.
              obtain ⟨source, hcolumn⟩ := ScopeTree.exists_columnOf?_of_resolveColumn hlenient
              obtain ⟨id, hid⟩ := ScopeTree.exists_current_of_resolveColumn hlenient
              have hchange : q.scopes.addColumn identifier b =
                  .ok (q.scopes.change id (Scope.addColumn identifier b)) :=
                ScopeTree.changeCurrent_eq_ok_iff.2 ⟨id, hid, rfl⟩
              simp only [Progress.changeScopes, Progress.bind, hchange]
              have hresolve := h.resolve (n := n) hn (Tree.table?_of_columnOf? hcolumn)
              refine .finished (hresolve.withScopes (h.scopes.change_right id ?_))
              exact fun s s' hs => hs.withColumns trivial

/-- **One step under both rules** leads to the same kind of end. -/
theorem perform_relaxes (hfits : step.Fits tree) (h : p.Relaxes tree q) :
    (step.perform ⟨tree, provider, true⟩ p).Alike (Progress.Relaxes tree)
      (step.perform ⟨tree, provider, false⟩ q) := by
  cases step with
  | enter owner kind correlated =>
      simp only [perform]
      exact Progress.changeScopes_alike (h.scopes.enter owner kind correlated)
        fun t t' ht => h.withScopes ht
  | leave =>
      simp only [perform]
      exact Progress.changeScopes_alike h.scopes.leave fun t t' ht => h.withScopes ht
  | defineTable n name =>
      obtain ⟨query, hn⟩ := hfits
      have hbind := h.bind (n := n) (b := .table (.commonTable n)) rfl (by simp [hn])
      exact Progress.register_alike hbind.scopes (fun t t' => hbind.withScopes)
        fun s s' hs => hs.addTable rfl rfl
  | deriveTable n query aliasName =>
      have hn : tree.get? n = some (.tableExpression query aliasName) := hfits
      have hbind := h.bind (n := n) (b := .table (.derived query)) rfl (by simp [hn])
      exact Progress.register_alike hbind.scopes (fun t t' => hbind.withScopes)
        fun s s' hs => hs.addAlias rfl n rfl
  | useTable n identifier aliasName =>
      obtain ⟨shown, hn⟩ := hfits
      refine Progress.ask_alike (h.scopes.resolveTable rfl (fun v v' hv => hv.record_iff)
        (fun d => rfl) (fun d => rfl) rfl) h fun found found' hfound => ?_
      cases hfound with
      | none => exact .finished (h.report .table identifier)
      | @some source source' hsource =>
          obtain rfl : source = source' := hsource
          have hbind := h.bind (n := n) (b := .table source) rfl (by simp [hn])
          exact Progress.register_alike hbind.scopes (fun t t' => hbind.withScopes)
            fun s s' hs => hs.addAlias rfl n rfl
  | useColumn n identifier =>
      refine Progress.ask_alike (S := (· = ·)) (agree_refl _) h fun found found' hfound => ?_
      subst hfound
      exact bindColumn_relaxes hfits h found
  | useProjection reference column =>
      exact .finished (h.bind rfl fun _ _ => rfl)
  | useVariable n name =>
      simp only [perform]
      rcases rel_cases (h.scopes.variableType? (rfl : nameKey name = nameKey name)) with
        ⟨hv, hv'⟩ | ⟨v, v', hv, hv', -⟩
      · rw [hv, hv']
        exact .finished (h.report .variable name)
      · rw [hv, hv']
        exact .finished (h.bind rfl fun _ _ => rfl)
  | callFunction n name =>
      simp only [perform]
      split
      · exact .finished (h.bind rfl fun _ _ => rfl)
      · exact .finished h
  | storeInto n source target =>
      have hn : tree.get? n = some (.into target) := hfits.1
      have hbind := h.bind (n := n) (b := .table (storedTable target source)) rfl (by simp [hn])
      simp only [perform, h.scopes.storageScope?]
      cases storageScope? q.scopes with
      | none => exact .malformed _
      | some id =>
          refine Progress.changeScopes_alike (.ok ?_) fun t t' => hbind.withScopes
          exact hbind.scopes.change id fun s s' hs => hs.addTable rfl rfl
  | declare n typeName name initializer =>
      refine Progress.ask_alike (declaredVariable_similar _ _ rfl _ _ typeName initializer) h
        fun found found' hfound => ?_
      cases hfound with
      | none => exact .finished (h.report .type typeName)
      | @some type type' hsimilar =>
          have htable : (Binding.type type).table? = (Binding.type type').table? := rfl
          have hbind := h.bind (n := n) htable fun _ _ => rfl
          exact Progress.register_alike hbind.scopes (fun t t' => hbind.withScopes)
            fun s s' hs => hs.addVariable rfl hsimilar
  | beginSet target =>
      refine .finished ⟨h.scopes, h.tables, h.columns, ?_, h.reports, h.others⟩
      rw [h.tables, h.targets]
  | setColumn n identifier =>
      simp only [perform, h.targets]
      split
      · rename_i b hb
        obtain ⟨source, -, hcolumn⟩ := Option.bind_eq_some_iff.1 hb
        exact .finished (h.bind rfl fun _ _ => Tree.table?_of_columnOf? hcolumn)
      · exact .finished (h.report .column identifier)
  | endSet =>
      refine .finished ⟨h.scopes, h.tables, h.columns, ?_, h.reports, h.others⟩
      rw [h.targets]
  | reject fault => exact .malformed fault

/-- A step that reports nothing under strict rules leads to the same without them. -/
theorem perform_of_strict (h : step.perform ⟨tree, provider, true⟩ p = .finished q)
    (hreports : q.diagnostics.size = p.diagnostics.size) :
    step.perform ⟨tree, provider, false⟩ p = .finished q := by
  cases step with
  | useColumn n identifier =>
      obtain ⟨member, hmember, hnext⟩ := ask_eq_finished h
      have hmember' : enumMember ⟨tree, provider, false⟩ identifier = .ok member := hmember
      simp only [perform, hmember', Progress.ask]
      cases member with
      | some member => exact hnext
      | none =>
          simp only [Progress.bindColumn] at hnext ⊢
          split at hnext
          · rename_i b hb
            rw [ScopeTree.resolveColumn_of_strict hb]
            exact hnext
          · cases hnext
            simp [Progress.report] at hreports
  | enter | leave | defineTable | deriveTable | useTable | useProjection | useVariable
  | callFunction | storeInto | declare | beginSet | setColumn | endSet | reject => exact h

end Step

/-- Steps that report nothing under strict rules lead to the same without them. -/
theorem Walk.run_of_strict {tree : Tree} {provider : Provider} {l : List Step} {p q : Progress}
    (h : run ⟨tree, provider, true⟩ l p = .finished q)
    (hreports : q.diagnostics.size = p.diagnostics.size) :
    run ⟨tree, provider, false⟩ l p = .finished q := by
  induction l generalizing p with
  | nil => exact h
  | cons step rest ih =>
      obtain ⟨m, hstep, hrest⟩ := run_cons_eq_finished h
      -- Reports are not taken back, so none was made on the way.
      have hfirst := (Step.takes_of_perform hstep).grows.diagnostics.length_le
      have hothers := (run_grows hrest).diagnostics.length_le
      simp only [Array.length_toList] at hfirst hothers
      simp only [run, Step.perform_of_strict hstep (by omega), Outcome.andThen]
      exact ih hrest (by omega)

/-- A result without diagnostics under strict rules is the result without them. -/
theorem bindScript_of_strict {tree : Tree} {provider : Provider} {root : NodeId} {maxDepth : Nat}
    {bound : BoundScript} (h : bindScript ⟨true, maxDepth⟩ tree provider root = .ok bound)
    (hclean : bound.diagnostics = []) :
    bindScript ⟨false, maxDepth⟩ tree provider root = .ok bound := by
  rcases bindScript_eq_ok_cases h with ⟨q, hrun, rfl⟩ | ⟨q, detail, -, rfl⟩
  · have hsize : q.diagnostics.size = 0 := by
      simpa [BoundScript.ofProgress] using hclean
    rw [bindScript_eq_run, Walk.run_of_strict hrun hsize, BoundScript.ofOutcome]
  · simp [BoundScript.ofFailure] at hclean

/-- **Strict rules are conservative.**  With and without strict rules a tree is
malformed in the same way, or bound with the same scopes, tables and aliases.  Without
them columns may be found that are reported under strict rules, and nothing else is
reported differently.  Where strict rules report nothing, they make no difference. -/
theorem strict_rules_are_conservative (tree : Tree) (provider : Provider) (root : NodeId)
    (maxDepth : Nat) :
    (∃ fault, bindScript ⟨true, maxDepth⟩ tree provider root = .error fault ∧
      bindScript ⟨false, maxDepth⟩ tree provider root = .error fault) ∨
    ∃ strict lenient, bindScript ⟨true, maxDepth⟩ tree provider root = .ok strict ∧
      bindScript ⟨false, maxDepth⟩ tree provider root = .ok lenient ∧
      strict.scopes.current = lenient.scopes.current ∧
      (∀ id, (strict.scopes.get? id).map Scope.outline =
        (lenient.scopes.get? id).map Scope.outline) ∧
      lenient.diagnostics.Sublist strict.diagnostics ∧
      lenient.diagnostics.filter (!·.isColumn) = strict.diagnostics.filter (!·.isColumn) ∧
      (strict.diagnostics = [] → lenient = strict) := by
  have hfits : ∀ step ∈ tree.walk maxDepth root, step.Fits tree :=
    (Walk.walk_spells maxDepth root).fits trivial
  have hrun : (Walk.run ⟨tree, provider, true⟩ (tree.walk maxDepth root) {}).Alike
      (Progress.Relaxes tree) (Walk.run ⟨tree, provider, false⟩ (tree.walk maxDepth root) {}) :=
    Walk.run_alike (S := fun step step' => step = step' ∧ step.Fits tree)
      (fun step step' p q hsame hpq => hsame.1 ▸ Step.perform_relaxes hsame.2 hpq)
      (List.forall₂_same.2 fun step hmem => ⟨rfl, hfits step hmem⟩) Progress.Relaxes.start
  have hsame : ∀ strict lenient, bindScript ⟨true, maxDepth⟩ tree provider root = .ok strict →
      bindScript ⟨false, maxDepth⟩ tree provider root = .ok lenient →
      strict.diagnostics = [] → lenient = strict := by
    intro strict lenient hstrict hlenient hclean
    rw [bindScript_of_strict hstrict hclean] at hlenient
    exact (Except.ok.inj hlenient).symm
  rcases bindScript_alike ⟨true, maxDepth⟩ ⟨false, maxDepth⟩ hrun with
    herror | ⟨p, q, hpq, hstrict, hlenient⟩ | ⟨p, q, detail, hpq, -, hstrict, hlenient⟩
  · exact Or.inl herror
  · exact Or.inr ⟨_, _, hstrict, hlenient, hpq.scopes.current, hpq.outlines, hpq.reports,
      hpq.others, hsame _ _ hstrict hlenient⟩
  · refine Or.inr ⟨_, _, hstrict, hlenient, rfl, hpq.outlines, hpq.reports.append_right _, ?_,
      hsame _ _ hstrict hlenient⟩
    simp only [BoundScript.ofFailure, List.filter_append, hpq.others]

/-- A column that two tables of a block have. -/
def sharedColumn : Tree :=
  ⟨#[.scalarLiteral .number "1", .columnExpression 0 (some "x"),
    .selectExpression { columns := [1] }, .tableExpression 2 "a", .scalarLiteral .number "2",
    .columnExpression 4 (some "x"), .selectExpression { columns := [5] }, .tableExpression 6 "b",
    .tableJoin .cross 3 7 none, .columnReference "x", .columnExpression 9 none,
    .selectExpression { columns := [10], source := some 8 }, .select none 11, .script [12]]⟩

/-- Strict rules do make a difference. -/
example :
    ∃ strict lenient, bindScript ⟨true, 256⟩ sharedColumn Catalog.empty.toProvider 13 = .ok strict ∧
      bindScript ⟨false, 256⟩ sharedColumn Catalog.empty.toProvider 13 = .ok lenient ∧
      strict.diagnostics = [.unresolved .column "x"] ∧ lenient.diagnostics = [] :=
  ⟨_, _, rfl, rfl, rfl, rfl⟩

end UnionScript
