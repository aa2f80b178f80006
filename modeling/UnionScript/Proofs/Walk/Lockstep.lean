import UnionScript.Proofs.Scope.Likeness
import UnionScript.Proofs.Walk.Effect

/-!
# Two walks in lockstep

Names resolve to alike things in alike scopes (`ScopeTree.Alike.resolveTable`,
`ScopeTree.Alike.resolveColumn`).

Two runs are compared by a relation between what is known in each.  If steps that
correspond keep the relation, or both end the walk in the same way, so do the runs
(`Walk.run_alike`), and the results are alike as well (`bindScript_alike`).
-/

namespace UnionScript

/-- Two ends of steps of one kind, with related progress. -/
inductive Outcome.Alike (R : Progress → Progress → Prop) : Outcome → Outcome → Prop
  | finished {p q : Progress} (h : R p q) : Alike R (.finished p) (.finished q)
  | schemaFailed {p q : Progress} (h : R p q) (detail : String) :
      Alike R (.schemaFailed p detail) (.schemaFailed q detail)
  | malformed (fault : StructureFault) : Alike R (.malformed fault) (.malformed fault)

section

variable {R : Progress → Progress → Prop} {p q : Progress} {L : Likeness}

/-- Scopes that are changed alike lead to alike ends. -/
theorem Progress.changeScopes_alike {change change' : ScopeTree → Except StructureFault ScopeTree}
    (hchange : Agree (ScopeTree.Alike L) (change p.scopes) (change' q.scopes))
    (hR : ∀ t t', t.Alike L t' → R { p with scopes := t } { q with scopes := t' }) :
    (p.changeScopes change).Alike R (q.changeScopes change') := by
  simp only [Progress.changeScopes]
  generalize change p.scopes = result at hchange ⊢
  generalize change' q.scopes = result' at hchange ⊢
  cases hchange with
  | ok h => exact .finished (hR _ _ h)
  | error fault => exact .malformed fault

/-- Alike things that are registered in the current scopes lead to alike ends. -/
theorem Progress.register_alike (hscopes : p.scopes.Alike L q.scopes)
    (hR : ∀ t t', t.Alike L t' → R { p with scopes := t } { q with scopes := t' })
    {f f' : Scope → Scope} (hf : ∀ s s', s.Alike L s' → (f s).Alike L (f' s')) :
    (p.changeScopes (·.changeCurrent f)).Alike R (q.changeScopes (·.changeCurrent f')) :=
  changeScopes_alike (hscopes.changeCurrent hf) hR

/-- Alike answers of the schemas that are gone on with alike lead to alike ends. -/
theorem Progress.ask_alike {α β : Type} {S : α → β → Prop} {answer : Except Error α}
    {answer' : Except Error β} {next : α → Progress → Outcome} {next' : β → Progress → Outcome}
    (hanswer : Agree S answer answer') (hpq : R p q)
    (hnext : ∀ a b, S a b → (next a p).Alike R (next' b q)) :
    (p.ask answer next).Alike R (q.ask answer' next') := by
  cases hanswer with
  | ok h => exact hnext _ _ h
  | error e => exact .schemaFailed hpq e.asSchemaDetail

end

namespace ScopeTree.Alike

variable {L : Likeness} {t t' : ScopeTree} (h : t.Alike L t')

include h

section

variable {name name' : String} (hkey : nameKey name = nameKey name')

include hkey

/-- One name stands for alike tables of the script. -/
theorem table? : Option.Rel L.table (t.table? name) (t'.table? name') := by
  unfold ScopeTree.table?
  rw [hkey]
  exact h.lookup? fun s s' hs => hs.tables.find? (nameKey name')

/-- One name stands for alike variables. -/
theorem variableType? :
    Option.Rel L.variableType (t.variableType? name) (t'.variableType? name') := by
  unfold ScopeTree.variableType?
  rw [hkey]
  exact h.lookup? fun s s' hs => hs.variableTypes.find? (nameKey name')

/-- **Tables in lockstep.**  One name resolves to alike tables, if records are alike
only to themselves and the schemas say the same. -/
theorem resolveTable {provider provider' : Provider}
    (hrecord : ∀ v v', L.variableType v v' → ∀ d, v = .record d ↔ v' = .record d)
    (hparameter : ∀ d, L.table (.parameter name d) (.parameter name' d))
    (hentity : ∀ d, L.table (.entity d) (.entity d))
    (hprovider : provider.object name = provider'.object name') :
    Agree (Option.Rel L.table) (t.resolveTable provider name)
      (t'.resolveTable provider' name') := by
  have hobject : Agree (Option.Rel L.table) ((provider.object name).map (·.map .entity))
      ((provider'.object name').map (·.map .entity)) := by
    rw [hprovider]
    cases provider'.object name' with
    | error e => exact .error e
    | ok found =>
        cases found with
        | none => exact .ok .none
        | some d => exact .ok (.some (hentity d))
  unfold ScopeTree.resolveTable
  rcases rel_cases (h.table? hkey) with ⟨htable, htable'⟩ | ⟨source, source', htable, htable', hs⟩
  · rw [htable, htable']
    rcases rel_cases (h.variableType? hkey) with ⟨hv, hv'⟩ | ⟨v, v', hv, hv', hsame⟩
    · rw [hv, hv']
      exact hobject
    · have hiff := hrecord v v' hsame
      rw [hv, hv']
      cases v with
      | record d =>
          rw [(hiff d).1 rfl]
          exact .ok (.some (hparameter d))
      | primitive | entity =>
          cases v' with
          | record d => cases (hiff d).2 rfl
          | primitive | entity => exact hobject
  · rw [htable, htable']
    exact .ok (.some hs)

end

theorem hasSeveralTables : t.hasSeveralTables = t'.hasSeveralTables := by
  unfold ScopeTree.hasSeveralTables
  rcases rel_cases h.currentScope? with ⟨hs, hs'⟩ | ⟨s, s', hs, hs', hsame⟩
  · rw [hs, hs']
  · rw [hs, hs', Option.any_some, Option.any_some, hsame.aliases.size]

/-- Qualifiers that differ in nothing that matters stand for alike tables. -/
theorem aliasTarget? {qualifier qualifier' : String}
    (hkey : nameKey qualifier = nameKey qualifier')
    (hempty : qualifier.isEmpty = qualifier'.isEmpty)
    (hpseudo : isPseudoTable qualifier = isPseudoTable qualifier') :
    Option.Rel (AliasTarget.Alike L) (t.aliasTarget? qualifier) (t'.aliasTarget? qualifier') := by
  unfold ScopeTree.aliasTarget?
  rw [hempty, hpseudo, hkey]
  split
  · exact rel_bind h.currentScope? fun s s' hs => hs.aliases.head?
  · exact h.lookup? fun s s' hs => hs.aliases.find? (nameKey qualifier')

/-- **Columns in lockstep.**  Qualifiers that differ in nothing that matters and
names under which alike tables have the same columns resolve to the same column. -/
theorem resolveColumn (tree tree' : Tree) {qualifier qualifier' name name' : String}
    (hkey : nameKey qualifier = nameKey qualifier')
    (hempty : qualifier.isEmpty = qualifier'.isEmpty)
    (hpseudo : isPseudoTable qualifier = isPseudoTable qualifier')
    (hcolumn : ∀ source source', L.table source source' →
      tree.columnOf? source name = tree'.columnOf? source' name')
    (strict : Bool) :
    t.resolveColumn tree strict qualifier name =
      t'.resolveColumn tree' strict qualifier' name' := by
  have hcolumns : ∀ s s' : Scope, s.Alike L s' →
      s.unqualified? tree strict name = s'.unqualified? tree' strict name' := by
    intro s s' hs
    have hvalues : s.aliases.values.filterMap (fun target => tree.columnOf? target.source name) =
        s'.aliases.values.filterMap (fun target => tree'.columnOf? target.source name') := by
      have hall := hs.aliases.values
      generalize s.aliases.values = values at hall ⊢
      generalize s'.aliases.values = values' at hall ⊢
      induction hall with
      | nil => rw [List.filterMap_nil, List.filterMap_nil]
      | cons ha _ ih => rw [List.filterMap_cons, List.filterMap_cons, hcolumn _ _ ha.source, ih]
    unfold Scope.unqualified?
    rw [hvalues]
  unfold ScopeTree.resolveColumn
  rw [h.hasSeveralTables, hempty, hpseudo]
  split
  · rcases rel_cases h.currentScope? with ⟨hs, hs'⟩ | ⟨s, s', hs, hs', hsame⟩
    · rw [hs, hs', Option.bind_none, Option.bind_none]
    · rw [hs, hs', Option.bind_some, Option.bind_some, hcolumns s s' hsame]
  · split
    · rfl
    · rcases rel_cases (h.aliasTarget? hkey hempty hpseudo) with
        ⟨ha, ha'⟩ | ⟨a, a', ha, ha', hsame⟩
      · rw [ha, ha', Option.bind_none, Option.bind_none]
      · rw [ha, ha', Option.bind_some, Option.bind_some, hcolumn _ _ hsame.source]

/-- Rows are stored in the same one of alike scopes. -/
theorem storageScope? :
    storageScope? t = storageScope? t' := by
  have hkind : ∀ pred : NodeKind → Bool, t.ancestorWhere? pred = t'.ancestorWhere? pred := by
    intro pred
    unfold ancestorWhere?
    rw [h.current]
    refine h.nearest? _ fun s s' hs => ?_
    rw [show s.kind = s'.kind from congrArg Frame.kind hs]
  unfold UnionScript.storageScope? ancestor?
  rw [hkind, hkind, h.current]
  have hparent : ∀ id, (t.get? id).bind Scope.logicalParent =
      (t'.get? id).bind Scope.logicalParent := by
    intro id
    rcases rel_cases (h.scopes id) with ⟨hs, hs'⟩ | ⟨s, s', hs, hs', hsame⟩
    · rw [hs, hs']
    · rw [hs, hs', Option.bind_some, Option.bind_some, hsame.logicalParent]
  simp only [hparent]

end ScopeTree.Alike

/-- **Runs in lockstep.**  If corresponding steps lead to alike ends from related
progress, corresponding runs do. -/
theorem Walk.run_alike {R : Progress → Progress → Prop} {S : Step → Step → Prop}
    {s s' : Surroundings} {l l' : List Step}
    (hstep : ∀ step step' p q, S step step' → R p q →
      (step.perform s p).Alike R (step'.perform s' q))
    (hl : List.Forall₂ S l l') {p q : Progress} (hpq : R p q) :
    (run s l p).Alike R (run s' l' q) := by
  induction hl generalizing p q with
  | nil => exact .finished hpq
  | @cons step step' rest rest' hS _ ih =>
      have hperform := hstep step step' p q hS hpq
      rw [run, run]
      generalize step.perform s p = outcome at hperform
      generalize step'.perform s' q = outcome' at hperform
      cases hperform with
      | finished h => exact ih h
      | schemaFailed h detail => exact .schemaFailed h detail
      | malformed fault => exact .malformed fault

/-- **Results in lockstep.**  Alike runs find the same fault, or lead to what is known
at two related ends, with the same failure of the schema if there was one. -/
theorem bindScript_alike {R : Progress → Progress → Prop} (config config' : Config)
    {tree tree' : Tree} {provider provider' : Provider} {root : NodeId}
    (h : (Walk.run ⟨tree, provider, config.strict⟩ (tree.walk config.maxDepth root) {}).Alike R
      (Walk.run ⟨tree', provider', config'.strict⟩ (tree'.walk config'.maxDepth root) {})) :
    (∃ fault, bindScript config tree provider root = .error fault ∧
      bindScript config' tree' provider' root = .error fault) ∨
    (∃ p q, R p q ∧ bindScript config tree provider root = .ok (.ofProgress p) ∧
      bindScript config' tree' provider' root = .ok (.ofProgress q)) ∨
    ∃ p q detail, R p q ∧
      Walk.run ⟨tree, provider, config.strict⟩ (tree.walk config.maxDepth root) {} =
        .schemaFailed p detail ∧
      bindScript config tree provider root = .ok (.ofFailure p detail) ∧
      bindScript config' tree' provider' root = .ok (.ofFailure q detail) := by
  have hbind := bindScript_eq_run config tree provider root
  have hbind' := bindScript_eq_run config' tree' provider' root
  generalize Walk.run ⟨tree, provider, config.strict⟩ _ {} = outcome at h hbind ⊢
  generalize Walk.run ⟨tree', provider', config'.strict⟩ _ {} = outcome' at h hbind'
  cases h with
  | malformed fault => exact Or.inl ⟨fault, hbind, hbind'⟩
  | finished h => exact Or.inr (Or.inl ⟨_, _, h, hbind, hbind'⟩)
  | schemaFailed h detail => exact Or.inr (Or.inr ⟨_, _, detail, h, rfl, hbind, hbind'⟩)

end UnionScript
