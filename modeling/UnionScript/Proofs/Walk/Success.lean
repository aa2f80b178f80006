import UnionScript.Proofs.Walk.Standing

/-!
# Steps that succeed

A run that ends well says what its steps did.  Here is the other direction: what
makes a step possible, and what it leads to.

A scope can be entered and left around any steps that can be taken in it
(`Walk.run_scope`).  A name of a table that nothing in the script hides goes to the
schema (`ScopeTree.Bare`), and in a scope that reads a single table a column under
the alias of the table is a column of that table (`ScopeTree.Reads`).
-/

namespace UnionScript

/-- A dotted name is cut in front of a last part without dots. -/
theorem splitQualified_append (qualifier : String) {name : String} (h : '.' ∉ name.toList) :
    splitQualified (qualifier ++ "." ++ name) = (qualifier, name) := by
  have hlast : ∀ c ∈ name.toList.reverse, (c != '.') = true := fun c hc =>
    bne_iff_ne.2 fun heq => h (heq ▸ List.mem_reverse.1 hc)
  have hreverse : (qualifier ++ "." ++ name).toList.reverse =
      name.toList.reverse ++ '.' :: qualifier.toList.reverse := by
    simp
  have htake : (name.toList.reverse ++ '.' :: qualifier.toList.reverse).takeWhile (· != '.') =
      name.toList.reverse := by
    rw [List.takeWhile_append_of_pos hlast]
    simp
  have hdrop : (name.toList.reverse ++ '.' :: qualifier.toList.reverse).drop
      (name.toList.reverse.length + 1) = qualifier.toList.reverse := by
    rw [← List.drop_drop, List.drop_left]
    rfl
  simp only [splitQualified, hreverse, htake, hdrop]
  simp

namespace ScopeTree

variable {t : ScopeTree}

/-- The current scope is looked at first. -/
theorem lookup?_of_currentScope? {α : Type} {f : Scope → Option α} {scope : Scope} {a : α}
    (hscope : t.currentScope? = some scope) (ha : f scope = some a) : t.lookup? f = some a := by
  obtain ⟨id, hid, hget⟩ := Option.bind_eq_some_iff.1 hscope
  have hlt : id < t.size := get?_isSome_iff.1 ⟨scope, hget⟩
  obtain ⟨fuel, hfuel⟩ := Nat.exists_eq_add_of_lt (Nat.lt_of_le_of_lt (Nat.zero_le id) hlt)
  rw [Nat.zero_add] at hfuel
  simp [lookup?, chain, hid, hfuel, chainUpTo, hget, ha]

/-- Where there is a current scope, it can be changed. -/
theorem exists_changeCurrent {scope : Scope} (hscope : t.currentScope? = some scope)
    (f : Scope → Scope) :
    ∃ t', t.changeCurrent f = .ok t' ∧ t'.currentScope? = some (f scope) := by
  obtain ⟨id, hid, hget⟩ := Option.bind_eq_some_iff.1 hscope
  refine ⟨t.change id f, changeCurrent_eq_ok_iff.2 ⟨id, hid, rfl⟩, ?_⟩
  simp [currentScope?, hid, get?_change, hget]

/-- No scope has a table or a variable. -/
structure Bare (t : ScopeTree) : Prop where
  tables : ∀ i key, t.tableIn? i key = none
  variableTypes : ∀ i key, t.variableIn? i key = none

theorem bare_empty : empty.Bare :=
  ⟨fun _ _ => rfl, fun _ _ => rfl⟩

/-- **Names for the schema.**  Where no scope has a table or a variable, the name of
an object stands for that object. -/
theorem Bare.resolveTable_of_object (h : t.Bare) {provider : Provider} {name : String}
    {d : Definition} (hobject : provider.object name = .ok (some d)) :
    t.resolveTable provider name = .ok (some (.entity d)) := by
  have htable : t.table? name = none := List.findSome?_eq_none_iff.2 fun i _ => h.tables i _
  have hvariable : t.variableType? name = none :=
    List.findSome?_eq_none_iff.2 fun i _ => h.variableTypes i _
  simp only [resolveTable, htable, hvariable, hobject]
  rfl

/-- A scope that is not correlated can always be entered, and is empty then. -/
theorem Bare.exists_enter (h : t.Bare) (owner : NodeId) (kind : NodeKind) :
    ∃ t', t.enter owner kind false = .ok t' ∧ t'.Bare ∧
      ∃ scope, t'.currentScope? = some scope ∧ scope.aliases = .empty := by
  obtain ⟨t', ht'⟩ : ∃ t', t.enter owner kind false = .ok t' :=
    ⟨_, enter_eq_ok_iff.2 ⟨by simp, rfl⟩⟩
  obtain ⟨hcurrent, hget⟩ := get?_of_enter ht'
  refine ⟨t', ht', ⟨fun i key => ?_, fun i key => ?_⟩, t.fresh owner kind false, ?_, rfl⟩
  · exact (bind_get?_of_enter (fun _ _ _ => rfl) ht' i).trans (h.tables i key)
  · exact (bind_get?_of_enter (fun _ _ _ => rfl) ht' i).trans (h.variableTypes i key)
  · rw [currentScope?, hcurrent, Option.bind_some, hget]

/-- The current scope has one table, under the given alias. -/
def Reads (t : ScopeTree) (aliasName : String) (target : AliasTarget) : Prop :=
  ∃ scope, t.currentScope? = some scope ∧
    scope.aliases = Directory.empty.insert (nameKey aliasName) target

/-- **Columns of the only table.**  The alias stands for the table whatever it is:
if it is one of the names for the rows at hand, these are rows of that table. -/
theorem Reads.resolveColumn_eq {aliasName : String} {target : AliasTarget}
    (h : t.Reads aliasName target) (tree : Tree) (strict : Bool) (name : String) :
    t.resolveColumn tree strict aliasName name = tree.columnOf? target.source name := by
  obtain ⟨scope, hscope, haliases⟩ := h
  have hsingle : t.hasSeveralTables = false := by
    simp only [hasSeveralTables, hscope, Option.any_some, haliases]
    rfl
  have htarget : t.aliasTarget? aliasName = some target := by
    unfold aliasTarget?
    split
    · simp only [hscope, Option.bind_some, haliases]
      rfl
    · exact lookup?_of_currentScope? hscope (by simp [haliases])
  simp [resolveColumn, hsingle, htarget]

end ScopeTree

/-- Scopes that can be changed are. -/
theorem Progress.changeScopes_of_ok {change : ScopeTree → Except StructureFault ScopeTree}
    {p : Progress} {t : ScopeTree} (h : change p.scopes = .ok t) :
    p.changeScopes change = .finished { p with scopes := t } := by
  simp only [changeScopes, h]

namespace Step

variable {s : Surroundings} {p q : Progress}

/-- A step that registers no table and no variable leaves all scopes without. -/
theorem bare_of_perform {step : Step} (hbare : p.scopes.Bare)
    (h : step.perform s p = .finished q) (hdefine : ∀ n name, step ≠ .defineTable n name)
    (hstore : ∀ n source target, step ≠ .storeInto n source target)
    (hdeclare : ∀ n typeName name initializer, step ≠ .declare n typeName name initializer) :
    q.scopes.Bare where
  tables i key := (tableIn?_of_other h hdefine hstore i key).trans (hbare.tables i key)
  variableTypes i key :=
    (variableIn?_of_other h hdeclare i key).trans (hbare.variableTypes i key)

/-- A reference to a table that is found is bound, and its alias registered. -/
theorem exists_useTable (n : NodeId) {name : String} (shown : String) {source : TableSource}
    {scope : Scope} (hsource : p.scopes.resolveTable s.provider name = .ok (some source))
    (hscope : p.scopes.currentScope? = some scope) :
    ∃ t, (useTable n name shown).perform s p =
        .finished { p.bind n (.table source) with scopes := t } ∧
      t.currentScope? = some (scope.addAlias shown ⟨n, source⟩) := by
  obtain ⟨t, ht, hcurrent⟩ :=
    ScopeTree.exists_changeCurrent hscope (Scope.addAlias shown ⟨n, source⟩)
  refine ⟨t, ?_, hcurrent⟩
  simp only [perform, hsource, Progress.ask, Progress.bindTable]
  exact Progress.changeScopes_of_ok ht

/-- A reference to a column of the only table is bound to it.  A name with a single
dot is no member of an enumeration. -/
theorem exists_useColumn (n : NodeId) {aliasName name : String} {target : AliasTarget}
    {binding : Binding} (halias : '.' ∉ aliasName.toList) (hname : '.' ∉ name.toList)
    (hreads : p.scopes.Reads aliasName target)
    (hcolumn : s.tree.columnOf? target.source name = some binding) :
    ∃ t, (useColumn n (aliasName ++ "." ++ name)).perform s p =
        .finished { p.bind n binding with scopes := t } ∧ t.Reads aliasName target := by
  have hmember : enumMember s (aliasName ++ "." ++ name) = .ok none := by
    simp [enumMember, List.count_eq_zero_of_not_mem halias, List.count_eq_zero_of_not_mem hname]
  have hresolved := (hreads.resolveColumn_eq s.tree s.strict name).trans hcolumn
  obtain ⟨scope, hscope, haliases⟩ := hreads
  obtain ⟨t, ht, hcurrent⟩ := ScopeTree.exists_changeCurrent hscope
    (Scope.addColumn (aliasName ++ "." ++ name) binding)
  refine ⟨t, ?_, _, hcurrent, haliases⟩
  simp only [perform, hmember, Progress.ask, Progress.bindColumn, splitQualified_append _ hname,
    hresolved]
  exact Progress.changeScopes_of_ok ht

end Step

namespace Walk

variable {s : Surroundings} {p q : Progress}

/-- Steps that enter and leave no scope are balanced. -/
theorem balanced_of_quiet {l : List Step} (h : ∀ step ∈ l, (Stage.own step).isQuiet) :
    Balanced l := by
  have hflat : l.flatMap (fun step => [step]) = l := by simp
  rw [← hflat]
  exact .flatMap fun step hstep => .step (h step hstep)

/-- **A scope around steps.**  If steps can be taken in a scope, the scope can be
left behind them, and nothing but the current scope is different then. -/
theorem run_scope {owner : NodeId} {kind : NodeKind} {correlated : Bool} {body : List Step}
    {entered : ScopeTree} (hbody : Balanced body)
    (hentered : p.scopes.enter owner kind correlated = .ok entered)
    (h : run s body { p with scopes := entered } = .finished q) :
    ∃ t, run s (.enter owner kind correlated :: (body ++ [.leave])) p =
      .finished { q with scopes := t } := by
  have hcurrent : q.scopes.current = some p.scopes.size :=
    (hbody.returns h).current.trans (ScopeTree.get?_of_enter hentered).1
  obtain ⟨left, hleft⟩ : ∃ t, q.scopes.leave = .ok t :=
    ⟨_, ScopeTree.leave_eq_ok_iff.2 ⟨_, hcurrent, rfl⟩⟩
  have henter : (Step.enter owner kind correlated).perform s p =
      .finished { p with scopes := entered } := by
    rw [Step.perform]
    exact Progress.changeScopes_of_ok hentered
  have hleave : Step.leave.perform s q = .finished { q with scopes := left } :=
    Progress.changeScopes_of_ok hleft
  refine ⟨left, ?_⟩
  simp only [run, henter, Outcome.andThen, run_append, h, hleave]

end Walk

end UnionScript
