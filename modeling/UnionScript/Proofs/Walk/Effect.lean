import UnionScript.BoundScript
import UnionScript.Proofs.Scope.Frame
import UnionScript.Proofs.Walk.Coverage

/-!
# What steps do

`Step.Takes` says once what a step does to what is known: it binds the node that
it is about, or reports that it did not find the name there, or enters or leaves
a scope, or passes.  Everything that is proved about runs of steps is proved
from this list (`Walk.run_invariant`).

* `Step.takes_of_perform` — a step that can be taken does one of these things;
* `Step.Takes.find?_cases`, `Step.Takes.table_cases`, `Step.Takes.alias_cases` — what is new
  among bindings, tables and aliases after a step is what the step found;
* `Step.perform_eq_schemaFailed_iff` — where the schema fails, and that nothing was done there;
* `Walk.legal_of_run` — steps that all can be taken do not refuse the tree.
-/

namespace UnionScript

/-- Rows are never stored in a common table. -/
theorem storedTable_ne_commonTable (target : String) (source c : NodeId) :
    storedTable target source ≠ .commonTable c := by
  unfold storedTable
  split <;> simp

/-- Stored rows are those of the node that they come from. -/
theorem node?_storedTable (target : String) (rows : NodeId) :
    (storedTable target rows).node? = some rows := by
  unfold storedTable
  split <;> rfl

namespace Step

/-- What is reported when a step does not find the name that it looks for. -/
def miss? : Step → Option Diagnostic
  | .useTable _ identifier _ => some (.unresolved .table identifier)
  | .useColumn _ identifier | .setColumn _ identifier => some (.unresolved .column identifier)
  | .useVariable _ name => some (.unresolved .variable name)
  | .declare _ typeName _ _ => some (.unresolved .type typeName)
  | _ => none

/-- The steps that may neither bind nor report nor change a scope. -/
def mayPass : Step → Bool
  | .callFunction _ _ | .beginSet _ | .endSet => true
  | _ => false

/-- What a step finds for the node that it is about. -/
inductive Finds (s : Surroundings) (p : Progress) : Step → Binding → Prop
  | commonTable (n : NodeId) (name : String) :
      Finds s p (.defineTable n name) (.table (.commonTable n))
  | derived (n query : NodeId) (aliasName : String) :
      Finds s p (.deriveTable n query aliasName) (.table (.derived query))
  | table (n : NodeId) {identifier : String} (aliasName : String) {source : TableSource}
      (hsource : p.scopes.resolveTable s.provider identifier = .ok (some source)) :
      Finds s p (.useTable n identifier aliasName) (.table source)
  | enumValue (n : NodeId) {identifier : String} {member : EnumMember}
      (hmember : enumMember s identifier = .ok (some member)) :
      Finds s p (.useColumn n identifier) (.enumValue member)
  | column (n : NodeId) {identifier : String} {binding : Binding}
      (hmember : enumMember s identifier = .ok none)
      (hcolumn : p.scopes.resolveColumn s.tree s.strict (splitQualified identifier).1
        (lastPart identifier) = some binding) :
      Finds s p (.useColumn n identifier) binding
  | projection (reference column : NodeId) :
      Finds s p (.useProjection reference column) (.column column)
  | variableType (n : NodeId) {name : String} {type : VariableType}
      (htype : p.scopes.variableType? name = some type) :
      Finds s p (.useVariable n name) (.variable type)
  | function (n : NodeId) {name : String} {f : Builtin} (hf : Builtin.find? name = some f) :
      Finds s p (.callFunction n name) (.function f)
  | stored (n source : NodeId) (target : String) :
      Finds s p (.storeInto n source target) (.table (storedTable target source))
  | type (n : NodeId) {typeName : String} (name : String) {initializer : Option NodeId}
      {type : VariableType}
      (htype : declaredVariable s p.bindings typeName initializer = .ok (some type)) :
      Finds s p (.declare n typeName name initializer) (.type type)
  | assigned (n : NodeId) {identifier : String} {table : TableSource} {binding : Binding}
      (htable : p.targets.head?.join = some table)
      (hcolumn : s.tree.columnOf? table (lastPart identifier) = some binding) :
      Finds s p (.setColumn n identifier) binding

/-- The name that is registered when a step finds a binding. -/
inductive Registers : Step → Binding → Registration → Prop
  | commonTable (n : NodeId) (name : String) (source : TableSource) :
      Registers (.defineTable n name) (.table source) (.table name source)
  | derived (n query : NodeId) (aliasName : String) (source : TableSource) :
      Registers (.deriveTable n query aliasName) (.table source)
        (.aliasName aliasName ⟨n, source⟩)
  | table (n : NodeId) (identifier aliasName : String) (source : TableSource) :
      Registers (.useTable n identifier aliasName) (.table source)
        (.aliasName aliasName ⟨n, source⟩)
  | column (n : NodeId) (identifier : String) (binding : Binding) :
      Registers (.useColumn n identifier) binding (.column identifier binding)
  | stored (n source : NodeId) (target : String) (table : TableSource) :
      Registers (.storeInto n source target) (.table table) (.table target table)
  | type (n : NodeId) (typeName name : String) (initializer : Option NodeId)
      (type : VariableType) :
      Registers (.declare n typeName name initializer) (.type type) (.variableType name type)

/-- The scopes after a step found a binding: the name is registered in one of
them, or they stay as they are. -/
inductive Registered (step : Step) (b : Binding) (t : ScopeTree) : ScopeTree → Prop
  | unchanged : Registered step b t t
  | registered (id : ScopeId) {r : Registration} (hr : step.Registers b r) :
      Registered step b t (t.change id r.apply)

/-- What a step does to what is known. -/
inductive Takes (s : Surroundings) (p : Progress) (step : Step) : Progress → Prop
  | binds {n : NodeId} {b : Binding} {scopes : ScopeTree} (hn : step.subject? = some n)
      (hb : step.Finds s p b) (hscopes : step.Registered b p.scopes scopes) :
      Takes s p step { p.bind n b with scopes }
  | reports {d : Diagnostic} (hd : step.miss? = some d) :
      Takes s p step { p with diagnostics := p.diagnostics.push d }
  | enters {owner : NodeId} {kind : NodeKind} {correlated : Bool} {scopes : ScopeTree}
      (hstep : step = .enter owner kind correlated)
      (hscopes : p.scopes.enter owner kind correlated = .ok scopes) :
      Takes s p step { p with scopes }
  | leaves {scopes : ScopeTree} (hstep : step = .leave)
      (hscopes : p.scopes.leave = .ok scopes) : Takes s p step { p with scopes }
  | passes (targets : List (Option TableSource)) (hstep : step.mayPass) :
      Takes s p step { p with targets }

/-- A step asks the schema for something, and the schema fails with an error. -/
inductive FailsWith (s : Surroundings) (p : Progress) : Step → Error → Prop
  | table (n : NodeId) {identifier : String} (aliasName : String) {e : Error}
      (htable : p.scopes.table? identifier = none)
      (hvariable : ∀ d, p.scopes.variableType? identifier ≠ some (.record d))
      (herror : s.provider.object identifier = .error e) :
      FailsWith s p (.useTable n identifier aliasName) e
  | member (n : NodeId) {identifier : String} {e : Error}
      (hdots : 2 ≤ identifier.toList.count '.')
      (herror : s.provider.member identifier = .error e) :
      FailsWith s p (.useColumn n identifier) e
  | type (n : NodeId) {typeName : String} (name : String) (initializer : Option NodeId)
      {e : Error} (hkind : Kind.ofTypeName? typeName = none)
      (herror : s.provider.object typeName = .error e) :
      FailsWith s p (.declare n typeName name initializer) e

variable {s : Surroundings} {p q : Progress} {step : Step} {b : Binding}

/-- Registering a name leaves the frames and the current scope alone. -/
theorem Registered.same_frames {t t' : ScopeTree} (h : step.Registered b t t') :
    t'.frames = t.frames ∧ t'.current = t.current := by
  cases h with
  | unchanged => exact ⟨rfl, rfl⟩
  | registered id hr => exact ⟨ScopeTree.frames_change t id _, rfl⟩

/-- The tables of a scope after a step: those before it, and the one that it
registers. -/
theorem Registered.table_cases {t t' : ScopeTree} (h : step.Registered b t t') {id : ScopeId}
    {scope : Scope} {key : String} {source : TableSource} (hscope : t'.get? id = some scope)
    (hfind : scope.tables.find? key = some source) :
    (∃ old, t.get? id = some old ∧ old.tables.find? key = some source) ∨
      ∃ name, nameKey name = key ∧ step.Registers b (.table name source) := by
  cases h with
  | unchanged => exact Or.inl ⟨scope, hscope, hfind⟩
  | @registered id' r hr =>
      rw [ScopeTree.get?_change] at hscope
      obtain ⟨old, hold, rfl⟩ := Option.map_eq_some_iff.1 hscope
      split at hfind
      · cases r with
        | table name table =>
            simp only [Registration.apply, Scope.addTable] at hfind
            by_cases hkey : nameKey name = key
            · subst hkey
              obtain rfl : table = source := by simpa using hfind
              exact Or.inr ⟨name, rfl, hr⟩
            · rw [Directory.find?_insert_of_ne _ _ hkey] at hfind
              exact Or.inl ⟨old, hold, hfind⟩
        | aliasName | variableType | column => exact Or.inl ⟨old, hold, hfind⟩
      · exact Or.inl ⟨old, hold, hfind⟩

/-- The aliases of a scope after a step: those before it, and the one that it
registers. -/
theorem Registered.alias_cases {t t' : ScopeTree} (h : step.Registered b t t') {id : ScopeId}
    {scope : Scope} {target : AliasTarget} (hscope : t'.get? id = some scope)
    (hmem : target ∈ scope.aliases.values) :
    (∃ old, t.get? id = some old ∧ target ∈ old.aliases.values) ∨
      ∃ name, step.Registers b (.aliasName name target) := by
  cases h with
  | unchanged => exact Or.inl ⟨scope, hscope, hmem⟩
  | @registered id' r hr =>
      rw [ScopeTree.get?_change] at hscope
      obtain ⟨old, hold, rfl⟩ := Option.map_eq_some_iff.1 hscope
      split at hmem
      · cases r with
        | aliasName name added =>
            simp only [Registration.apply, Scope.addAlias] at hmem
            rcases Directory.mem_values_insert hmem with rfl | hmem
            · exact Or.inr ⟨name, hr⟩
            · exact Or.inl ⟨old, hold, hmem⟩
        | table | variableType | column => exact Or.inl ⟨old, hold, hmem⟩
      · exact Or.inl ⟨old, hold, hmem⟩

/-- What a node is bound to after a step: what it was bound to before, or what the
step found for it. -/
theorem Takes.find?_cases (h : step.Takes s p q) {n : NodeId}
    (hn : q.bindings.find? n = some b) :
    p.bindings.find? n = some b ∨ step.subject? = some n ∧ step.Finds s p b := by
  cases h with
  | @binds m b' scopes hm hb hscopes =>
      by_cases hmn : m = n
      · subst hmn
        obtain rfl : b' = b := by simpa [Progress.bind] using hn
        exact Or.inr ⟨hm, hb⟩
      · rw [Progress.bind, Directory.find?_insert_of_ne _ _ hmn] at hn
        exact Or.inl hn
  | reports | enters | leaves | passes => exact Or.inl hn

/-- A scope after a step: one from before it, or a new one without tables and aliases, or
one of the scopes after the step bound its node. -/
theorem Takes.scope_cases (h : step.Takes s p q) {id : ScopeId} {scope : Scope}
    (hscope : q.scopes.get? id = some scope) :
    p.scopes.get? id = some scope ∨ (scope.tables = .empty ∧ scope.aliases = .empty) ∨
      ∃ n b, step.subject? = some n ∧ q.bindings.find? n = some b ∧ step.Finds s p b ∧
        step.Registered b p.scopes q.scopes := by
  cases h with
  | @binds n b scopes hn hb hscopes =>
      exact Or.inr (Or.inr ⟨n, b, hn, by simp [Progress.bind], hb, hscopes⟩)
  | reports | passes => exact Or.inl hscope
  | enters hstep hscopes =>
      obtain ⟨-, rfl⟩ := ScopeTree.enter_eq_ok_iff.1 hscopes
      rw [ScopeTree.get?, Array.getElem?_push] at hscope
      split at hscope
      · cases hscope
        exact Or.inr (Or.inl ⟨rfl, rfl⟩)
      · exact Or.inl hscope
  | leaves hstep hscopes =>
      obtain ⟨id', -, rfl⟩ := ScopeTree.leave_eq_ok_iff.1 hscopes
      exact Or.inl hscope

/-- The tables of all scopes after a step: those before it, and one that the step
registers for what it found. -/
theorem Takes.table_cases (h : step.Takes s p q) {id : ScopeId} {scope : Scope} {key : String}
    {source : TableSource} (hscope : q.scopes.get? id = some scope)
    (hfind : scope.tables.find? key = some source) :
    (∃ old, p.scopes.get? id = some old ∧ old.tables.find? key = some source) ∨
      ∃ n b name, step.subject? = some n ∧ q.bindings.find? n = some b ∧ step.Finds s p b ∧
        nameKey name = key ∧ step.Registers b (.table name source) := by
  rcases h.scope_cases hscope with hold | ⟨hempty, -⟩ | ⟨n, b, hn, hbound, hb, hscopes⟩
  · exact Or.inl ⟨scope, hold, hfind⟩
  · rw [hempty] at hfind
    cases hfind
  · rcases hscopes.table_cases hscope hfind with hold | ⟨name, hkey, hr⟩
    · exact Or.inl hold
    · exact Or.inr ⟨n, b, name, hn, hbound, hb, hkey, hr⟩

/-- The aliases of all scopes after a step: those before it, and one that the step
registers for what it found. -/
theorem Takes.alias_cases (h : step.Takes s p q) {id : ScopeId} {scope : Scope}
    {target : AliasTarget} (hscope : q.scopes.get? id = some scope)
    (hmem : target ∈ scope.aliases.values) :
    (∃ old, p.scopes.get? id = some old ∧ target ∈ old.aliases.values) ∨
      ∃ n b name, step.subject? = some n ∧ q.bindings.find? n = some b ∧ step.Finds s p b ∧
        step.Registers b (.aliasName name target) := by
  rcases h.scope_cases hscope with hold | ⟨-, hempty⟩ | ⟨n, b, hn, hbound, hb, hscopes⟩
  · exact Or.inl ⟨scope, hold, hmem⟩
  · rw [hempty] at hmem
    cases hmem
  · rcases hscopes.alias_cases hscope hmem with hold | ⟨name, hr⟩
    · exact Or.inl hold
    · exact Or.inr ⟨n, b, name, hn, hbound, hb, hr⟩

/-- Scopes are changed or the tree is malformed. -/
theorem changeScopes_eq_finished {change : ScopeTree → Except StructureFault ScopeTree}
    (h : p.changeScopes change = .finished q) :
    ∃ scopes, change p.scopes = .ok scopes ∧ q = { p with scopes } := by
  simp only [Progress.changeScopes] at h
  split at h
  · rename_i scopes hscopes
    cases h
    exact ⟨scopes, hscopes, rfl⟩
  · cases h

theorem changeScopes_ne_schemaFailed {change : ScopeTree → Except StructureFault ScopeTree}
    {detail : String} : p.changeScopes change ≠ .schemaFailed q detail := by
  simp only [Progress.changeScopes]
  split <;> exact fun h => by cases h

/-- An answer of the schema is gone on with. -/
theorem ask_eq_finished {α : Type} {answer : Except Error α} {next : α → Progress → Outcome}
    (h : p.ask answer next = .finished q) : ∃ a, answer = .ok a ∧ next a p = .finished q := by
  cases answer with
  | ok a => exact ⟨a, rfl, h⟩
  | error e => cases h

/-- A schema fails by itself or in what is done with its answer. -/
theorem ask_eq_schemaFailed {α : Type} {answer : Except Error α}
    {next : α → Progress → Outcome} {detail : String}
    (h : p.ask answer next = .schemaFailed q detail) :
    (q = p ∧ ∃ e, answer = .error e ∧ detail = e.asSchemaDetail) ∨
      ∃ a, next a p = .schemaFailed q detail := by
  cases answer with
  | ok a => exact Or.inr ⟨a, h⟩
  | error e =>
      cases h
      exact Or.inl ⟨rfl, e, rfl, rfl⟩

/-- The name of a table is asked for only if nothing in the script has it. -/
theorem resolveTable_eq_error_iff {name : String} {e : Error} :
    p.scopes.resolveTable s.provider name = .error e ↔
      p.scopes.table? name = none ∧ (∀ d, p.scopes.variableType? name ≠ some (.record d)) ∧
        s.provider.object name = .error e := by
  unfold ScopeTree.resolveTable
  cases p.scopes.table? name with
  | some source => simp
  | none =>
      rcases hvariable : p.scopes.variableType? name with _ | (_ | _ | d) <;>
        cases s.provider.object name <;> simp [Except.map]

/-- A type is asked for only if it is no kind of values. -/
theorem declaredVariable_eq_error_iff {bindings : Bindings} {typeName : String}
    {initializer : Option NodeId} {e : Error} :
    declaredVariable s bindings typeName initializer = .error e ↔
      Kind.ofTypeName? typeName = none ∧ s.provider.object typeName = .error e := by
  unfold declaredVariable
  rcases Kind.ofTypeName? typeName with _ | kind
  · cases s.provider.object typeName <;> simp [Except.map]
  · cases kind <;> simp

/-- A member is asked for only if the identifier has two dots. -/
theorem enumMember_eq_error_iff {identifier : String} {e : Error} :
    enumMember s identifier = .error e ↔
      2 ≤ identifier.toList.count '.' ∧ s.provider.member identifier = .error e := by
  unfold enumMember
  by_cases hdots : 2 ≤ identifier.toList.count '.' <;> simp [hdots]

/-- A step that binds its node and registers a name in the current scope. -/
theorem takes_of_register {n : NodeId} {r : Registration}
    {change : ScopeTree → Except StructureFault ScopeTree}
    (hn : step.subject? = some n) (hb : step.Finds s p b) (hr : step.Registers b r)
    (hchange : ∀ t, change t = t.changeCurrent r.apply)
    (h : (p.bind n b).changeScopes change = .finished q) : step.Takes s p q := by
  obtain ⟨scopes, hscopes, rfl⟩ := changeScopes_eq_finished h
  obtain ⟨id, -, rfl⟩ := ScopeTree.changeCurrent_eq_ok_iff.1 ((hchange _).symm.trans hscopes)
  exact .binds hn hb (.registered id hr)

/-- **What steps do.**  A step that can be taken binds, reports, enters, leaves
or passes. -/
theorem takes_of_perform (h : step.perform s p = .finished q) : step.Takes s p q := by
  cases step with
  | enter owner kind correlated =>
      rw [perform] at h
      obtain ⟨scopes, hscopes, rfl⟩ := changeScopes_eq_finished h
      exact .enters rfl hscopes
  | leave =>
      obtain ⟨scopes, hscopes, rfl⟩ := changeScopes_eq_finished h
      exact .leaves rfl hscopes
  | defineTable n name =>
      exact takes_of_register rfl (.commonTable n name) (.commonTable n name _) (fun _ => rfl) h
  | deriveTable n query aliasName =>
      exact takes_of_register rfl (.derived n query aliasName) (.derived n query aliasName _)
        (fun _ => rfl) h
  | useTable n identifier aliasName =>
      obtain ⟨found, hfound, h⟩ := ask_eq_finished h
      cases found with
      | none =>
          cases h
          exact .reports rfl
      | some source =>
          exact takes_of_register rfl (.table n aliasName hfound)
            (.table n identifier aliasName source) (fun _ => rfl) h
  | useColumn n identifier =>
      obtain ⟨found, hfound, h⟩ := ask_eq_finished h
      cases found with
      | some member =>
          cases h
          exact .binds rfl (.enumValue n hfound) .unchanged
      | none =>
          simp only [Progress.bindColumn] at h
          split at h
          · rename_i binding hbinding
            exact takes_of_register rfl (.column n hfound hbinding)
              (.column n identifier binding) (fun _ => rfl) h
          · cases h
            exact .reports rfl
  | useProjection reference column =>
      cases h
      exact .binds rfl (.projection reference column) .unchanged
  | useVariable n name =>
      simp only [perform] at h
      split at h
      · rename_i htype
        cases h
        exact .binds rfl (.variableType n htype) .unchanged
      · cases h
        exact .reports rfl
  | callFunction n name =>
      simp only [perform] at h
      split at h
      · rename_i hf
        cases h
        exact .binds rfl (.function n hf) .unchanged
      · cases h
        exact .passes p.targets rfl
  | storeInto n source target =>
      simp only [perform] at h
      split at h
      · rename_i id _
        obtain ⟨scopes, hscopes, rfl⟩ := changeScopes_eq_finished h
        cases hscopes
        exact .binds rfl (.stored n source target) (.registered id (.stored n source target _))
      · cases h
  | declare n typeName name initializer =>
      obtain ⟨found, hfound, h⟩ := ask_eq_finished h
      cases found with
      | none =>
          cases h
          exact .reports rfl
      | some type =>
          exact takes_of_register rfl (.type n name hfound)
            (.type n typeName name initializer type) (fun _ => rfl) h
  | beginSet target =>
      cases h
      exact .passes _ rfl
  | setColumn n identifier =>
      simp only [perform] at h
      split at h
      · rename_i binding hbinding
        obtain ⟨table, htable, hcolumn⟩ := Option.bind_eq_some_iff.1 hbinding
        cases h
        exact .binds rfl (.assigned n htable hcolumn) .unchanged
      · cases h
        exact .reports rfl
  | endSet =>
      cases h
      exact .passes _ rfl
  | reject fault => cases h

/-- **Where the schema fails.**  A step ends in a failure of the schema if it asks
for something at which the schema fails, and then nothing was done. -/
theorem perform_eq_schemaFailed_iff {detail : String} :
    step.perform s p = .schemaFailed q detail ↔
      q = p ∧ ∃ e, step.FailsWith s p e ∧ detail = e.asSchemaDetail := by
  constructor
  · intro h
    cases step with
    | useTable n identifier aliasName =>
        rcases ask_eq_schemaFailed h with ⟨rfl, e, he, hdetail⟩ | ⟨found, h⟩
        · obtain ⟨htable, hvariable, herror⟩ := resolveTable_eq_error_iff.1 he
          exact ⟨rfl, e, .table n aliasName htable hvariable herror, hdetail⟩
        · cases found with
          | none => cases h
          | some source =>
              rw [Progress.bindTable] at h
              exact (changeScopes_ne_schemaFailed h).elim
    | useColumn n identifier =>
        rcases ask_eq_schemaFailed h with ⟨rfl, e, he, hdetail⟩ | ⟨found, h⟩
        · obtain ⟨hdots, herror⟩ := enumMember_eq_error_iff.1 he
          exact ⟨rfl, e, .member n hdots herror, hdetail⟩
        · cases found with
          | some member => cases h
          | none =>
              simp only [Progress.bindColumn] at h
              split at h
              · exact (changeScopes_ne_schemaFailed h).elim
              · cases h
    | declare n typeName name initializer =>
        rcases ask_eq_schemaFailed h with ⟨rfl, e, he, hdetail⟩ | ⟨found, h⟩
        · obtain ⟨hkind, herror⟩ := declaredVariable_eq_error_iff.1 he
          exact ⟨rfl, e, .type n name initializer hkind herror, hdetail⟩
        · cases found with
          | none => cases h
          | some type =>
              rw [Progress.bindType] at h
              exact (changeScopes_ne_schemaFailed h).elim
    | enter | leave | defineTable | deriveTable =>
        rw [perform] at h
        exact (changeScopes_ne_schemaFailed h).elim
    | storeInto n source target =>
        simp only [perform] at h
        split at h
        · exact (changeScopes_ne_schemaFailed h).elim
        · cases h
    | useVariable | callFunction | setColumn =>
        simp only [perform] at h
        split at h <;> cases h
    | useProjection | beginSet | endSet | reject => cases h
  · rintro ⟨rfl, e, hfails, rfl⟩
    cases hfails with
    | table n aliasName htable hvariable herror =>
        simp only [perform, resolveTable_eq_error_iff.2 ⟨htable, hvariable, herror⟩, Progress.ask]
    | member n hdots herror =>
        simp only [perform, enumMember_eq_error_iff.2 ⟨hdots, herror⟩, Progress.ask]
    | type n name initializer hkind herror =>
        simp only [perform, declaredVariable_eq_error_iff.2 ⟨hkind, herror⟩, Progress.ask]

/-- **A failing schema costs nothing.**  Where the schema fails, what is known
is what was known before the step. -/
theorem eq_of_schemaFailed {detail : String} (h : step.perform s p = .schemaFailed q detail) :
    q = p :=
  (perform_eq_schemaFailed_iff.1 h).1

end Step

/-- What is known where steps lead to, unless the tree is malformed. -/
def Outcome.progress? : Outcome → Option Progress
  | .finished p | .schemaFailed p _ => some p
  | .malformed _ => none

namespace Walk

variable {s : Surroundings} {p q : Progress} {l : List Step}

/-- A run ends at once where its first step fails, and goes on otherwise. -/
theorem run_cons_eq_finished {step : Step} (h : run s (step :: l) p = .finished q) :
    ∃ m, step.perform s p = .finished m ∧ run s l m = .finished q := by
  simp only [run] at h
  cases hstep : step.perform s p <;> simp_all [Outcome.andThen]

/-- Steps after steps can all be taken if both can. -/
theorem run_append_eq_finished {first second : List Step}
    (h : run s (first ++ second) p = .finished q) :
    ∃ m, run s first p = .finished m ∧ run s second m = .finished q := by
  rw [run_append] at h
  cases hfirst : run s first p <;> simp_all [Outcome.andThen]

/-- Steps that all can be taken do not refuse the tree. -/
theorem legal_of_run (h : run s l p = .finished q) : Legal l := by
  induction l generalizing p with
  | nil => exact fun _ hfault => by cases hfault
  | cons step rest ih =>
      obtain ⟨m, hstep, hrest⟩ := run_cons_eq_finished h
      intro fault hfault
      rcases List.mem_cons.1 hfault with rfl | hfault
      · cases hstep
      · exact ih hrest fault hfault

/-- A step that can be taken does not refuse the tree. -/
theorem Legal.concat {done : List Step} {step : Step} (h : Legal done)
    (htakes : step.Takes s p q) : Legal (done ++ [step]) := by
  intro fault hfault
  rcases List.mem_append.1 hfault with hfault | hfault
  · exact h fault hfault
  · obtain rfl := List.mem_singleton.1 hfault
    cases htakes with
    | binds hn | reports hn | enters hn | leaves hn | passes targets hn => cases hn

/-- **Invariants of runs.**  What every step keeps holds at the end of a run,
also where the schema fails. -/
theorem run_invariant (I : Progress → Prop)
    (hstep : ∀ step ∈ l, ∀ p q, I p → step.Takes s p q → I q) (hp : I p)
    (h : (run s l p).progress? = some q) : I q := by
  induction l generalizing p with
  | nil =>
      cases h
      exact hp
  | cons step rest ih =>
      simp only [run] at h
      cases hperform : step.perform s p with
      | finished m =>
          rw [hperform] at h
          have hm := hstep step List.mem_cons_self p m hp (Step.takes_of_perform hperform)
          exact ih (fun step' hmem => hstep step' (List.mem_cons_of_mem step hmem)) hm h
      | schemaFailed m detail =>
          rw [hperform] at h
          cases h
          exact Step.eq_of_schemaFailed hperform ▸ hp
      | malformed fault =>
          rw [hperform] at h
          cases h

/-- **Invariants of the steps done.**  What every step keeps of the steps before it
and what is known then holds of the steps that a run took. -/
theorem run_invariant_done (I : List Step → Progress → Prop) (done : List Step)
    (hstep : ∀ first step rest p m, done ++ l = first ++ step :: rest → I first p →
      step.perform s p = .finished m → (run s rest m).progress? = some q → I (first ++ [step]) m)
    (hp : I done p) (h : (run s l p).progress? = some q) :
    ∃ first rest, done ++ l = first ++ rest ∧ I first q := by
  induction l generalizing done p with
  | nil =>
      cases h
      exact ⟨done, [], rfl, hp⟩
  | cons step rest ih =>
      simp only [run] at h
      cases hperform : step.perform s p with
      | finished m =>
          rw [hperform] at h
          have hm := hstep done step rest p m rfl hp hperform h
          obtain ⟨first, rest', heq, hq⟩ := ih (done ++ [step])
            (fun first step' rest' p' m' heq => hstep first step' rest' p' m' (by simpa using heq))
            hm h
          exact ⟨first, rest', by simpa using heq, hq⟩
      | schemaFailed m detail =>
          rw [hperform] at h
          cases h
          exact ⟨done, step :: rest, rfl, Step.eq_of_schemaFailed hperform ▸ hp⟩
      | malformed fault =>
          rw [hperform] at h
          cases h

end Walk

section

variable {config : Config} {tree : Tree} {provider : Provider} {root : NodeId}
  {bound : BoundScript}

/-- Binding took all steps of the walk, or the schema failed on the way. -/
theorem bindScript_eq_ok_cases (h : bindScript config tree provider root = .ok bound) :
    (∃ q, Walk.run ⟨tree, provider, config.strict⟩ (tree.walk config.maxDepth root) {} =
        .finished q ∧ bound = .ofProgress q) ∨
      ∃ q detail, Walk.run ⟨tree, provider, config.strict⟩ (tree.walk config.maxDepth root) {} =
        .schemaFailed q detail ∧ bound = .ofFailure q detail := by
  rw [bindScript_eq_run] at h
  cases hrun : Walk.run ⟨tree, provider, config.strict⟩ (tree.walk config.maxDepth root) {} with
  | finished q =>
      rw [hrun] at h
      cases h
      exact Or.inl ⟨q, rfl, rfl⟩
  | schemaFailed q detail =>
      rw [hrun] at h
      cases h
      exact Or.inr ⟨q, detail, rfl, rfl⟩
  | malformed fault =>
      rw [hrun] at h
      cases h

/-- The bindings that are returned are those known at the end of the walk. -/
theorem exists_progress_of_bindScript (h : bindScript config tree provider root = .ok bound) :
    ∃ q, (Walk.run ⟨tree, provider, config.strict⟩ (tree.walk config.maxDepth root)
      {}).progress? = some q ∧ bound.bindings = q.bindings := by
  rcases bindScript_eq_ok_cases h with ⟨q, hrun, rfl⟩ | ⟨q, detail, hrun, rfl⟩
  · exact ⟨q, by rw [hrun, Outcome.progress?], rfl⟩
  · exact ⟨q, by rw [hrun, Outcome.progress?], rfl⟩

/-- Where no schema failed, binding took all steps of the walk. -/
theorem exists_run_of_bindScript (h : bindScript config tree provider root = .ok bound)
    (hschema : ∀ detail, Diagnostic.schema detail ∉ bound.diagnostics) :
    ∃ q, Walk.run ⟨tree, provider, config.strict⟩ (tree.walk config.maxDepth root) {} =
      .finished q ∧ bound = .ofProgress q := by
  rcases bindScript_eq_ok_cases h with hfinished | ⟨q, detail, -, rfl⟩
  · exact hfinished
  · exact (hschema detail (by simp [BoundScript.ofFailure])).elim

end

end UnionScript
