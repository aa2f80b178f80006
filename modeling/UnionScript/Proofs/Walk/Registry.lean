import UnionScript.Proofs.Walk.Effect

/-!
# What is registered where

Three kinds of steps register names that tables are looked up by: a common table
and a variable are registered in the current scope, a stored table in the scope
that storage goes to.  The latest registration of a name counts.

* `Step.commonTable?`, `Step.storedTable?`, `Step.declaredType?` — what a step
  registers under a name;
* `Walk.latest?` — the latest answer that steps give;
* `Step.tableIn?_of_defineTable`, `Step.tableIn?_of_storeInto`,
  `Step.variableIn?_of_declare` — what these steps change, and
  `Step.tableIn?_of_other`, `Step.variableIn?_of_other` — that no others change
  anything.
-/

namespace UnionScript

namespace Step

/-- The common table that a step defines under a name. -/
def commonTable? (key : String) : Step → Option TableSource
  | .defineTable n name => if nameKey name = key then some (.commonTable n) else none
  | _ => none

/-- The table that a step stores rows in under a name. -/
def storedTable? (key : String) : Step → Option TableSource
  | .storeInto _ source target =>
    if nameKey target = key then some (storedTable target source) else none
  | _ => none

/-- The type of the variable that a step declares under a name, if the type was
resolved. -/
def declaredType? (bindings : Bindings) (key : String) : Step → Option VariableType
  | .declare type _ name _ =>
    if nameKey name = key then (bindings.find? type).bind Binding.variableType? else none
  | _ => none

/-- Common tables are defined by the steps made for them. -/
theorem commonTable?_eq_some_iff {key : String} {step : Step} {table : TableSource} :
    step.commonTable? key = some table ↔
      ∃ n name, step = .defineTable n name ∧ nameKey name = key ∧ table = .commonTable n := by
  cases step <;> simp [commonTable?, eq_comm, and_assoc]

/-- Stored tables are registered by the steps made for them. -/
theorem storedTable?_eq_some_iff {key : String} {step : Step} {table : TableSource} :
    step.storedTable? key = some table ↔
      ∃ n source target, step = .storeInto n source target ∧ nameKey target = key ∧
        table = storedTable target source := by
  cases step <;> simp [storedTable?, eq_comm, and_assoc]

end Step

namespace Walk

variable {α : Type}

/-- The latest answer that steps give. -/
def latest? (f : Step → Option α) (l : List Step) : Option α :=
  l.reverse.findSome? f

@[simp]
theorem latest?_nil (f : Step → Option α) : latest? f [] = none := rfl

/-- Of two lists of steps the second one has the later answer. -/
theorem latest?_append (f : Step → Option α) (first second : List Step) :
    latest? f (first ++ second) = (latest? f second).or (latest? f first) := by
  simp [latest?, List.findSome?_append]

@[simp]
theorem latest?_singleton (f : Step → Option α) (step : Step) :
    latest? f [step] = f step := by
  simp only [latest?, List.reverse_singleton, List.findSome?_cons, List.findSome?_nil]
  cases f step <;> rfl

/-- A step that is taken first has the earliest answer. -/
theorem latest?_cons (f : Step → Option α) (step : Step) (rest : List Step) :
    latest? f (step :: rest) = (latest? f rest).or (f step) := by
  rw [← List.singleton_append, latest?_append, latest?_singleton]

/-- The latest answer is that of one of the steps. -/
theorem exists_mem_of_latest? {f : Step → Option α} {l : List Step} {a : α}
    (h : latest? f l = some a) : ∃ step ∈ l, f step = some a := by
  obtain ⟨step, hmem, ha⟩ := List.exists_of_findSome?_eq_some h
  exact ⟨step, List.mem_reverse.1 hmem, ha⟩

/-- After the step with the latest answer there are no more answers. -/
theorem exists_split_of_latest? {f : Step → Option α} {l : List Step} {a : α}
    (h : latest? f l = some a) :
    ∃ first step rest, l = first ++ step :: rest ∧ f step = some a ∧ ∀ s ∈ rest, f s = none := by
  obtain ⟨later, step, earlier, hsplit, hstep, hnone⟩ := List.findSome?_eq_some_iff.1 h
  refine ⟨earlier.reverse, step, later.reverse, ?_, hstep, ?_⟩
  · rw [← List.reverse_inj, hsplit]
    simp
  · exact fun s hs => hnone s (List.mem_reverse.1 hs)

/-- Steps that give no answer have no latest one. -/
theorem latest?_eq_none_iff {f : Step → Option α} {l : List Step} :
    latest? f l = none ↔ ∀ step ∈ l, f step = none := by
  simp [latest?]

end Walk

namespace ScopeTree

variable {t t' : ScopeTree}

/-- The table registered under a key in a scope. -/
def tableIn? (t : ScopeTree) (id : ScopeId) (key : String) : Option TableSource :=
  (t.get? id).bind (·.tables.find? key)

/-- The variable registered under a key in a scope. -/
def variableIn? (t : ScopeTree) (id : ScopeId) (key : String) : Option VariableType :=
  (t.get? id).bind (·.variableTypes.find? key)

/-- Registering a name changes one entry of one scope. -/
theorem find?_of_insert {α : Type} {f : Scope → Directory String α} {g : Scope → Scope}
    {name : String} {a : α} (hg : ∀ s, f (g s) = (f s).insert (nameKey name) a) {id : ScopeId}
    (hid : id < t.size) (i : ScopeId) (key : String) :
    ((t.change id g).get? i).bind (fun s => (f s).find? key) =
      if i = id ∧ nameKey name = key then some a
      else (t.get? i).bind (fun s => (f s).find? key) := by
  rw [get?_change]
  by_cases hi : i = id
  · subst hi
    obtain ⟨s, hs⟩ := get?_isSome_iff.2 hid
    simp only [hs, Option.map_some, Option.bind_some, if_true, hg, true_and]
    by_cases hkey : nameKey name = key
    · simp [hkey]
    · rw [if_neg hkey, Directory.find?_insert_of_ne _ _ hkey]
  · have hne : ¬ id = i := fun heq => hi heq.symm
    simp [hi, hne]

theorem tableIn?_addTable {id : ScopeId} (hid : id < t.size) (name : String)
    (source : TableSource) (i : ScopeId) (key : String) :
    (t.change id (Scope.addTable name source)).tableIn? i key =
      if i = id ∧ nameKey name = key then some source else t.tableIn? i key :=
  find?_of_insert (f := Scope.tables) (fun _ => rfl) hid i key

theorem variableIn?_addVariable {id : ScopeId} (hid : id < t.size) (name : String)
    (type : VariableType) (i : ScopeId) (key : String) :
    (t.change id (Scope.addVariable name type)).variableIn? i key =
      if i = id ∧ nameKey name = key then some type else t.variableIn? i key :=
  find?_of_insert (f := Scope.variableTypes) (fun _ => rfl) hid i key

/-- What is registered in scopes stays when a scope is entered, and nothing is
registered in the new one. -/
theorem bind_get?_of_enter {α : Type} {f : Scope → Option α}
    (hf : ∀ owner kind correlated, f (t.fresh owner kind correlated) = none) {owner : NodeId}
    {kind : NodeKind} {correlated : Bool} (h : t.enter owner kind correlated = .ok t')
    (i : ScopeId) : (t'.get? i).bind f = (t.get? i).bind f := by
  obtain ⟨-, rfl⟩ := enter_eq_ok_iff.1 h
  simp only [get?, Array.getElem?_push]
  split
  · rename_i hi
    subst hi
    simp [hf]
  · rfl

/-- What is registered in scopes stays when a scope is left. -/
theorem bind_get?_of_leave {α : Type} (f : Scope → Option α) (h : t.leave = .ok t')
    (i : ScopeId) : (t'.get? i).bind f = (t.get? i).bind f := by
  obtain ⟨id, -, rfl⟩ := leave_eq_ok_iff.1 h
  rfl

/-- A registration that leaves something alone leaves it alone in all scopes. -/
theorem bind_get?_change {α : Type} {f : Scope → Option α} {g : Scope → Scope}
    (hf : ∀ s, f (g s) = f s) (id i : ScopeId) :
    ((t.change id g).get? i).bind f = (t.get? i).bind f := by
  rw [get?_change]
  cases t.get? i with
  | none => rfl
  | some s =>
      simp only [Option.map_some, Option.bind_some]
      split
      · exact hf s
      · rfl

end ScopeTree

namespace Step

variable {s : Surroundings} {p q : Progress} {step : Step} {id : ScopeId}

/-- Only the definition of a common table and the storing of rows register
tables. -/
theorem tableIn?_of_other (h : step.perform s p = .finished q)
    (hdefine : ∀ n name, step ≠ .defineTable n name)
    (hstore : ∀ n source target, step ≠ .storeInto n source target) (i : ScopeId)
    (key : String) : q.scopes.tableIn? i key = p.scopes.tableIn? i key := by
  cases takes_of_perform h with
  | binds hn hb hscopes =>
      cases hscopes with
      | unchanged => rfl
      | registered id hr =>
          cases hr with
          | commonTable n name => exact (hdefine n name rfl).elim
          | stored n source target => exact (hstore n source target rfl).elim
          | derived | table | column | type =>
              refine ScopeTree.bind_get?_change ?_ id i
              exact fun _ => rfl
  | reports | passes => rfl
  | enters _ hscopes =>
      exact ScopeTree.bind_get?_of_enter (fun _ _ _ => Directory.find?_empty key) hscopes i
  | leaves _ hscopes => exact ScopeTree.bind_get?_of_leave _ hscopes i

/-- Only declarations register variables. -/
theorem variableIn?_of_other (h : step.perform s p = .finished q)
    (hdeclare : ∀ n typeName name initializer, step ≠ .declare n typeName name initializer)
    (i : ScopeId) (key : String) :
    q.scopes.variableIn? i key = p.scopes.variableIn? i key := by
  cases takes_of_perform h with
  | binds hn hb hscopes =>
      cases hscopes with
      | unchanged => rfl
      | registered id hr =>
          cases hr with
          | type n typeName name initializer =>
              exact (hdeclare n typeName name initializer rfl).elim
          | commonTable | stored | derived | table | column =>
              refine ScopeTree.bind_get?_change ?_ id i
              exact fun _ => rfl
  | reports | passes => rfl
  | enters _ hscopes =>
      exact ScopeTree.bind_get?_of_enter (fun _ _ _ => Directory.find?_empty key) hscopes i
  | leaves _ hscopes => exact ScopeTree.bind_get?_of_leave _ hscopes i

/-- A common table is registered in the current scope. -/
theorem tableIn?_of_defineTable {n : NodeId} {name : String}
    (h : (defineTable n name).perform s p = .finished q) (hcurrent : p.scopes.current = some id)
    (hid : id < p.scopes.size) (i : ScopeId) (key : String) :
    q.scopes.tableIn? i key =
      if i = id then ((defineTable n name).commonTable? key).or (p.scopes.tableIn? i key)
      else p.scopes.tableIn? i key := by
  simp only [perform] at h
  obtain ⟨scopes, hscopes, rfl⟩ := changeScopes_eq_finished h
  obtain ⟨c, hc, rfl⟩ := ScopeTree.changeCurrent_eq_ok_iff.1 hscopes
  obtain rfl : id = c := Option.some.inj (hcurrent.symm.trans hc)
  change (p.scopes.change id _).tableIn? i key = _
  rw [ScopeTree.tableIn?_addTable hid]
  by_cases hi : i = id
  · by_cases hkey : nameKey name = key <;> simp [hi, hkey, commonTable?]
  · simp [hi]

/-- Rows are stored in a table of the scope that storage goes to. -/
theorem tableIn?_of_storeInto {n source : NodeId} {target : String}
    (h : (storeInto n source target).perform s p = .finished q)
    (hstorage : storageScope? p.scopes = some id) (hid : id < p.scopes.size) (i : ScopeId)
    (key : String) :
    q.scopes.tableIn? i key =
      if i = id then ((storeInto n source target).storedTable? key).or (p.scopes.tableIn? i key)
      else p.scopes.tableIn? i key := by
  simp only [perform, hstorage] at h
  obtain ⟨scopes, hscopes, rfl⟩ := changeScopes_eq_finished h
  cases hscopes
  change (p.scopes.change id _).tableIn? i key = _
  rw [ScopeTree.tableIn?_addTable hid]
  by_cases hi : i = id
  · by_cases hkey : nameKey target = key <;> simp [hi, hkey, storedTable?]
  · simp [hi]

/-- A variable is registered in the current scope if its type is resolved. -/
theorem variableIn?_of_declare {n : NodeId} {typeName name : String}
    {initializer : Option NodeId}
    (h : (declare n typeName name initializer).perform s p = .finished q)
    (hcurrent : p.scopes.current = some id) (hid : id < p.scopes.size)
    (hfresh : p.bindings.find? n = none) (i : ScopeId) (key : String) :
    q.scopes.variableIn? i key =
      if i = id then
        ((declare n typeName name initializer).declaredType? q.bindings key).or
          (p.scopes.variableIn? i key)
      else p.scopes.variableIn? i key := by
  obtain ⟨found, -, h⟩ := ask_eq_finished h
  cases found with
  | none =>
      cases h
      simp [declaredType?, Progress.report, hfresh]
  | some type =>
      simp only [Progress.bindType] at h
      obtain ⟨scopes, hscopes, rfl⟩ := changeScopes_eq_finished h
      obtain ⟨c, hc, rfl⟩ := ScopeTree.changeCurrent_eq_ok_iff.1 hscopes
      obtain rfl : id = c := Option.some.inj (hcurrent.symm.trans hc)
      change (p.scopes.change id _).variableIn? i key = _
      rw [ScopeTree.variableIn?_addVariable hid]
      by_cases hi : i = id
      · by_cases hkey : nameKey name = key <;>
          simp [hi, hkey, declaredType?, Progress.bind, Binding.variableType?]
      · simp [hi]

end Step

end UnionScript
