import UnionScript.Proofs.Scope.Stack

/-!
# Scopes that were left

Between entering a scope and leaving it, all that happens happens in that scope
and inside of it: names are registered in the current scope, which is on top of
the stack, and leaving scopes uncovers no more of the stack than was there when
the scope was entered (`Above`).  So what was there before is untouched, and
once the scope is left nothing shows that it was ever entered.

The main statement is `frames_are_transparent`: the same scope is current as
before, all earlier scopes are as they were, and every look-up gives the answer
that it gave before.  It holds for any actions in between, also for those that
fail, if they do not leave the scope too early and register nothing outside.
-/

namespace UnionScript

/-- An action that neither leaves a given scope nor registers a name in a scope
that was entered before it. -/
def ScopeAction.Spares (first : ScopeId) (t : ScopeTree) : ScopeAction → Prop
  | .enter _ _ _ | .register _ => True
  | .leave => t.current ≠ some first
  | .leaveAll => False
  | .registerAt id _ => first ≤ id

instance (first : ScopeId) (t : ScopeTree) (a : ScopeAction) : Decidable (a.Spares first t) :=
  match a with
  | .enter _ _ _ | .register _ => isTrue trivial
  | .leave => inferInstanceAs (Decidable (t.current ≠ some first))
  | .leaveAll => isFalse id
  | .registerAt id _ => inferInstanceAs (Decidable (first ≤ id))

namespace ScopeTree

/-- Actions in turn, none of which leaves a given scope or registers a name in a
scope that was entered before it. -/
def KeepsOpen (first : ScopeId) : ScopeTree → List ScopeAction → Prop
  | _, [] => True
  | t, a :: rest => a.Spares first t ∧ KeepsOpen first (t.act a) rest

instance decidableKeepsOpen (first : ScopeId) :
    (t : ScopeTree) → (actions : List ScopeAction) → Decidable (KeepsOpen first t actions)
  | _, [] => isTrue trivial
  | t, a :: rest =>
    have := decidableKeepsOpen first (t.act a) rest
    inferInstanceAs (Decidable (a.Spares first t ∧ KeepsOpen first (t.act a) rest))

variable {base t t' : ScopeTree} {top : ScopeId}

/-- Entering a scope changes no other scope. -/
theorem get?_of_enter_of_lt {owner : NodeId} {kind : NodeKind} {correlated : Bool}
    (hentered : t.enter owner kind correlated = .ok t') {id : ScopeId} (hid : id < t.size) :
    t'.get? id = t.get? id := by
  obtain ⟨-, rfl⟩ := enter_eq_ok_iff.1 hentered
  have hne : id ≠ t.scopes.size := Nat.ne_of_lt hid
  simp [get?, Array.getElem?_push, hne]

/-- Where scopes stand does not depend on which one is current. -/
theorem physicalChain_mk (t : ScopeTree) (current start : Option ScopeId) :
    physicalChain ⟨t.scopes, current⟩ start = t.physicalChain start := by
  have halong : ∀ fuel start, along ⟨t.scopes, current⟩ Scope.physicalParent fuel start =
      t.along Scope.physicalParent fuel start := by
    intro fuel
    induction fuel with
    | zero => exact fun _ => rfl
    | succ fuel ih =>
        rintro (_ | id)
        · rfl
        · have hget : get? ⟨t.scopes, current⟩ id = t.get? id := rfl
          simp only [along, hget]
          cases t.get? id with
          | none => rfl
          | some s => exact congrArg _ (ih s.physicalParent)
  exact halong t.size start

/-- The tree inside of a scope that is open: the scope or one that was entered
since is current, and if it is one that was entered since then leaving it does
not lead out of the scope. -/
theorem Inside.current_cases (hinside : Inside base t) (hbase : Nested base.frames base.current)
    (h : Nested t.frames t.current) (htop : base.current = some top) :
    t.current = some top ∨
      ∃ id s, t.current = some id ∧ t.get? id = some s ∧ base.size ≤ id ∧
        Inside base ⟨t.scopes, s.physicalParent⟩ := by
  obtain ⟨new, hstack, hlater⟩ := hinside.stack
  obtain ⟨outer, houter⟩ := get?_isSome_iff.2 (current_lt_size hbase htop)
  cases hcurrent : t.current with
  | none => simp [hcurrent, htop, physicalChain_none, physicalChain_some hbase houter] at hstack
  | some id =>
      obtain ⟨s, hs⟩ := get?_isSome_iff.2 (current_lt_size h hcurrent)
      rw [hcurrent, physicalChain_some h hs] at hstack
      cases new with
      | nil =>
          rw [htop, physicalChain_some hbase houter, List.nil_append, List.cons.injEq] at hstack
          exact Or.inl (congrArg some hstack.1)
      | cons i new =>
          rw [List.cons_append, List.cons.injEq] at hstack
          obtain ⟨rfl, hrest⟩ := hstack
          rw [List.forall_mem_cons] at hlater
          refine Or.inr ⟨id, s, rfl, hs, hlater.1, hinside.grown, new, ?_, hlater.2⟩
          rw [physicalChain_mk]
          exact hrest

/-- What holds between entering a scope and leaving it.  The tree `base` is the
one right after the scope was entered. -/
structure Above (base t : ScopeTree) (first : ScopeId) : Prop where
  nested : Nested t.frames t.current
  inside : Inside base t
  older : ∀ id < first, t.get? id = base.get? id

namespace Above

variable {first : ScopeId}

/-- A name that is registered in the scope or in a later one changes nothing
below. -/
theorem change (habove : Above base t first) {id : ScopeId} (hid : first ≤ id) (r : Registration) :
    Above base (t.change id r.apply) first := by
  have hframes := frames_change t id r
  have hnested : Nested (t.change id r.apply).frames (t.change id r.apply).current := by
    rw [hframes]
    exact habove.nested
  have hreturn : t.Returns (t.change id r.apply) := ⟨rfl, [], by rw [hframes, List.append_nil]⟩
  refine ⟨hnested, habove.inside.returns habove.nested hnested hreturn, fun i hi => ?_⟩
  have hne : id ≠ i := Nat.ne_of_gt (Nat.lt_of_lt_of_le hi hid)
  rw [get?_change, ← habove.older i hi]
  simp [hne]

/-- **One action.**  Whatever is done without leaving the scope and without
registering a name below it happens in the scope or inside of it. -/
theorem act (hbase : Nested base.frames base.current) (hfirst : base.current = some first)
    (habove : Above base t first) {a : ScopeAction} (hspares : a.Spares first t) :
    Above base (t.act a) first := by
  have hnested := nested_act habove.nested a
  have hlt := current_lt_size hbase hfirst
  have hcases := habove.inside.current_cases hbase habove.nested hfirst
  unfold ScopeTree.act at hnested ⊢
  cases hperform : a.perform t with
  | error fault => exact habove
  | ok t' =>
      rw [hperform] at hnested
      cases a with
      | enter owner kind correlated =>
          refine ⟨hnested, habove.inside.enter habove.nested hperform, fun id hid => ?_⟩
          rw [← habove.older id hid]
          exact get?_of_enter_of_lt hperform
            (Nat.lt_of_lt_of_le (hid.trans hlt) (size_le_of_frames habove.inside.grown))
      | leave =>
          rcases hcases with hcurrent | ⟨id, s, hcurrent, hs, -, hinside⟩
          · exact absurd hcurrent hspares
          · obtain ⟨id', hid', rfl⟩ := leave_eq_ok_iff.1 hperform
            obtain rfl : id = id' := Option.some.inj (hcurrent.symm.trans hid')
            rw [hs, Option.bind_some] at hnested ⊢
            exact ⟨hnested, hinside, habove.older⟩
      | leaveAll => exact hspares.elim
      | register r =>
          obtain ⟨id, hid, rfl⟩ := changeCurrent_eq_ok_iff.1 hperform
          refine habove.change ?_ r
          rcases hcases with hcurrent | ⟨id', -, hcurrent, -, hle, -⟩
          · exact Nat.le_of_eq (Option.some.inj (hcurrent.symm.trans hid))
          · obtain rfl : id' = id := Option.some.inj (hcurrent.symm.trans hid)
            exact hlt.le.trans hle
      | registerAt id r =>
          cases hperform
          exact habove.change hspares r

/-- **Actions in turn.** -/
theorem foldl_act (hbase : Nested base.frames base.current) (hfirst : base.current = some first)
    (habove : Above base t first) {actions : List ScopeAction}
    (hopen : KeepsOpen first t actions) : Above base (actions.foldl ScopeTree.act t) first := by
  induction actions generalizing t with
  | nil => exact habove
  | cons a rest ih => exact ih (habove.act hbase hfirst hopen.1) hopen.2

end Above

/-- A scope that is entered, kept open and left again leaves nothing behind in
the scopes that were there before. -/
theorem returns_of_keepsOpen (h : Nested t.frames t.current) {owner : NodeId} {kind : NodeKind}
    {correlated : Bool} {entered : ScopeTree}
    (hentered : t.enter owner kind correlated = .ok entered) {actions : List ScopeAction}
    (hopen : KeepsOpen t.size entered actions)
    (hlast : (actions.foldl act entered).current = some t.size) :
    t.Returns ((actions ++ [ScopeAction.leave]).foldl act entered) ∧
      ∀ id < t.size, ((actions ++ [ScopeAction.leave]).foldl act entered).get? id = t.get? id := by
  have hbase := nested_of_enter h hentered
  obtain ⟨hfirst, -⟩ := get?_of_enter hentered
  have hstart : Above entered entered t.size := ⟨hbase, .refl entered, fun _ _ => rfl⟩
  have habove := hstart.foldl_act hbase hfirst hopen
  obtain ⟨t', hleft⟩ : ∃ t', (actions.foldl act entered).leave = .ok t' :=
    ⟨_, leave_eq_ok_iff.2 ⟨t.size, hlast, rfl⟩⟩
  have hact : (actions ++ [ScopeAction.leave]).foldl act entered = t' := by
    rw [List.foldl_append, List.foldl_cons, List.foldl_nil, act, ScopeAction.perform, hleft]
  rw [hact]
  refine ⟨returns_of_scope hentered ⟨hlast.trans hfirst.symm, habove.inside.grown⟩ hleft,
    fun id hid => ?_⟩
  obtain ⟨-, -, rfl⟩ := leave_eq_ok_iff.1 hleft
  exact (habove.older id hid).trans (get?_of_enter_of_lt hentered hid)

section

variable (h : Nested t.frames t.current) (h' : Nested t'.frames t'.current)
  (hreturn : t.Returns t') (hscopes : ∀ id < t.size, t'.get? id = t.get? id)

include h

theorem lt_size_of_mem_chain {id : ScopeId} (hid : id ∈ t.chain t.current) : id < t.size := by
  cases hcurrent : t.current with
  | none => simp [hcurrent, chain_none] at hid
  | some top =>
      have htop := current_lt_size h hcurrent
      exact Nat.lt_of_le_of_lt (le_of_mem_chain h htop (hcurrent ▸ hid)) htop

include h' hreturn hscopes

/-- Look-ups from a scope that is returned to. -/
theorem lookup?_of_returns {α : Type} (f : Scope → Option α) : t'.lookup? f = t.lookup? f :=
  lookup?_congr (chain_of_returns h h' hreturn) fun id hid =>
    congrArg (·.bind f) (hscopes id (lt_size_of_mem_chain h hid))

/-- Searches from a scope that is returned to. -/
theorem nearest?_of_returns (p : Scope → Bool) :
    t'.nearest? t'.current p = t.nearest? t.current p := by
  have hchain := chain_of_returns h h' hreturn
  rw [hreturn.current] at hchain ⊢
  exact nearest?_congr hchain fun id hid =>
    congrArg (·.any p) (hscopes id (lt_size_of_mem_chain h hid))

omit h' in
/-- The scope that is returned to. -/
theorem currentScope?_of_returns : t'.currentScope? = t.currentScope? := by
  rw [currentScope?, currentScope?, hreturn.current]
  cases hcurrent : t.current with
  | none => rfl
  | some id => exact hscopes id (current_lt_size h hcurrent)

end

/-- **A scope that was left is transparent.**  A scope is entered, whatever the
tree of scopes is.  Actions follow, which may fail, and which leave the scope
open and register nothing in earlier scopes by number.  Then the scope is left.
After that the same scope is current as before, the scopes that were there are
as they were, and all look-ups have the answers that they had. -/
theorem frames_are_transparent (history : List ScopeAction) {owner : NodeId} {kind : NodeKind}
    {correlated : Bool} {entered : ScopeTree}
    (hentered : (after history).enter owner kind correlated = .ok entered)
    {actions : List ScopeAction} (hopen : KeepsOpen (after history).size entered actions)
    (hlast : (actions.foldl act entered).current = some (after history).size) :
    let t := after history
    let t' := after (history ++ .enter owner kind correlated :: (actions ++ [ScopeAction.leave]))
    t'.current = t.current ∧
      (∀ id < t.size, t'.get? id = t.get? id) ∧
      (∀ name, t'.variableType? name = t.variableType? name) ∧
      (∀ name, t'.table? name = t.table? name) ∧
      (∀ qualifier, t'.aliasTarget? qualifier = t.aliasTarget? qualifier) ∧
      (∀ kind, t'.ancestor? kind = t.ancestor? kind) ∧
      ∀ p, t'.ancestorWhere? p = t.ancestorWhere? p := by
  intro t t'
  have h := nested_after history
  have hact : t' = (actions ++ [ScopeAction.leave]).foldl act entered := by
    have henter : t.act (.enter owner kind correlated) = entered := by
      rw [act, ScopeAction.perform, hentered]
    rw [← henter]
    exact List.foldl_append
  have h' : Nested t'.frames t'.current := nested_after _
  obtain ⟨hreturn, hscopes⟩ := returns_of_keepsOpen h hentered hopen hlast
  rw [← hact] at hreturn hscopes
  have hlookup : ∀ {α : Type} (f : Scope → Option α), t'.lookup? f = t.lookup? f :=
    lookup?_of_returns h h' hreturn hscopes
  have hwhere : ∀ p, t'.ancestorWhere? p = t.ancestorWhere? p :=
    fun p => nearest?_of_returns h h' hreturn hscopes _
  refine ⟨hreturn.current, hscopes, fun _ => hlookup _, fun _ => hlookup _, fun qualifier => ?_,
    fun kind => hwhere _, hwhere⟩
  rw [aliasTarget?, aliasTarget?, hlookup, currentScope?_of_returns h hreturn hscopes]

/-- A derived table is left in which a correlated query could not be entered, a
statement was entered and left, and tables were registered.  From the query around
it the tables are seen that were seen before. -/
theorem derivedTable_is_transparent :
    let history : List ScopeAction :=
      [.enter 0 .selectExpression false, .register (.aliasName "a" ⟨1, .derived 2⟩)]
    let actions : List ScopeAction :=
      [.enter 4 .selectExpression true, .register (.aliasName "b" ⟨5, .derived 6⟩),
        .enter 7 .select false, .enter 8 .selectExpression true,
        .register (.aliasName "a" ⟨9, .derived 10⟩), .registerAt 1 (.table "b" (.derived 6)),
        .leave, .leave]
    ∃ entered, (after history).enter 3 .selectExpression false = .ok entered ∧
      KeepsOpen 1 entered actions ∧ (actions.foldl act entered).current = some 1 ∧
      (after (history ++ .enter 3 .selectExpression false ::
        (actions ++ [ScopeAction.leave]))).current = some 0 ∧
      ∀ qualifier, (after (history ++ .enter 3 .selectExpression false ::
          (actions ++ [ScopeAction.leave]))).aliasTarget? qualifier =
        (after history).aliasTarget? qualifier := by
  intro history actions
  obtain ⟨entered, hentered⟩ : ∃ entered,
      (after history).enter 3 .selectExpression false = .ok entered :=
    ⟨_, enter_eq_ok_iff.2 ⟨fun hcorrelated => (by cases hcorrelated), rfl⟩⟩
  have hact : (after history).act (.enter 3 .selectExpression false) = entered := by
    rw [act, ScopeAction.perform, hentered]
  have hopen : KeepsOpen (after history).size entered actions := by
    rw [← hact]
    decide +kernel
  have hlast : (actions.foldl act entered).current = some (after history).size := by
    rw [← hact]
    decide +kernel
  obtain ⟨hcurrent, -, -, -, halias, -⟩ :=
    frames_are_transparent history hentered hopen hlast
  exact ⟨entered, hentered, hopen, hlast, hcurrent, halias⟩

end ScopeTree

end UnionScript
