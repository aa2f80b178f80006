import UnionScript.Proofs.Walk.Balance

/-!
# Derived tables do not see the tables beside them

A query that stands for itself in a block, as a derived table does, must not
depend on the tables of that block.  This is a statement about two runs: replace
the aliases of the block by any others, and the query is bound in the same way.

The block is *hidden* while the query is bound: it is not on the chain of the
current scope (`ScopeTree.Hides`).  Entering an uncorrelated block from another
one hides the outer block (`hides_of_enter_block`), entering further scopes does
not bring it back, and so it stays hidden all along the query, since queries are
balanced.  A single step does not notice a change in a hidden scope
(`Step.perform_withAliases`), and neither do runs (`Walk.Keeps.run_withAliases`).
-/

namespace UnionScript

/-- The same scope with other aliases. -/
def Scope.withAliases (s : Scope) (aliases : Directory String AliasTarget) : Scope :=
  { s with aliases }

namespace ScopeTree

/-- The same scopes with other aliases in one of them. -/
def withAliases (t : ScopeTree) (id : ScopeId) (aliases : Directory String AliasTarget) :
    ScopeTree :=
  t.change id (·.withAliases aliases)

/-- A scope of the tree cannot be seen from the current one. -/
def Hides (t : ScopeTree) (id : ScopeId) : Prop :=
  id < t.size ∧ id ∉ t.chain t.current

variable {t t' : ScopeTree} {id : ScopeId} {aliases : Directory String AliasTarget}

/-- A scope that cannot be seen is not the current one. -/
theorem Hides.current_ne (h : Nested t.frames t.current) (hhides : t.Hides id) :
    t.current ≠ some id := by
  intro hcurrent
  obtain ⟨s, hs⟩ := get?_isSome_iff.2 hhides.1
  have hmem : id ∈ t.chain t.current := by
    rw [hcurrent, chain_some h hs]
    exact List.mem_cons_self
  exact hhides.2 hmem

/-- Entering a scope does not bring a hidden scope into sight. -/
theorem Hides.enter (h : Nested t.frames t.current) (hhides : t.Hides id) {owner : NodeId}
    {kind : NodeKind} {correlated : Bool} (hentered : t.enter owner kind correlated = .ok t') :
    t'.Hides id := by
  have hsize : t'.size = t.size + 1 := by
    rw [← length_frames, (frames_of_enter hentered).1]
    simp
  refine ⟨hsize ▸ Nat.lt_succ_of_lt hhides.1, ?_⟩
  rw [chain_of_enter h hentered, List.mem_cons]
  rintro (hid | hmem)
  · exact Nat.ne_of_lt hhides.1 hid
  · exact hhides.2 ((chain_logicalParentFor h kind correlated).subset hmem)

/-- A scope that was hidden is hidden when the current scope is returned to. -/
theorem Hides.returns (h : Nested t.frames t.current) (h' : Nested t'.frames t'.current)
    (hhides : t.Hides id) (hreturn : t.Returns t') : t'.Hides id := by
  refine ⟨?_, chain_of_returns h h' hreturn ▸ hhides.2⟩
  have hle := hreturn.frames.length_le
  rw [length_frames, length_frames] at hle
  exact Nat.lt_of_lt_of_le hhides.1 hle

/-- **Blocks hide blocks.**  From an uncorrelated block in an uncorrelated block
the outer one cannot be seen. -/
theorem hides_of_enter_block (h : Nested t.frames t.current) (hcurrent : t.current = some id)
    {f : Frame} (hf : t.currentFrame? = some f) (hblock : f.isUncorrelatedBlock) {owner : NodeId}
    (hentered : t.enter owner .selectExpression false = .ok t') : t'.Hides id := by
  have hid := current_lt_size h hcurrent
  rw [currentFrame?, hcurrent, Option.bind_some] at hf
  obtain ⟨s, hs, rfl⟩ := exists_of_frame hf
  have hsize : t'.size = t.size + 1 := by
    rw [← length_frames, (frames_of_enter hentered).1]
    simp
  -- The search for a scope that is no such block passes over the outer block.
  have hparent : t.logicalParentFor .selectExpression false = s.logicalParent := by
    have hpasses : s.isUncorrelatedBlock = true := hblock
    simp [logicalParentFor, hcurrent, nearest?_some h hs, hpasses,
      nearest?_logicalParent h hs hpasses]
  refine ⟨hsize ▸ Nat.lt_succ_of_lt hid, ?_⟩
  rw [chain_of_enter h hentered, hparent, List.mem_cons]
  rintro (heq | hmem)
  · exact Nat.ne_of_lt hid heq
  · cases hp : s.logicalParent with
    | none => simp [hp, chain_none] at hmem
    | some p =>
        have hlt := logicalParent_lt h id s p hs hp
        have hle := le_of_mem_chain h (hlt.trans hid) (hp ▸ hmem)
        exact Nat.not_le_of_lt hlt hle

/-! ### Other aliases in one scope -/

@[simp]
theorem current_withAliases : (t.withAliases id aliases).current = t.current := rfl

@[simp]
theorem size_withAliases : (t.withAliases id aliases).size = t.size := by
  simp [withAliases, change, size]

theorem get?_withAliases (i : ScopeId) :
    (t.withAliases id aliases).get? i =
      (t.get? i).map (fun s => if id = i then s.withAliases aliases else s) :=
  get?_change t id i _

theorem get?_withAliases_of_ne {i : ScopeId} (hne : i ≠ id) :
    (t.withAliases id aliases).get? i = t.get? i := by
  simp [get?_withAliases, hne.symm]

/-- What does not depend on aliases is the same in all scopes. -/
theorem map_get?_withAliases {α : Type} {f : Scope → α}
    (hf : ∀ s, f (s.withAliases aliases) = f s) (i : ScopeId) :
    ((t.withAliases id aliases).get? i).map f = (t.get? i).map f := by
  rw [get?_withAliases, Option.map_map]
  congr 1
  funext s
  simp only [Function.comp_apply]
  split
  · exact hf s
  · rfl

theorem bind_get?_withAliases {α : Type} {f : Scope → Option α}
    (hf : ∀ s, f (s.withAliases aliases) = f s) (i : ScopeId) :
    ((t.withAliases id aliases).get? i).bind f = (t.get? i).bind f := by
  have hmap : ((t.withAliases id aliases).get? i).map f = (t.get? i).map f :=
    map_get?_withAliases hf i
  simpa [Option.bind_map, Function.comp_def] using congrArg (·.bind (fun found => found)) hmap

/-- Chains do not depend on aliases. -/
@[simp]
theorem chain_withAliases (start : Option ScopeId) :
    (t.withAliases id aliases).chain start = t.chain start := by
  have hfuel : ∀ fuel start,
      (t.withAliases id aliases).chainUpTo fuel start = t.chainUpTo fuel start := by
    intro fuel
    induction fuel with
    | zero => exact fun _ => rfl
    | succ fuel ih =>
        intro start
        cases start with
        | none => rfl
        | some i =>
            simp only [chainUpTo, get?_withAliases]
            cases t.get? i with
            | none => rfl
            | some s =>
                simp only [Option.map_some, ih]
                split <;> rfl
  rw [chain, chain, size_withAliases, hfuel]

theorem nearest?_withAliases {start : Option ScopeId} {p : Scope → Bool}
    (hp : ∀ s, p (s.withAliases aliases) = p s) :
    (t.withAliases id aliases).nearest? start p = t.nearest? start p := by
  refine nearest?_congr (chain_withAliases start) fun i _ => ?_
  have hmap : ((t.withAliases id aliases).get? i).map p = (t.get? i).map p :=
    map_get?_withAliases hp i
  simpa [Option.any_map] using congrArg (Option.any (· == true)) hmap

/-- Where rows are stored does not depend on aliases. -/
theorem storageScope?_withAliases :
    storageScope? (t.withAliases id aliases) = storageScope? t := by
  have hkind : ∀ p : NodeKind → Bool,
      (t.withAliases id aliases).ancestorWhere? p = t.ancestorWhere? p :=
    fun p => nearest?_withAliases fun _ => rfl
  unfold storageScope?
  rw [ancestor?, ancestor?, hkind, hkind]
  split
  · rw [bind_get?_withAliases fun _ => rfl]
  · rfl

/-- Rows are stored in a scope that can be seen. -/
theorem storageScope?_mem_chain (h : Nested t.frames t.current) {i : ScopeId}
    (hi : storageScope? t = some i) : i ∈ t.chain t.current := by
  have hhead : ∀ j < t.size, j ∈ t.chain (some j) := by
    intro j hj
    obtain ⟨s, hs⟩ := get?_isSome_iff.2 hj
    rw [chain_some h hs]
    exact List.mem_cons_self
  unfold storageScope? at hi
  split at hi
  · rename_i owner howner
    -- The statement or read that was found is on the chain, and so is what its chain goes on with.
    have hmem : owner ∈ t.chain t.current := by
      rcases Option.or_eq_some_iff.1 howner with hconsume | ⟨-, hstatement⟩
      · exact List.mem_of_find?_eq_some hconsume
      · exact List.mem_of_find?_eq_some hstatement
    cases hcurrent : t.current with
    | none => simp [hcurrent, chain_none] at hmem
    | some c =>
        rw [hcurrent] at hmem
        have hc := current_lt_size h hcurrent
        have howner_lt := Nat.lt_of_le_of_lt (le_of_mem_chain h hc hmem) hc
        obtain ⟨s, hs⟩ := get?_isSome_iff.2 howner_lt
        have hsuffix := chain_suffix h hc hmem
        rw [chain_some h hs] at hsuffix
        rw [hs, Option.bind_some] at hi
        cases hp : s.logicalParent with
        | none =>
            simp only [hp, Option.none_or, Option.some.injEq] at hi
            exact hi ▸ hmem
        | some p =>
            simp only [hp, Option.some_or, Option.some.injEq] at hi
            have hlt := (logicalParent_lt h owner s p hs hp).trans howner_lt
            rw [hp] at hsuffix
            exact hi ▸ hsuffix.subset (List.mem_cons_of_mem _ (hhead p hlt))
  · rw [hi]
    exact hhead i (current_lt_size h hi)

/-- Look-ups do not depend on the aliases of a hidden scope. -/
theorem lookup?_withAliases {α : Type} {f : Scope → Option α} (hhides : t.Hides id) :
    (t.withAliases id aliases).lookup? f = t.lookup? f := by
  refine lookup?_congr (chain_withAliases t.current) fun i hi => ?_
  have hne : i ≠ id := fun heq => hhides.2 (heq ▸ hi)
  rw [get?_withAliases_of_ne hne]

/-- Tables resolve to the same whatever the aliases of a hidden scope are. -/
theorem resolveTable_withAliases (hhides : t.Hides id) (provider : Provider) (name : String) :
    (t.withAliases id aliases).resolveTable provider name = t.resolveTable provider name := by
  simp only [resolveTable, table?, variableType?, lookup?_withAliases hhides]

/-- Changes elsewhere and other aliases do not interfere. -/
theorem change_withAliases {i : ScopeId} (hne : i ≠ id) (f : Scope → Scope) :
    (t.withAliases id aliases).change i f = (t.change i f).withAliases id aliases := by
  have hscopes : (t.scopes.modify id (·.withAliases aliases)).modify i f =
      (t.scopes.modify i f).modify id (·.withAliases aliases) := by
    refine Array.ext_getElem? fun j => ?_
    simp only [Array.getElem?_modify]
    by_cases hi : i = j
    · have hid : ¬ id = j := fun heq => hne (hi.trans heq.symm)
      simp [hi, hid]
    · simp [hi]
  simp only [withAliases, change, hscopes]

section

variable (h : Nested t.frames t.current) (hhides : t.Hides id)

include h hhides

theorem currentScope?_withAliases :
    (t.withAliases id aliases).currentScope? = t.currentScope? := by
  unfold currentScope?
  rw [current_withAliases]
  cases hcurrent : t.current with
  | none => rfl
  | some i =>
      have hne : i ≠ id := fun heq => hhides.current_ne h (heq ▸ hcurrent)
      exact get?_withAliases_of_ne hne

/-- Columns resolve to the same whatever the aliases of a hidden scope are. -/
theorem resolveColumn_withAliases (tree : Tree) (strict : Bool) (qualifier name : String) :
    (t.withAliases id aliases).resolveColumn tree strict qualifier name =
      t.resolveColumn tree strict qualifier name := by
  simp only [resolveColumn, hasSeveralTables, aliasTarget?, currentScope?_withAliases h hhides,
    lookup?_withAliases hhides]

/-- Changes of the current scope and other aliases in a hidden one do not
interfere. -/
theorem changeCurrent_withAliases (f : Scope → Scope) :
    (t.withAliases id aliases).changeCurrent f =
      (t.changeCurrent f).map (·.withAliases id aliases) := by
  unfold changeCurrent
  rw [current_withAliases]
  cases hcurrent : t.current with
  | none => rfl
  | some i =>
      have hne : i ≠ id := fun heq => hhides.current_ne h (heq ▸ hcurrent)
      exact congrArg Except.ok (change_withAliases hne f)

end

/-- Scopes are entered whatever the aliases of the others are. -/
theorem enter_withAliases (hid : id < t.size) (owner : NodeId) (kind : NodeKind)
    (correlated : Bool) :
    (t.withAliases id aliases).enter owner kind correlated =
      (t.enter owner kind correlated).map (·.withAliases id aliases) := by
  have hnearest : ∀ p : Scope → Bool, (∀ s, p (s.withAliases aliases) = p s) →
      (t.withAliases id aliases).nearest? t.current p = t.nearest? t.current p :=
    fun p hp => nearest?_withAliases hp
  have hparent : (t.withAliases id aliases).logicalParentFor kind correlated =
      t.logicalParentFor kind correlated := by
    simp only [logicalParentFor, current_withAliases]
    rw [hnearest _ fun _ => rfl]
  have hpush : ∀ new : Scope, (t.scopes.modify id (·.withAliases aliases)).push new =
      (t.scopes.push new).modify id (·.withAliases aliases) := by
    intro new
    refine Array.ext_getElem? fun j => ?_
    simp only [Array.getElem?_modify, Array.getElem?_push, Array.size_modify]
    by_cases hj : j = t.scopes.size
    · have hne : ¬ id = t.scopes.size := Nat.ne_of_lt hid
      simp [hj, hne]
    · simp [hj]
  unfold enter
  rw [current_withAliases, hnearest _ fun _ => rfl, hparent, size_withAliases]
  split
  · rfl
  · simp only [withAliases, change, hpush, Except.map]

/-- Scopes are left whatever the aliases are. -/
theorem leave_withAliases :
    (t.withAliases id aliases).leave = t.leave.map (·.withAliases id aliases) := by
  unfold leave
  rw [current_withAliases]
  cases t.current with
  | none => rfl
  | some i =>
      simp only [bind_get?_withAliases (fun _ => rfl : ∀ s, Scope.physicalParent _ = _), Except.map]
      rfl

end ScopeTree

/-- The same with other aliases in one scope. -/
def Progress.withAliases (p : Progress) (id : ScopeId) (aliases : Directory String AliasTarget) :
    Progress :=
  { p with scopes := p.scopes.withAliases id aliases }

/-- The same outcome with other aliases in one scope. -/
def Outcome.withAliases (id : ScopeId) (aliases : Directory String AliasTarget) :
    Outcome → Outcome
  | .finished p => .finished (p.withAliases id aliases)
  | .schemaFailed p detail => .schemaFailed (p.withAliases id aliases) detail
  | .malformed fault => .malformed fault

section

variable {s : Surroundings} {p : Progress} {id : ScopeId}
  {aliases : Directory String AliasTarget}

/-- What changes scopes alike changes what is known alike. -/
theorem Progress.changeScopes_withAliases
    (change : ScopeTree → Except StructureFault ScopeTree)
    (hchange : change (p.scopes.withAliases id aliases) =
      (change p.scopes).map (·.withAliases id aliases)) :
    (p.withAliases id aliases).changeScopes change =
      (p.changeScopes change).withAliases id aliases := by
  simp only [Progress.changeScopes, Progress.withAliases, hchange]
  cases change p.scopes <;> rfl

/-- An answer of the schema is gone on with alike. -/
theorem Progress.ask_withAliases {α : Type} {answer : Except Error α}
    {next : α → Progress → Outcome}
    (hnext : ∀ a, next a (p.withAliases id aliases) = (next a p).withAliases id aliases) :
    (p.withAliases id aliases).ask answer next = (p.ask answer next).withAliases id aliases := by
  cases answer with
  | ok a => exact hnext a
  | error e => rfl

/-- **Steps do not notice hidden aliases.** -/
theorem Step.perform_withAliases (step : Step)
    (h : Nested p.scopes.frames p.scopes.current) (hhides : p.scopes.Hides id) :
    step.perform s (p.withAliases id aliases) =
      (step.perform s p).withAliases id aliases := by
  have hcurrent : ∀ (n : NodeId) (b : Binding) (f : Scope → Scope),
      ((p.withAliases id aliases).bind n b).changeScopes (·.changeCurrent f) =
        ((p.bind n b).changeScopes (·.changeCurrent f)).withAliases id aliases :=
    fun n b f => Progress.changeScopes_withAliases (p := p.bind n b) (·.changeCurrent f)
      (ScopeTree.changeCurrent_withAliases h hhides f)
  cases step with
  | enter owner kind correlated =>
      exact Progress.changeScopes_withAliases (·.enter owner kind correlated)
        (ScopeTree.enter_withAliases hhides.1 owner kind correlated)
  | leave => exact Progress.changeScopes_withAliases ScopeTree.leave ScopeTree.leave_withAliases
  | defineTable n name => exact hcurrent n _ _
  | deriveTable n query aliasName => exact hcurrent n _ _
  | useTable n identifier aliasName =>
      have hresolve : (p.scopes.withAliases id aliases).resolveTable s.provider identifier =
          p.scopes.resolveTable s.provider identifier :=
        ScopeTree.resolveTable_withAliases hhides s.provider identifier
      simp only [Step.perform, Progress.withAliases, hresolve]
      refine Progress.ask_withAliases fun found => ?_
      cases found with
      | none => rfl
      | some source => exact hcurrent n _ _
  | useColumn n identifier =>
      refine Progress.ask_withAliases fun found => ?_
      cases found with
      | some member => rfl
      | none =>
          have hresolve : ∀ qualifier name,
              (p.scopes.withAliases id aliases).resolveColumn s.tree s.strict qualifier name =
                p.scopes.resolveColumn s.tree s.strict qualifier name :=
            ScopeTree.resolveColumn_withAliases h hhides s.tree s.strict
          simp only [Progress.bindColumn, Progress.withAliases, hresolve]
          cases p.scopes.resolveColumn s.tree s.strict (splitQualified identifier).1
              (splitQualified identifier).2 with
          | none => rfl
          | some binding => exact hcurrent n _ _
  | useProjection reference column => rfl
  | useVariable n name =>
      have hlookup : (p.scopes.withAliases id aliases).variableType? name =
          p.scopes.variableType? name := ScopeTree.lookup?_withAliases hhides
      simp only [Step.perform, Progress.withAliases, hlookup]
      cases p.scopes.variableType? name <;> rfl
  | callFunction n name =>
      simp only [Step.perform]
      cases Builtin.find? name <;> rfl
  | storeInto n source target =>
      have hstorage : storageScope? (p.scopes.withAliases id aliases) = storageScope? p.scopes :=
        ScopeTree.storageScope?_withAliases
      simp only [Step.perform, Progress.withAliases, hstorage]
      cases hfound : storageScope? p.scopes with
      | none => rfl
      | some i =>
          have hne : i ≠ id := fun heq =>
            hhides.2 (heq ▸ ScopeTree.storageScope?_mem_chain h hfound)
          refine Progress.changeScopes_withAliases (p := p.bind n _) (fun t => .ok _) ?_
          exact congrArg Except.ok (ScopeTree.change_withAliases hne _)
  | declare n typeName name initializer =>
      refine Progress.ask_withAliases fun found => ?_
      cases found with
      | none => rfl
      | some type => exact hcurrent n _ _
  | beginSet target => rfl
  | setColumn n identifier =>
      simp only [Step.perform, Progress.withAliases]
      cases p.targets.head?.join.bind (s.tree.columnOf? · (lastPart identifier)) <;> rfl
  | endSet => rfl
  | reject fault => rfl

/-- What is gone on with alike leads to the same. -/
theorem Outcome.andThen_withAliases {outcome : Outcome} {next : Progress → Outcome}
    (hnext : ∀ q, outcome = .finished q →
      next (q.withAliases id aliases) = (next q).withAliases id aliases) :
    (outcome.withAliases id aliases).andThen next =
      (outcome.andThen next).withAliases id aliases := by
  cases outcome with
  | finished q => exact hnext q rfl
  | schemaFailed q detail => rfl
  | malformed fault => rfl

namespace Walk

variable {l body : List Step}

/-- **Runs do not notice hidden aliases** as long as they stay hidden. -/
theorem Keeps.run_withAliases
    (h : Keeps s (fun _ t => Nested t.frames t.current ∧ t.Hides id) l p) :
    run s l (p.withAliases id aliases) = (run s l p).withAliases id aliases := by
  induction l generalizing p with
  | nil => rfl
  | cons step rest ih =>
      obtain ⟨⟨hnested, hhides⟩, hrest⟩ := h
      rw [run, run, Step.perform_withAliases step hnested hhides]
      exact Outcome.andThen_withAliases fun q hq => ih (hrest q hq)

/-- Steps in an uncorrelated block in which no alias can be seen that is in the
block around it. -/
theorem run_block_withAliases (hbody : Balanced body) (n : NodeId)
    (hnested : Nested p.scopes.frames p.scopes.current) (hcurrent : p.scopes.current = some id)
    {f : Frame} (hf : p.scopes.currentFrame? = some f) (hblock : f.isUncorrelatedBlock) :
    run s (.enter n .selectExpression false :: (body ++ [.leave])) (p.withAliases id aliases) =
      (run s (.enter n .selectExpression false :: (body ++ [.leave])) p).withAliases id
        aliases := by
  have hid := ScopeTree.current_lt_size hnested hcurrent
  have henter : (Step.enter n .selectExpression false).perform s (p.withAliases id aliases) =
      ((Step.enter n .selectExpression false).perform s p).withAliases id aliases :=
    Progress.changeScopes_withAliases (·.enter n .selectExpression false)
      (ScopeTree.enter_withAliases hid n .selectExpression false)
  rw [run, run, henter]
  refine Outcome.andThen_withAliases fun m hm => ?_
  have hnested' := (Step.takes_of_perform hm).nested hnested
  simp only [Step.perform] at hm
  obtain ⟨entered, hentered, rfl⟩ := Step.changeScopes_eq_finished hm
  have hhides := ScopeTree.hides_of_enter_block hnested hcurrent hf hblock hentered
  have hkeeps := hbody.keeps (s := s) (fun _ _ _ _ _ h hI hin => ScopeTree.Hides.enter h hI hin)
    (fun _ _ h h' hI hreturn => hI.returns h h' hreturn) hnested' hhides
  rw [run_append, run_append, hkeeps.run_withAliases]
  refine Outcome.andThen_withAliases fun q _ => ?_
  rw [run_singleton, run_singleton]
  exact Progress.changeScopes_withAliases ScopeTree.leave ScopeTree.leave_withAliases

/-- Uncorrelated blocks one after the other. -/
inductive Blocks : List Step → Prop
  | refused (fault : StructureFault) : Blocks [.reject fault]
  | block (n : NodeId) {body : List Step} (h : Balanced body) :
      Blocks (.enter n .selectExpression false :: (body ++ [.leave]))
  | append {first second : List Step} (h : Blocks first) (h' : Blocks second) :
      Blocks (first ++ second)

theorem Blocks.balanced (h : Blocks l) : Balanced l := by
  induction h with
  | refused fault => exact .step rfl
  | block n hbody => exact .scope n .selectExpression false hbody
  | append _ _ ih ih' => exact .append ih ih'

/-- Blocks in an uncorrelated block do not notice its aliases. -/
theorem Blocks.run_withAliases (h : Blocks l)
    (hnested : Nested p.scopes.frames p.scopes.current) (hcurrent : p.scopes.current = some id)
    {f : Frame} (hf : p.scopes.currentFrame? = some f) (hblock : f.isUncorrelatedBlock) :
    run s l (p.withAliases id aliases) = (run s l p).withAliases id aliases := by
  induction h generalizing p with
  | refused fault => rfl
  | block n hbody => exact run_block_withAliases hbody n hnested hcurrent hf hblock
  | append hfirst _ ih ih' =>
      rw [run_append, run_append, ih hnested hcurrent hf]
      refine Outcome.andThen_withAliases fun q hq => ?_
      -- The first blocks come back to the scope that the second ones start in.
      have hreturn := hfirst.balanced.returns hq
      exact ih' (run_nested hnested hq) (hreturn.current.trans hcurrent) (hreturn.currentFrame? hf)

end Walk

end

/-- Query blocks, and groups and unions of them. -/
inductive Tree.BlockQuery (t : Tree) : NodeId → Prop
  | block {n : NodeId} {b : SelectExpression} (hn : t.get? n = some (.selectExpression b)) :
      BlockQuery t n
  | union {n left right : NodeId} {all : Bool} (hn : t.get? n = some (.tableUnion left right all))
      (hleft : BlockQuery t left) (hright : BlockQuery t right) : BlockQuery t n
  | group {n expression : NodeId} (hn : t.get? n = some (.group expression))
      (hexpression : BlockQuery t expression) : BlockQuery t n

/-- Queries of blocks that stand for themselves are walked over as blocks. -/
theorem Walk.querySteps_blocks {tree : Tree} {visit : NodeId → List Step}
    (hvisit : ∀ n, Balanced (visit n)) {n : NodeId} (hn : tree.BlockQuery n) (fuel : Nat) :
    Blocks (querySteps tree visit fuel false n) := by
  induction fuel generalizing n with
  | zero => exact .refused _
  | succ fuel ih =>
      cases hn with
      | @block _ b hn =>
          simp only [querySteps, queryParts, queryStages, hn, Walk.block, inScope_steps]
          exact .block n (quiet_balanced hvisit (querySteps_balanced hvisit fuel) n
            (blockBody_quiet b))
      | union hn hleft hright =>
          simpa [querySteps, queryParts, queryStages, hn, stageParts, expand] using
            Blocks.append (ih hleft) (ih hright)
      | group hn hexpression =>
          simpa [querySteps, queryParts, queryStages, hn, stageParts, expand] using
            ih hexpression

/-- **Derived tables are isolated.**  Let the current scope be an uncorrelated
block, in whatever scopes that came about.  With other aliases in that block,
blocks and groups and unions of blocks that stand for themselves are bound in the
same way: the outcome is the same but for these aliases, so it is of the same
kind, with the same diagnostics, the same bindings and the same new scopes. -/
theorem derived_tables_are_isolated (s : Surroundings) (limit depth : Nat) {query : NodeId}
    (hquery : s.tree.BlockQuery query) {p : Progress} {history : List ScopeAction}
    (hhistory : p.scopes = .after history) {id : ScopeId} {scope : Scope}
    (hcurrent : p.scopes.current = some id) (hscope : p.scopes.get? id = some scope)
    (hblock : scope.isUncorrelatedBlock) (aliases : Directory String AliasTarget) :
    let bindQuery := Walk.followQuery s (Walk.follow s limit depth) (Walk.queryFuel s.tree) false
      query
    bindQuery (p.withAliases id aliases) = (bindQuery p).withAliases id aliases ∧
      ∀ q q', (bindQuery p).progress? = some q →
        (bindQuery (p.withAliases id aliases)).progress? = some q' →
        q'.diagnostics = q.diagnostics ∧ (∀ n, q'.bindings.find? n = q.bindings.find? n) ∧
          q'.scopes.size = q.scopes.size ∧
          ∀ new, p.scopes.size ≤ new → q'.scopes.get? new = q.scopes.get? new := by
  intro bindQuery
  have hnested : Nested p.scopes.frames p.scopes.current := hhistory ▸ ScopeTree.nested_after history
  have hf : p.scopes.currentFrame? = some scope.frame := by
    rw [ScopeTree.currentFrame?, hcurrent, Option.bind_some]
    exact ScopeTree.frame_of_get? hscope
  have hblocks := Walk.querySteps_blocks (Walk.steps_balanced s.tree limit depth) hquery
    (Walk.queryFuel s.tree)
  have hbind : bindQuery (p.withAliases id aliases) = (bindQuery p).withAliases id aliases := by
    simp only [bindQuery, Walk.followQuery_eq_run s (Walk.follow_eq_run s limit depth)]
    exact hblocks.run_withAliases hnested hcurrent hf hblock
  refine ⟨hbind, fun q q' hq hq' => ?_⟩
  have hsame : q' = q.withAliases id aliases := by
    rw [hbind] at hq'
    cases hout : bindQuery p with
    | finished m | schemaFailed m detail =>
        rw [hout] at hq hq'
        cases hq
        cases hq'
        rfl
    | malformed fault =>
        rw [hout] at hq
        cases hq
  subst hsame
  refine ⟨rfl, fun _ => rfl, ScopeTree.size_withAliases, fun new hnew => ?_⟩
  have hid := ScopeTree.current_lt_size hnested hcurrent
  exact ScopeTree.get?_withAliases_of_ne (Nat.ne_of_gt (Nat.lt_of_lt_of_le hid hnew))

/-- A derived table that reads the total of a table `o`, and a block that a table
of that name may stand for. -/
def siblingTotal : Tree :=
  ⟨#[.columnReference "o.total", .columnExpression 0 none,
    .selectExpression { columns := [1] }, .group 2, .scalarLiteral .number "1",
    .columnExpression 4 (some "total"), .selectExpression { columns := [5] }]⟩

/-- It does not find the total whether or not the block around it has a table `o`
beside it. -/
theorem siblingTotal_is_isolated :
    let p : Progress := { scopes := .after [.enter 9 .select false,
      .enter 8 .selectExpression false, .register (.aliasName "o" ⟨7, .derived 6⟩)] }
    let bindQuery := Walk.followQuery ⟨siblingTotal, Catalog.empty.toProvider, true⟩
      (Walk.follow ⟨siblingTotal, Catalog.empty.toProvider, true⟩ 9 9)
      (Walk.queryFuel siblingTotal) false 3
    p.scopes.aliasTarget? "o" = some ⟨7, .derived 6⟩ ∧
      (∃ q, bindQuery p = .finished q ∧
        q.diagnostics = #[.unresolved .column "o.total"]) ∧
      bindQuery (p.withAliases 1 .empty) = (bindQuery p).withAliases 1 .empty := by
  intro p bindQuery
  have hquery : siblingTotal.BlockQuery 3 := .group rfl (.block rfl)
  refine ⟨by decide, ⟨_, rfl, rfl⟩, ?_⟩
  exact (derived_tables_are_isolated ⟨siblingTotal, Catalog.empty.toProvider, true⟩ 9 9 hquery
    rfl rfl rfl rfl .empty).1

end UnionScript
