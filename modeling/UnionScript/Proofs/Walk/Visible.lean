import UnionScript.Proofs.BoundScript.References
import UnionScript.Proofs.Walk.Standing

/-!
# What the items of a script see

Between two items of a script only the scope of the script is open.  So what an
item leaves behind are names in that scope: a statement leaves the tables that
it stores rows in, and a declaration its variable.  A reference to a table in an
item sees the common tables of the item that were defined before, and what the
items before it left behind (`ItemRun`).

* `run_tableIn?_of_statement` — what is registered by steps in a statement;
* `Tidy.leavesClean` — that nothing is seen of what an initializer stores;
* `itemRun_of_statement`, `itemRun_of_declaration` — the two kinds of items.
-/

namespace UnionScript

namespace ScopeTree

variable {t : ScopeTree}

/-- A look-up passes over the scopes that have no answer. -/
theorem lookup?_of_append {α : Type} {f : Scope → Option α} {seen rest : List ScopeId}
    (hchain : t.chain t.current = seen ++ rest)
    (hseen : ∀ i ∈ seen, (t.get? i).bind f = none) :
    t.lookup? f = rest.findSome? (fun id => (t.get? id).bind f) := by
  have hnone : seen.findSome? (fun id => (t.get? id).bind f) = none :=
    List.findSome?_eq_none_iff.2 hseen
  rw [lookup?, hchain, List.findSome?_append, hnone, Option.none_or]

end ScopeTree

namespace Walk

variable {s : Surroundings} {p q : Progress} {l : List Step}

/-- What holds before every step that is taken next holds along steps. -/
theorem keeps_of_split {I : Step → ScopeTree → Prop}
    (h : ∀ first step rest m, l = first ++ step :: rest → run s first p = .finished m →
      I step m.scopes) : Keeps s I l p := by
  induction l generalizing p with
  | nil => trivial
  | cons step rest ih =>
      refine ⟨h [] step rest p rfl rfl, fun m hm => ih fun first step' rest' m' heq hrun => ?_⟩
      refine h (step :: first) step' rest' m' (by rw [heq, List.cons_append]) ?_
      simp only [run, hm, Outcome.andThen, hrun]

/-- Steps that enter no statement add no scope of one. -/
theorem run_plain {first : ScopeId} (hp : p.scopes.Plain first)
    (hinner : ∀ owner kind correlated, Step.enter owner kind correlated ∈ l →
      kind.isStatement = false) (h : run s l p = .finished q) : q.scopes.Plain first := by
  refine run_invariant (fun p => p.scopes.Plain first) (fun step hmem p q hp htakes => ?_) hp
    (congrArg Outcome.progress? h)
  cases htakes with
  | binds hn hb hscopes =>
      intro i f hi hf
      rw [hscopes.same_frames.1] at hf
      exact hp i f hi hf
  | reports | passes => exact hp
  | enters hstep hscopes =>
      subst hstep
      exact hp.enter (hinner _ _ _ hmem) hscopes
  | leaves hstep hscopes =>
      obtain ⟨id, -, hleft⟩ := ScopeTree.leave_eq_ok_iff.1 hscopes
      subst hleft
      exact hp

/-- Steps that declare nothing leave all variables alone. -/
theorem run_variableIn? (h : run s l p = .finished q)
    (hdeclare : ∀ n typeName name initializer, Step.declare n typeName name initializer ∉ l)
    (i : ScopeId) (key : String) : q.scopes.variableIn? i key = p.scopes.variableIn? i key := by
  induction l generalizing p with
  | nil =>
      cases h
      rfl
  | cons step rest ih =>
      obtain ⟨m, hstep, hrest⟩ := run_cons_eq_finished h
      rw [ih hrest fun n typeName name init hmem =>
        hdeclare n typeName name init (List.mem_cons_of_mem step hmem)]
      refine Step.variableIn?_of_other hstep (fun n typeName name init heq => ?_) i key
      exact hdeclare n typeName name init (heq ▸ List.mem_cons_self)

/-- Steps that declare nothing give no type. -/
theorem latest?_declaredType? (bindings : Bindings) (key : String)
    (hdeclare : ∀ n typeName name initializer, Step.declare n typeName name initializer ∉ l) :
    latest? (Step.declaredType? bindings key) l = none := by
  rw [latest?_eq_none_iff]
  intro step hmem
  cases step with
  | declare n typeName name init => exact (hdeclare n typeName name init hmem).elim
  | _ => rfl

/-- A step in the middle of steps is not the last one. -/
theorem split_last {own rest : List Step} {step last : Step}
    (h : l ++ [last] = own ++ step :: rest) (hne : step ≠ last) :
    ∃ rest', l = own ++ step :: rest' := by
  rcases List.eq_nil_or_concat rest with rfl | ⟨rest', last', rfl⟩
  · have hlast : [last] = [step] := List.append_inj_right' h rfl
    exact (hne (List.cons.inj hlast).1.symm).elim
  · refine ⟨rest', ?_⟩
    rw [List.concat_eq_append, ← List.cons_append, ← List.append_assoc] at h
    exact List.append_inj_left' h rfl

/-- A step in a scope is one of those between its ends. -/
theorem split_scope {own rest : List Step} {first step : Step}
    (h : first :: (l ++ [.leave]) = own ++ step :: rest) (hfirst : step ≠ first)
    (hleave : step ≠ .leave) : ∃ done rest', own = first :: done ∧ l = done ++ step :: rest' := by
  cases own with
  | nil => exact (hfirst (List.cons.inj h).1.symm).elim
  | cons first' done =>
      obtain ⟨rfl, htail⟩ := List.cons.inj h
      obtain ⟨rest', hl⟩ := split_last htail hleave
      exact ⟨done, rest', rfl, hl⟩

section

variable {top : ScopeId} {step : Step}

/-- A step in a statement registers common tables in the scope of the statement
and stored tables in that of the script. -/
theorem tableIn?_of_inStatement (hin : p.scopes.InStatement top)
    (hdefine : ∀ n name, step = .defineTable n name → p.scopes.current = some top)
    (h : step.perform s p = .finished q) (i : ScopeId) (key : String) :
    q.scopes.tableIn? i key =
      if i = top then (step.commonTable? key).or (p.scopes.tableIn? i key)
      else if i = 0 then (step.storedTable? key).or (p.scopes.tableIn? i key)
      else p.scopes.tableIn? i key := by
  have htop : ¬ 0 = top := Nat.ne_of_lt hin.top_pos
  cases step with
  | defineTable n name =>
      rw [Step.tableIn?_of_defineTable h (hdefine n name rfl) hin.top_lt]
      by_cases hi : i = top
      · simp [hi]
      · simp [hi, Step.storedTable?]
  | storeInto n source target =>
      have hzero : 0 < p.scopes.size := Nat.lt_trans hin.top_pos hin.top_lt
      rw [Step.tableIn?_of_storeInto h hin.storage hzero]
      by_cases hi : i = 0
      · simp [hi, htop]
      · simp [hi, Step.commonTable?]
  | _ =>
      rw [Step.tableIn?_of_other h (by simp) (by simp)]
      simp [Step.commonTable?, Step.storedTable?]

/-- The position that steps in a statement are taken at. -/
def AtStatement (top : ScopeId) (step : Step) (t : ScopeTree) : Prop :=
  t.InStatement top ∧ ∀ n name, step = .defineTable n name → t.current = some top

/-- **What is registered in a statement.**  Of the common tables and of the stored
tables under a name the latest ones count. -/
theorem run_tableIn?_of_statement (hkeeps : Keeps s (AtStatement top) l p)
    (h : run s l p = .finished q) (i : ScopeId) (key : String) :
    q.scopes.tableIn? i key =
      if i = top then (latest? (Step.commonTable? key) l).or (p.scopes.tableIn? i key)
      else if i = 0 then (latest? (Step.storedTable? key) l).or (p.scopes.tableIn? i key)
      else p.scopes.tableIn? i key := by
  induction l generalizing p with
  | nil =>
      cases h
      simp
  | cons step rest ih =>
      obtain ⟨m, hstep, hrest⟩ := run_cons_eq_finished h
      obtain ⟨hin, hdefine⟩ := hkeeps.1
      rw [ih (hkeeps.2 m hstep) hrest, tableIn?_of_inStatement hin hdefine hstep, latest?_cons,
        latest?_cons]
      by_cases htop : i = top
      · simp only [if_pos htop, Option.or_assoc]
      · by_cases hzero : i = 0
        · simp only [if_neg htop, if_pos hzero, Option.or_assoc]
        · simp only [if_neg htop, if_neg hzero]

/-- **What is seen in a statement**: the latest common table, and then the latest
stored table. -/
theorem table?_of_statement {done rest : List Step}
    (hkeeps : Keeps s (AtStatement top) (done ++ step :: rest) p)
    (hinner : ∀ i key, top ≤ i → p.scopes.tableIn? i key = none)
    (h : run s done p = .finished q) (name : String) :
    q.scopes.table? name = (latest? (Step.commonTable? (nameKey name)) done).or
      ((latest? (Step.storedTable? (nameKey name)) done).or
        (p.scopes.tableIn? 0 (nameKey name))) := by
  have hin := (hkeeps.before h).1
  obtain ⟨seen, hchain, hlater⟩ := hin.chain
  have htables := run_tableIn?_of_statement hkeeps.left h
  have hnone : ∀ i ∈ seen, q.scopes.tableIn? i (nameKey name) = none := by
    intro i hi
    have hlt := hlater i hi
    rw [htables, if_neg (Nat.ne_of_gt hlt), if_neg (Nat.ne_of_gt (Nat.lt_trans hin.top_pos hlt))]
    exact hinner i _ hlt.le
  have htop := htables top (nameKey name)
  have hzero := htables 0 (nameKey name)
  rw [if_pos rfl, hinner top _ (Nat.le_refl top), Option.or_none] at htop
  rw [if_neg (Nat.ne_of_lt hin.top_pos), if_pos rfl] at hzero
  rw [ScopeTree.table?, ScopeTree.lookup?_of_append hchain hnone, ← List.singleton_append,
    List.findSome?_append, List.findSome?_singleton, List.findSome?_singleton, ← htop, ← hzero]
  rfl

end

/-- **Steps in a statement stand there.**  Before each of them the scopes of the
statement and of the script are seen behind inner ones, and where a common table
is defined the scope of the statement is current. -/
theorem Statement.keeps (hl : Statement l) (hroot : p.scopes.AtRoot) {owner : NodeId}
    {kind : NodeKind} (hkind : kind.isStatement) {entered : ScopeTree}
    (hentered : p.scopes.enter owner kind false = .ok entered) :
    Keeps s (AtStatement p.scopes.size) l { p with scopes := entered } := by
  have hnested := ScopeTree.nested_of_enter hroot.nested hentered
  have hinside : Keeps s (fun _ t => Nested t.frames t.current ∧ entered.Inside t) l
      { p with scopes := entered } :=
    hl.balanced.keeps (fun _ _ _ _ _ h hin hent => hin.enter h hent)
      (fun _ _ h h' hin hreturn => hin.returns h h' hreturn) hnested (.refl entered)
  refine keeps_of_split fun first step rest m heq hrun => ?_
  subst heq
  obtain ⟨hnested', hin⟩ := hinside.before hrun
  have hplain' : m.scopes.Plain entered.size :=
    run_plain entered.plain_size (fun owner kind correlated hmem =>
      hl.inner owner kind correlated (List.mem_append_left _ hmem)) hrun
  refine ⟨hroot.inStatement hkind hentered hin hnested' hplain', fun n name heq => ?_⟩
  subst heq
  have hreturn := (hl.surfaces first n name rest rfl).returns hrun
  exact hreturn.current.trans (ScopeTree.get?_of_enter hentered).1

section

variable {base : ScopeTree}

/-- Along steps only the scope of the script is seen behind scopes without tables,
up to where a scope is left, and no scope that was there before gets a table. -/
structure LeavesClean (base : ScopeTree) (s : Surroundings) (l : List Step) (p : Progress) :
    Prop where
  along : Keeps s (fun step t => step ≠ .leave → base.Clean t) l p
  kept : ∀ q, run s l p = .finished q → ∀ i < p.scopes.size, ∀ key,
    q.scopes.tableIn? i key = p.scopes.tableIn? i key

/-- Where steps end, what is seen is as it was. -/
theorem LeavesClean.clean (h : LeavesClean base s l p) (hl : Balanced l)
    (hinner : ∀ owner kind correlated, Step.enter owner kind correlated ∈ l →
      kind.isStatement = false) (hp : base.Clean p.scopes) (hrun : run s l p = .finished q) :
    base.Clean q.scopes :=
  hp.returns (run_nested hp.nested hrun) (hl.returns hrun) (run_plain hp.plain hinner hrun)
    (h.kept q hrun)

/-- Steps in a scope of their own, if those before its end leave nothing behind
and those at its end reach no scope around. -/
theorem leavesClean_of_scope {n : NodeId} {kind : NodeKind} {correlated : Bool}
    {body last : List Step} (hp : base.Clean p.scopes) (hkind : kind.isStatement = false)
    (hbalanced : Balanced body)
    (hinner : ∀ owner kind correlated, Step.enter owner kind correlated ∈ body →
      kind.isStatement = false)
    (hbody : ∀ m, base.Clean m.scopes → LeavesClean base s body m)
    (hlast : ∀ m, base.Clean m.scopes → m.scopes.current = some p.scopes.size →
      Keeps s (fun step t => step ≠ .leave → base.Clean t) last m ∧
        ∀ q, run s last m = .finished q → ∀ i < p.scopes.size, ∀ key,
          q.scopes.tableIn? i key = m.scopes.tableIn? i key) :
    LeavesClean base s (.enter n kind correlated :: (body ++ last)) p := by
  -- Where the body ends, the entered scope is current again.
  have hcurrent : ∀ entered m, p.scopes.enter n kind correlated = .ok entered →
      run s body { p with scopes := entered } = .finished m →
      base.Clean m.scopes ∧ m.scopes.current = some p.scopes.size := by
    intro entered m hentered hm
    have hclean := hp.enter hkind hentered
    exact ⟨(hbody _ hclean).clean hbalanced hinner hclean hm,
      (hbalanced.returns hm).current.trans (ScopeTree.get?_of_enter hentered).1⟩
  refine ⟨⟨fun _ => hp, fun m hm => ?_⟩, fun q hq i hi key => ?_⟩
  · simp only [Step.perform] at hm
    obtain ⟨entered, hentered, rfl⟩ := Step.changeScopes_eq_finished hm
    refine (hbody _ (hp.enter hkind hentered)).along.append fun m' hm' => ?_
    obtain ⟨hclean, hcurrent⟩ := hcurrent entered m' hentered hm'
    exact (hlast m' hclean hcurrent).1
  · obtain ⟨m, hm, hrest⟩ := run_cons_eq_finished hq
    obtain ⟨m', hm', hend⟩ := run_append_eq_finished hrest
    have henter := Step.tableIn?_of_other hm (by simp) (by simp) i key
    simp only [Step.perform] at hm
    obtain ⟨entered, hentered, rfl⟩ := Step.changeScopes_eq_finished hm
    obtain ⟨hclean, hcurrent⟩ := hcurrent entered m' hentered hm'
    have hlt : i < entered.size := by
      rw [ScopeTree.size_of_enter hentered]
      exact Nat.lt_succ_of_lt hi
    rw [(hlast m' hclean hcurrent).2 q hend i hi key,
      (hbody _ (hp.enter hkind hentered)).kept m' hm' i hlt key, henter]

/-- **Initializers leave nothing behind.**  Tidy steps that enter no statement and
define no common table store rows where nothing sees them. -/
theorem Tidy.leavesClean (hbase : base.AtRoot) (hl : Tidy l)
    (hinner : ∀ owner kind correlated, Step.enter owner kind correlated ∈ l →
      kind.isStatement = false)
    (hdefine : ∀ n name, Step.defineTable n name ∉ l) (hp : base.Clean p.scopes) :
    LeavesClean base s l p := by
  induction hl generalizing p with
  | nil =>
      refine ⟨trivial, fun q hq _ _ _ => ?_⟩
      cases hq
      rfl
  | step hquiet hstores =>
      refine ⟨⟨fun _ => hp, fun _ _ => trivial⟩, fun q hq i _ key => ?_⟩
      rw [run_singleton] at hq
      refine Step.tableIn?_of_other hq (fun n name heq => ?_) hstores i key
      exact hdefine n name (heq ▸ List.mem_singleton_self _)
  | append hfirst hsecond ih ih' =>
      simp only [List.mem_append, or_imp, forall_and, not_or] at hinner hdefine
      have hclean := ih hinner.1 hdefine.1 hp
      have hclean' : ∀ m, run s _ p = .finished m → LeavesClean base s _ m := fun m hm =>
        ih' hinner.2 hdefine.2 (hclean.clean hfirst.balanced hinner.1 hp hm)
      refine ⟨hclean.along.append fun m hm => (hclean' m hm).along, fun q hq i hi key => ?_⟩
      obtain ⟨m, hm, hq⟩ := run_append_eq_finished hq
      have hle := ScopeTree.size_le_of_frames (hfirst.balanced.returns hm).frames
      rw [(hclean' m hm).kept q hq i (Nat.lt_of_lt_of_le hi hle) key, hclean.kept m hm i hi key]
  | scope n kind correlated hbody ih =>
      simp only [List.mem_cons, List.mem_append, or_imp, forall_and, not_or] at hinner hdefine
      have hkind := hinner.1 n kind correlated rfl
      refine leavesClean_of_scope hp hkind hbody.balanced hinner.2.1
        (fun m hm => ih hinner.2.1 hdefine.2.1 hm) fun m hm hcurrent => ?_
      refine ⟨⟨fun hne => (hne rfl).elim, fun _ _ => trivial⟩, fun q hq i _ key => ?_⟩
      rw [run_singleton] at hq
      exact Step.tableIn?_of_other hq (by simp) (by simp) i key
  | storing n kind correlated clause source target hbody ih =>
      simp only [List.mem_cons, List.mem_append, or_imp, forall_and, not_or] at hinner hdefine
      have hkind := hinner.1 n kind correlated rfl
      refine leavesClean_of_scope hp hkind hbody.balanced hinner.2.1
        (fun m hm => ih hinner.2.1 hdefine.2.1 hm) fun m hm hcurrent => ?_
      refine ⟨⟨fun _ => hm, fun _ _ => ⟨fun hne => (hne rfl).elim, fun _ _ => trivial⟩⟩,
        fun q hq i hi key => ?_⟩
      -- The rows go to the scope that is left next.
      obtain ⟨m', hstore, hleave⟩ := run_cons_eq_finished hq
      rw [run_singleton] at hleave
      have hstorage := (hm.storage hbase).trans hcurrent
      have hsize := ScopeTree.current_lt_size hm.nested hcurrent
      rw [Step.tableIn?_of_other hleave (by simp) (by simp),
        Step.tableIn?_of_storeInto hstore hstorage hsize, if_neg (Nat.ne_of_lt hi)]

end

/-- What the steps of an item see and leave behind in the scope of the script.
The tables that rows are stored in are left behind by a statement only. -/
structure ItemRun (s : Surroundings) (stores : Bool) (bindings : Bindings) (l : List Step)
    (p q : Progress) : Prop where
  atRoot : q.scopes.AtRoot
  tables : ∀ key, q.scopes.tableIn? 0 key =
    (latest? (Step.storedTable? key) (if stores then l else [])).or (p.scopes.tableIn? 0 key)
  types : ∀ key, q.scopes.variableIn? 0 key =
    (latest? (Step.declaredType? bindings key) l).or (p.scopes.variableIn? 0 key)
  inner : ∀ i key, i ≠ 0 → q.scopes.variableIn? i key = p.scopes.variableIn? i key
  table_seen : ∀ own n name aliasName rest m, l = own ++ .useTable n name aliasName :: rest →
    run s own p = .finished m →
    m.scopes.table? name = (latest? (Step.commonTable? (nameKey name)) own).or
      ((latest? (Step.storedTable? (nameKey name)) (if stores then own else [])).or
        (p.scopes.tableIn? 0 (nameKey name)))
  type_seen : ∀ own n name aliasName rest m, l = own ++ .useTable n name aliasName :: rest →
    run s own p = .finished m → (∀ i key, i ≠ 0 → p.scopes.variableIn? i key = none) →
    m.scopes.variableType? name =
      (latest? (Step.declaredType? bindings (nameKey name)) own).or
        (p.scopes.variableIn? 0 (nameKey name))

section

variable {bindings : Bindings}

section

variable (h : run s l p = .finished q)
  (hdeclare : ∀ n typeName name initializer, Step.declare n typeName name initializer ∉ l)
  (hinner : ∀ i key, i ≠ 0 → p.scopes.variableIn? i key = none) {seen : List ScopeId}
  (hchain : q.scopes.chain q.scopes.current = seen ++ [0]) (hseen : ∀ i ∈ seen, 0 < i)
  (name : String)

include h hdeclare hinner hchain hseen

/-- The variables that are seen are those that the script has before the steps. -/
theorem variableType?_of_chain :
    q.scopes.variableType? name = p.scopes.variableIn? 0 (nameKey name) := by
  have hnone : ∀ i ∈ seen, q.scopes.variableIn? i (nameKey name) = none := fun i hi => by
    rw [run_variableIn? h hdeclare]
    exact hinner i _ (Nat.ne_of_gt (hseen i hi))
  rw [← run_variableIn? h hdeclare, ScopeTree.variableType?,
    ScopeTree.lookup?_of_append hchain hnone, List.findSome?_singleton]
  rfl

/-- The variables that are seen are those of the script. -/
theorem variableType?_of_run :
    q.scopes.variableType? name = (latest? (Step.declaredType? bindings (nameKey name)) l).or
      (p.scopes.variableIn? 0 (nameKey name)) := by
  rw [latest?_declaredType? bindings _ hdeclare, Option.none_or]
  exact variableType?_of_chain h hdeclare hinner hchain hseen name

end

section

variable {item : NodeId} {kind : NodeKind} {body own rest : List Step} {n : NodeId}
  {name shown : String} {m : Progress} (hbody : Statement body) (hkind : kind.isStatement)
  (hroot : p.scopes.AtRoot)

include hbody hkind hroot

/-- A reference in a statement stands behind the step that enters its scope. -/
theorem Statement.exists_entered
    (hsplit : .enter item kind false :: (body ++ [.leave]) =
      own ++ .useTable n name shown :: rest)
    (hown : run s own p = .finished m) :
    ∃ done rest' entered, own = .enter item kind false :: done ∧
      p.scopes.enter item kind false = .ok entered ∧
      run s done { p with scopes := entered } = .finished m ∧
      Keeps s (AtStatement p.scopes.size) (done ++ .useTable n name shown :: rest')
        { p with scopes := entered } := by
  obtain ⟨done, rest', rfl, hdone⟩ := split_scope hsplit (by simp) (by simp)
  obtain ⟨m₀, henter, hrun⟩ := run_cons_eq_finished hown
  simp only [Step.perform] at henter
  obtain ⟨entered, hentered, rfl⟩ := Step.changeScopes_eq_finished henter
  exact ⟨done, rest', entered, rfl, hentered, hrun, hdone ▸ hbody.keeps hroot hkind hentered⟩

/-- The tables that a reference in a statement sees. -/
theorem Statement.table_seen
    (hsplit : .enter item kind false :: (body ++ [.leave]) =
      own ++ .useTable n name shown :: rest)
    (hown : run s own p = .finished m) :
    m.scopes.table? name = (latest? (Step.commonTable? (nameKey name)) own).or
      ((latest? (Step.storedTable? (nameKey name)) own).or
        (p.scopes.tableIn? 0 (nameKey name))) := by
  obtain ⟨done, rest', entered, rfl, hentered, hrun, hkeeps⟩ :=
    hbody.exists_entered hkind hroot hsplit hown
  have hsame : ∀ i key, entered.tableIn? i key = p.scopes.tableIn? i key := fun i key =>
    ScopeTree.bind_get?_of_enter (fun _ _ _ => Directory.find?_empty key) hentered i
  have hfresh : ∀ i key, p.scopes.size ≤ i → entered.tableIn? i key = none := by
    intro i key hi
    rw [hsame, ScopeTree.tableIn?_of_size_le hi]
  rw [table?_of_statement hkeeps hfresh hrun, hsame]
  simp [latest?_cons, Step.commonTable?, Step.storedTable?]

/-- The variables that a reference in a statement sees. -/
theorem Statement.type_seen
    (hsplit : .enter item kind false :: (body ++ [.leave]) =
      own ++ .useTable n name shown :: rest)
    (hown : run s own p = .finished m)
    (hinner : ∀ i key, i ≠ 0 → p.scopes.variableIn? i key = none) :
    m.scopes.variableType? name = (latest? (Step.declaredType? bindings (nameKey name)) own).or
      (p.scopes.variableIn? 0 (nameKey name)) := by
  have hdeclare : ∀ n typeName name initializer,
      Step.declare n typeName name initializer ∉ own := by
    intro n typeName name initializer hmem
    have hmem' : Step.declare n typeName name initializer ∈
        .enter item kind false :: (body ++ [.leave]) :=
      hsplit ▸ List.mem_append_left _ hmem
    simp [hbody.declares_nothing] at hmem'
  obtain ⟨done, rest', entered, rfl, -, hrun, hkeeps⟩ :=
    hbody.exists_entered hkind hroot hsplit hown
  have hin := (hkeeps.before hrun).1
  obtain ⟨seen, hchain, hlater⟩ := hin.chain
  rw [← List.singleton_append, ← List.append_assoc] at hchain
  refine variableType?_of_run hown hdeclare hinner hchain (fun i hi => ?_) name
  rcases List.mem_append.1 hi with hi | hi
  · exact Nat.lt_trans hin.top_pos (hlater i hi)
  · rw [List.mem_singleton.1 hi]
    exact hin.top_pos

/-- **A statement** shows its common tables to its own references, and leaves the
tables behind that it stores rows in. -/
theorem itemRun_of_statement
    (h : run s (.enter item kind false :: (body ++ [.leave])) p = .finished q) :
    ItemRun s true bindings (.enter item kind false :: (body ++ [.leave])) p q := by
  have hreturn := (Balanced.scope item kind false hbody.balanced).returns h
  have hdeclare : ∀ n typeName name initializer, Step.declare n typeName name initializer ∉
      .enter item kind false :: (body ++ [.leave]) := by
    simp [hbody.declares_nothing]
  refine ⟨hroot.returns (run_nested hroot.nested h) hreturn, fun key => ?_, fun key => ?_,
    fun i key _ => run_variableIn? h hdeclare i key,
    fun _ _ _ _ _ _ hsplit hown => hbody.table_seen hkind hroot hsplit hown,
    fun _ _ _ _ _ _ hsplit hown hinner => hbody.type_seen hkind hroot hsplit hown hinner⟩
  · obtain ⟨m, henter, hrest⟩ := run_cons_eq_finished h
    obtain ⟨m', hm', hleave⟩ := run_append_eq_finished hrest
    rw [run_singleton] at hleave
    have hsame := Step.tableIn?_of_other henter (by simp) (by simp) 0 key
    simp only [Step.perform] at henter
    obtain ⟨entered, hentered, rfl⟩ := Step.changeScopes_eq_finished henter
    have htop : ¬ 0 = p.scopes.size :=
      Nat.ne_of_lt (ScopeTree.current_lt_size hroot.nested hroot.current)
    have hstored := run_tableIn?_of_statement (hbody.keeps hroot hkind hentered) hm' 0 key
    rw [if_neg htop, if_pos rfl] at hstored
    rw [Step.tableIn?_of_other hleave (by simp) (by simp), hstored, hsame]
    simp [latest?_cons, latest?_append, Step.storedTable?]
  · rw [latest?_declaredType? bindings key hdeclare, Option.none_or, run_variableIn? h hdeclare]

end

/-- What is seen in an initializer are the tables that the script has. -/
theorem table?_of_clean {base t : ScopeTree} (hbase : base.AtRoot) (h : base.Clean t)
    (name : String) : t.table? name = base.tableIn? 0 (nameKey name) := by
  obtain ⟨seen, hchain, hlater⟩ := hbase.chain_of_inside h.inside h.nested
  have hnone : ∀ i ∈ seen, t.tableIn? i (nameKey name) = none := by
    intro i hi
    exact h.no_tables i (hchain ▸ List.mem_append_left _ hi) (hlater i hi) _
  have hzero : 0 < base.size := ScopeTree.current_lt_size hbase.nested hbase.current
  rw [ScopeTree.table?, ScopeTree.lookup?_of_append hchain hnone, List.findSome?_singleton]
  exact h.kept 0 hzero (nameKey name)

section

variable {type : NodeId} {typeName name : String} {initializer : Option NodeId}
  {body own rest : List Step} {n : NodeId} {name' shown : String} {m : Progress}
  (hbody : Initializer body) (hroot : p.scopes.AtRoot)

include hbody hroot

theorem Initializer.leavesClean : LeavesClean p.scopes s body p :=
  hbody.tidy.leavesClean hroot hbody.inner hbody.defines_nothing (.start hroot)

/-- A reference in a declaration stands in the initializer, before the variable is
declared, and sees nothing but the scope of the script. -/
theorem Initializer.clean_before
    (hsplit : body ++ [.declare type typeName name initializer] =
      own ++ .useTable n name' shown :: rest)
    (hown : run s own p = .finished m) : own ⊆ body ∧ p.scopes.Clean m.scopes := by
  obtain ⟨rest', rfl⟩ := split_last hsplit (by simp)
  exact ⟨List.subset_append_left _ _,
    (hbody.leavesClean hroot).along.before hown (by simp)⟩

/-- The tables that a reference in a declaration sees. -/
theorem Initializer.table_seen
    (hsplit : body ++ [.declare type typeName name initializer] =
      own ++ .useTable n name' shown :: rest)
    (hown : run s own p = .finished m) :
    m.scopes.table? name' = (latest? (Step.commonTable? (nameKey name')) own).or
      (p.scopes.tableIn? 0 (nameKey name')) := by
  obtain ⟨hsubset, hclean⟩ := hbody.clean_before hroot hsplit hown
  have hcommon : latest? (Step.commonTable? (nameKey name')) own = none := by
    rw [latest?_eq_none_iff]
    intro step hmem
    cases step with
    | defineTable c tableName =>
        exact (hbody.defines_nothing c tableName (hsubset hmem)).elim
    | _ => rfl
  rw [table?_of_clean hroot hclean, hcommon, Option.none_or]

/-- The variables that a reference in a declaration sees. -/
theorem Initializer.type_seen
    (hsplit : body ++ [.declare type typeName name initializer] =
      own ++ .useTable n name' shown :: rest)
    (hown : run s own p = .finished m)
    (hinner : ∀ i key, i ≠ 0 → p.scopes.variableIn? i key = none) :
    m.scopes.variableType? name' =
      (latest? (Step.declaredType? bindings (nameKey name')) own).or
        (p.scopes.variableIn? 0 (nameKey name')) := by
  obtain ⟨hsubset, hclean⟩ := hbody.clean_before hroot hsplit hown
  obtain ⟨seen, hchain, hlater⟩ := hroot.chain_of_inside hclean.inside hclean.nested
  have hzero := ScopeTree.current_lt_size hroot.nested hroot.current
  refine variableType?_of_run hown (fun n typeName name init hmem => ?_) hinner hchain
    (fun i hi => Nat.lt_of_lt_of_le hzero (hlater i hi)) name'
  exact hbody.declares_nothing n typeName name init (hsubset hmem)

/-- **A declaration** leaves its variable behind, if the type of it is known, and
shows nothing of its initializer. -/
theorem itemRun_of_declaration
    (h : run s (body ++ [.declare type typeName name initializer]) p = .finished q)
    (hfresh : p.bindings.find? type = none) (htype : type ∉ subjects body)
    (hagree : bindings.find? type = q.bindings.find? type) :
    ItemRun s false bindings (body ++ [.declare type typeName name initializer]) p q := by
  obtain ⟨m, hm, hdeclare⟩ := run_append_eq_finished h
  rw [run_singleton] at hdeclare
  have hzero := ScopeTree.current_lt_size hroot.nested hroot.current
  have hroot' := hroot.returns (run_nested hroot.nested hm) (hbody.tidy.balanced.returns hm)
  have hsame := run_variableIn? hm hbody.declares_nothing
  have hvariables := Step.variableIn?_of_declare hdeclare hroot'.current
    (ScopeTree.current_lt_size hroot'.nested hroot'.current)
    ((run_find?_of_not_mem hm htype).trans hfresh)
  refine ⟨hroot'.returns (run_nested hroot.nested h) (returns_of_quiet rfl hdeclare),
    fun key => ?_, fun key => ?_, fun i key hi => ?_,
    fun _ _ _ _ _ _ hsplit hown => hbody.table_seen hroot hsplit hown,
    fun _ _ _ _ _ _ hsplit hown hinner => hbody.type_seen hroot hsplit hown hinner⟩
  · rw [Step.tableIn?_of_other hdeclare (by simp) (by simp),
      (hbody.leavesClean hroot).kept m hm 0 hzero key]
    rfl
  · have hdeclared : (Step.declare type typeName name initializer).declaredType? bindings key =
        (Step.declare type typeName name initializer).declaredType? q.bindings key := by
      simp only [Step.declaredType?, hagree]
    rw [hvariables, if_pos rfl, latest?_append, latest?_singleton,
      latest?_declaredType? bindings key hbody.declares_nothing, Option.or_none, hdeclared, hsame]
  · rw [hvariables, if_neg hi, hsame]

end

end

end Walk

end UnionScript
