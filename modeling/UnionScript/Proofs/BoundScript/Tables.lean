import Mathlib.Data.List.Induction
import UnionScript.Proofs.Walk.Order
import UnionScript.Proofs.Walk.Visible

/-!
# What the names of tables stand for

A name of a table may stand for a common table, for a table that rows are stored
in, for a variable, or for an object of the schema, and each of them hides those
that come after it in this list.  Which tables have been registered when a
reference is visited depends on the order of the walk only, so what a name stands
for can be read off the steps before the reference (`tableMeant`):

* a common table if the item with the reference has defined one of that name;
* else the latest table of that name that a statement has stored rows in;
* else the variable of that name, if the type of the latest one is a record type;
* else what the schema has to say.

Main statement: `table_names_are_resolved`.  By induction along the items the
scope of the script holds what the items so far have left behind (`Known`), and
an item sees that and its own common tables (`Walk.ItemRun`).  Which common tables
these are depends on where they are listed (`Tree.OffersLast`), and a table may be
referred to inside of itself.
-/

namespace UnionScript

namespace Tree

/-- The node is a statement. -/
def isStatementAt (t : Tree) (n : NodeId) : Bool :=
  (t.get? n).any (fun x => x.kind.isStatement)

/-- The walk over an item of a script. -/
def itemWalk (t : Tree) (limit : Nat) (item : NodeId) : List Step :=
  Walk.steps t limit (limit - 1) item

/-- Steps in an item that later references see the stored tables of: those in a
statement. -/
def storing (t : Tree) (item : NodeId) (l : List Step) : List Step :=
  if t.isStatementAt item then l else []

/-- All steps in items whose stored tables are seen later. -/
def storingIn (t : Tree) (visit : NodeId → List Step) (items : List NodeId) : List Step :=
  items.flatMap fun item => t.storing item (visit item)

end Tree

/-- **What the name of a table stands for** in an item of a script, behind the
steps of the item so far and all steps of the items before it. -/
def tableMeant (tree : Tree) (provider : Provider) (bindings : Bindings)
    (visit : NodeId → List Step) (earlier : List NodeId) (item : NodeId) (own : List Step)
    (name : String) : Except Error (Option TableSource) :=
  let key := nameKey name
  let stored := tree.storingIn visit earlier ++ tree.storing item own
  match (Walk.latest? (Step.commonTable? key) own).or
    (Walk.latest? (Step.storedTable? key) stored) with
  | some source => .ok (some source)
  | none =>
    match Walk.latest? (Step.declaredType? bindings key) (earlier.flatMap visit ++ own) with
    | some (.record definition) => .ok (some (.parameter name definition))
    | _ => (provider.object name).map (·.map TableSource.entity)

section

variable {tree : Tree} {provider : Provider} {bindings : Bindings} {visit : NodeId → List Step}
  {earlier : List NodeId} {item : NodeId} {own : List Step} {name : String}

/-- A name stands for a common table of the item, for a table that rows were
stored in, or, where none were stored under it, for something else. -/
theorem tableMeant_cases {found : Option TableSource}
    (h : tableMeant tree provider bindings visit earlier item own name = .ok found) :
    (∃ c, Walk.latest? (Step.commonTable? (nameKey name)) own = some (.commonTable c) ∧
      found = some (.commonTable c)) ∨
    (∃ clause source target,
      .storeInto clause source target ∈ tree.storingIn visit earlier ++ tree.storing item own ∧
      nameKey target = nameKey name ∧ found = some (storedTable target source)) ∨
    ((∀ clause source target,
      .storeInto clause source target ∈ tree.storingIn visit earlier ++ tree.storing item own →
      nameKey target ≠ nameKey name) ∧ ∀ c, found ≠ some (.commonTable c)) := by
  simp only [tableMeant] at h
  split at h
  · rename_i table htable
    obtain rfl : some table = found := Except.ok.inj h
    rcases Option.or_eq_some_iff.1 htable with hcommon | ⟨-, hstored⟩
    · left
      obtain ⟨step, -, hstep⟩ := Walk.exists_mem_of_latest? hcommon
      obtain ⟨c, -, -, -, rfl⟩ := Step.commonTable?_eq_some_iff.1 hstep
      exact ⟨c, hcommon, rfl⟩
    · right; left
      obtain ⟨step, hmem, hstep⟩ := Walk.exists_mem_of_latest? hstored
      obtain ⟨clause, source, target, rfl, hkey, rfl⟩ := Step.storedTable?_eq_some_iff.1 hstep
      exact ⟨clause, source, target, hmem, hkey, rfl⟩
  · rename_i htable
    right; right
    have hstored := (Option.or_eq_none_iff.1 htable).2
    refine ⟨fun clause source target hmem hkey => ?_, ?_⟩
    · have hnone := Walk.latest?_eq_none_iff.1 hstored _ hmem
      simp [Step.storedTable?, hkey] at hnone
    · rintro c rfl
      split at h
      · cases h
      · cases hobject : provider.object name with
        | error e => simp [hobject, Except.map] at h
        | ok answer => cases answer <;> simp [hobject, Except.map] at h

/-- A name stands for a common table if this is the latest one that was defined under it. -/
theorem tableMeant_eq_commonTable_iff {c : NodeId} :
    tableMeant tree provider bindings visit earlier item own name = .ok (some (.commonTable c)) ↔
      Walk.latest? (Step.commonTable? (nameKey name)) own = some (.commonTable c) := by
  constructor
  · intro h
    rcases tableMeant_cases h with ⟨c', hlatest, heq⟩ | ⟨-, source, target, -, -, heq⟩ | ⟨-, hne⟩
    · cases heq
      exact hlatest
    · exact (storedTable_ne_commonTable target source c (Option.some.inj heq).symm).elim
    · exact (hne c rfl).elim
  · intro h
    simp [tableMeant, h]

/-- Where a statement has stored rows under a name, the name stands for a common
table or a stored one. -/
theorem tableMeant_of_storeInto {found : Option TableSource}
    (h : tableMeant tree provider bindings visit earlier item own name = .ok found)
    {statement : NodeId} (hmem : statement ∈ earlier) (hkind : tree.isStatementAt statement)
    {clause source : NodeId} {target : String}
    (hstore : .storeInto clause source target ∈ visit statement)
    (hkey : nameKey target = nameKey name) :
    (∃ c, found = some (.commonTable c)) ∨
      ∃ target' source', nameKey target' = nameKey name ∧
        found = some (storedTable target' source') := by
  rcases tableMeant_cases h with ⟨c, -, heq⟩ | ⟨-, source', target', -, hkey', heq⟩ | ⟨hnone, -⟩
  · exact Or.inl ⟨c, heq⟩
  · exact Or.inr ⟨target', source', hkey', heq⟩
  · refine (hnone clause source target (List.mem_append_left _ ?_) hkey).elim
    refine List.mem_flatMap.2 ⟨statement, hmem, ?_⟩
    rw [Tree.storing, if_pos hkind]
    exact hstore

end

/-- What the scope of a script holds after some of its items: what their
statements stored, and what they declared. -/
structure Known (tree : Tree) (bindings : Bindings) (visit : NodeId → List Step)
    (items : List NodeId) (p : Progress) : Prop where
  atRoot : p.scopes.AtRoot
  tables : ∀ key, p.scopes.tableIn? 0 key =
    Walk.latest? (Step.storedTable? key) (tree.storingIn visit items)
  types : ∀ key, p.scopes.variableIn? 0 key =
    Walk.latest? (Step.declaredType? bindings key) (items.flatMap visit)
  inner : ∀ i key, i ≠ 0 → p.scopes.variableIn? i key = none

namespace Known

variable {s : Surroundings} {tree : Tree} {bindings : Bindings} {visit : NodeId → List Step}
  {items : List NodeId} {item : NodeId} {p q : Progress}

/-- Nothing is known when the script begins. -/
theorem start {root : NodeId} (h : (Step.enter root .script false).perform s {} = .finished p) :
    Known tree bindings visit [] p := by
  have htables := Step.tableIn?_of_other h (by simp) (by simp)
  have htypes := Step.variableIn?_of_other h (by simp)
  simp only [Step.perform] at h
  obtain ⟨entered, hentered, rfl⟩ := Step.changeScopes_eq_finished h
  have hempty : Nested ScopeTree.empty.frames ScopeTree.empty.current := ScopeTree.nested_after []
  obtain ⟨hcurrent, hnew⟩ := ScopeTree.get?_of_enter hentered
  exact ⟨⟨ScopeTree.nested_of_enter hempty hentered, hcurrent, _, hnew, rfl⟩, htables 0, htypes 0,
    fun i key _ => htypes i key⟩

/-- **One item more.** -/
theorem next (h : Known tree bindings visit items p)
    (hitem : Walk.ItemRun s (tree.isStatementAt item) bindings (visit item) p q) :
    Known tree bindings visit (items ++ [item]) q := by
  refine ⟨hitem.atRoot, fun key => ?_, fun key => ?_, fun i key hi => ?_⟩
  · rw [hitem.tables, h.tables, Tree.storingIn, Tree.storingIn, List.flatMap_append,
      Walk.latest?_append, List.flatMap_singleton]
    rfl
  · rw [hitem.types, h.types, List.flatMap_append, Walk.latest?_append, List.flatMap_singleton]
  · rw [hitem.inner i key hi, h.inner i key hi]

/-- **Resolving a name.**  At a reference in an item the name stands for what the
steps before it say. -/
theorem resolveTable_eq (h : Known tree bindings visit items p)
    (hitem : Walk.ItemRun s (tree.isStatementAt item) bindings (visit item) p q)
    {own rest : List Step} {n : NodeId} {name shown : String} {m : Progress}
    (hsplit : visit item = own ++ .useTable n name shown :: rest)
    (hown : Walk.run s own p = .finished m) :
    m.scopes.resolveTable s.provider name =
      tableMeant tree s.provider bindings visit items item own name := by
  have htable : (Walk.latest? (Step.commonTable? (nameKey name)) own).or
      (Walk.latest? (Step.storedTable? (nameKey name))
        (tree.storingIn visit items ++ tree.storing item own)) = m.scopes.table? name := by
    rw [hitem.table_seen own n name shown rest m hsplit hown, h.tables, Walk.latest?_append]
    rfl
  have htype : Walk.latest? (Step.declaredType? bindings (nameKey name))
      (items.flatMap visit ++ own) = m.scopes.variableType? name := by
    rw [hitem.type_seen own n name shown rest m hsplit hown h.inner, h.types,
      Walk.latest?_append]
  simp only [tableMeant, htable, htype]
  rfl

end Known

namespace Walk

variable {s : Surroundings} {p q m : Progress}

/-- Where steps are about different nodes, those in the middle find their nodes
without bindings, and those behind leave these bindings alone. -/
theorem run_frame {first l rest : List Step}
    (hnodup : (subjects (first ++ (l ++ rest))).Nodup) (hfirst : run s first {} = .finished p)
    (hrest : run s rest m = .finished q) {n : NodeId} (hn : n ∈ subjects l) :
    p.bindings.find? n = none ∧ q.bindings.find? n = m.bindings.find? n := by
  simp only [subjects, List.filterMap_append] at hnodup hn
  have hlater : n ∈ l.filterMap Step.subject? ++ rest.filterMap Step.subject? :=
    List.mem_append_left _ hn
  constructor
  · rw [run_find?_of_not_mem hfirst fun hmem => ?_]
    · exact Directory.find?_empty n
    · exact (List.nodup_append.1 hnodup).2.2 n hmem n hlater rfl
  · refine run_find?_of_not_mem hrest fun hmem => ?_
    exact (List.nodup_append.1 (List.nodup_append.1 hnodup).2.1).2.2 n hn n hmem rfl

/-- A reference to a table is bound to what its name is resolved to. -/
theorem find?_of_useTable {n : NodeId} {name shown : String}
    (h : (Step.useTable n name shown).perform s p = .finished q)
    (hfresh : p.bindings.find? n = none) :
    ∃ found, p.scopes.resolveTable s.provider name = .ok found ∧
      q.bindings.find? n = found.map .table := by
  obtain ⟨found, hfound, h⟩ := Step.ask_eq_finished h
  refine ⟨found, hfound, ?_⟩
  cases found with
  | none =>
      cases h
      exact hfresh
  | some source =>
      rw [Progress.bindTable] at h
      obtain ⟨scopes, -, rfl⟩ := Step.changeScopes_eq_finished h
      simp [Progress.bind]

/-- The walk over an item of a flat script, whichever it is. -/
theorem itemRun_of_run {tree : Tree} {limit depth : Nat} {root item : NodeId}
    {items : List NodeId} {bindings : Bindings} (hflat : tree.FlatScript root items)
    (hshape : tree.TreeShaped) (hroot : tree.Grounded root) (hitem : item ∈ items)
    (hrun : run s (steps tree limit depth item) p = .finished q) (hp : p.scopes.AtRoot)
    (hfresh : ∀ n ∈ subjects (steps tree limit depth item), p.bindings.find? n = none)
    (hagree : ∀ n ∈ subjects (steps tree limit depth item),
      bindings.find? n = q.bindings.find? n) :
    ItemRun s (tree.isStatementAt item) bindings (steps tree limit depth item) p q := by
  have hlegal := legal_of_run hrun
  have hspells : Spells tree item (.visit item) (steps tree limit depth item) :=
    steps_spells limit depth item item
  have hnodup := (hspells.covers hlegal rfl).nodup hshape
  obtain ⟨x, hx, hkind⟩ := hflat.kinds item hitem
  have hat : tree.isStatementAt item = x.kind.isStatement := by
    simp [Tree.isStatementAt, hx]
  cases hstatement : x.kind.isStatement with
  | true =>
      obtain ⟨body, hsteps, hbody⟩ :=
        steps_statement hflat hshape hroot hitem hx hstatement hlegal
      rw [hat, hstatement]
      rw [hsteps] at hrun ⊢
      exact itemRun_of_statement hbody hstatement hp hrun
  | false =>
      have hdeclare : x.kind = .declare := by simpa [NodeKind.isItem, hstatement] using hkind
      cases x <;> cases hdeclare
      obtain ⟨body, typeName, hsteps, hbody⟩ :=
        steps_declaration hflat hshape hroot hitem hx hlegal
      rw [hat, hstatement]
      rw [hsteps] at hrun hnodup hfresh hagree ⊢
      simp only [subjects, List.filterMap_append, List.filterMap_cons, List.filterMap_nil,
        Step.subject?] at hnodup hfresh hagree
      refine itemRun_of_declaration hbody hp hrun (hfresh _ (by simp)) (fun hmem => ?_)
        (hagree _ (by simp))
      exact (List.nodup_append.1 hnodup).2.2 _ hmem _ (List.mem_singleton_self _) rfl

section

variable {tree : Tree} {limit : Nat} {root item : NodeId} {items earlier later : List NodeId}

/-- A walk has a step about each node of some kinds, which knows the node. -/
theorem exists_step_of_reaches {l : List Step} (hspells : Spells tree item (.visit item) l)
    (hlegal : Legal l) {n : NodeId} {x : Node} (hn : tree.Reaches item n)
    (hx : tree.get? n = some x) (hstep : x.kind.hasStep) :
    ∃ step ∈ l, step.subject? = some n ∧ step.Fits tree ∧ step.subjectKind? = some x.kind := by
  have hcomplete := (hspells.covers hlegal rfl).complete n x hn hx hstep
  obtain ⟨step, hmem, hsub⟩ := mem_subjects.1 hcomplete
  have hfits := hspells.fits trivial step hmem
  exact ⟨step, hmem, hsub, hfits, hfits.subjectKind? hsub hx⟩

/-- A walk resolves each reference to a table. -/
theorem useTable_of_reaches {l : List Step} (hspells : Spells tree item (.visit item) l)
    (hlegal : Legal l) {n : NodeId} {name : String} {aliasName : Option String}
    (hn : tree.Reaches item n) (hx : tree.get? n = some (.tableReference name aliasName)) :
    ∃ shown, .useTable n name shown ∈ l := by
  obtain ⟨step, hmem, hsub, hfits, hkind⟩ := exists_step_of_reaches hspells hlegal hn hx rfl
  cases step <;> cases hsub <;> cases hkind
  case enter => cases hfits.1
  case useTable name' shown =>
    obtain ⟨aliasName', hx', -⟩ := hfits
    cases hx.symm.trans hx'
    exact ⟨shown, hmem⟩

/-- A walk stores rows by each clause for that. -/
theorem storeInto_of_reaches {l : List Step} (hspells : Spells tree item (.visit item) l)
    (hlegal : Legal l) {clause : NodeId} {target : String} (hn : tree.Reaches item clause)
    (hx : tree.get? clause = some (.into target)) :
    ∃ source, .storeInto clause source target ∈ l := by
  obtain ⟨step, hmem, hsub, hfits, hkind⟩ := exists_step_of_reaches hspells hlegal hn hx rfl
  cases step <;> cases hsub <;> cases hkind
  case enter => cases hfits.1
  case storeInto source target' =>
    cases hx.symm.trans hfits.1
    exact ⟨source, hmem⟩

/-- The walk over a script goes through its items. -/
theorem walk_eq_items (hscript : tree.get? root = some (.script items))
    (hlegal : Legal (tree.walk limit root)) :
    tree.walk limit root =
      .enter root .script false :: (items.flatMap (tree.itemWalk limit) ++ [.leave]) := by
  cases limit with
  | zero => exact (hlegal _ (List.mem_singleton_self _)).elim
  | succ depth => exact steps_script hscript

/-- The walk over a script as what comes before an item, the item, and the rest. -/
theorem walk_eq_split (hscript : tree.get? root = some (.script items))
    (hlegal : Legal (tree.walk limit root)) (hitems : items = earlier ++ item :: later) :
    tree.walk limit root =
      (.enter root .script false :: earlier.flatMap (tree.itemWalk limit)) ++
        (tree.itemWalk limit item ++ (later.flatMap (tree.itemWalk limit) ++ [.leave])) := by
  rw [walk_eq_items hscript hlegal, hitems]
  simp

variable (hflat : tree.FlatScript root items) (hshape : tree.TreeShaped)
  (hrun : run s (tree.walk limit root) {} = .finished q)

include hflat hshape hrun

/-- The part of a run that is about one item. -/
theorem exists_itemRun (hitems : items = earlier ++ item :: later)
    (hp : run s (.enter root .script false :: earlier.flatMap (tree.itemWalk limit)) {} =
      .finished p) (hroot : p.scopes.AtRoot) :
    ∃ m, run s (tree.itemWalk limit item) p = .finished m ∧
      run s (later.flatMap (tree.itemWalk limit) ++ [.leave]) m = .finished q ∧
      ItemRun s (tree.isStatementAt item) q.bindings (tree.itemWalk limit item) p m := by
  have hlegal := legal_of_run hrun
  have hspells : Spells tree root (.visit root) (tree.walk limit root) := walk_spells limit root
  have hcovers := hspells.covers hlegal rfl
  have hnodup := hcovers.nodup hshape
  rw [walk_eq_split hflat.script hlegal hitems] at hrun hnodup
  obtain ⟨p', hp', hrest⟩ := run_append_eq_finished hrun
  obtain rfl : p = p' := Outcome.finished.inj (hp.symm.trans hp')
  obtain ⟨m, hm, hend⟩ := run_append_eq_finished hrest
  refine ⟨m, hm, hend, ?_⟩
  exact itemRun_of_run hflat hshape hcovers.grounded (by simp [hitems]) hm hroot
    (fun n hn => (run_frame hnodup hp' hend hn).1) (fun n hn => (run_frame hnodup hp' hend hn).2)

/-- **Along the items.**  Before each item the scope of the script holds what the
items before it left behind. -/
theorem exists_known (hitems : items = earlier ++ later) :
    ∃ p, run s (.enter root .script false :: earlier.flatMap (tree.itemWalk limit)) {} =
        .finished p ∧ Known tree q.bindings (tree.itemWalk limit) earlier p := by
  induction earlier using List.reverseRecOn generalizing later with
  | nil =>
      have hfirst := hrun
      rw [walk_eq_items hflat.script (legal_of_run hrun)] at hfirst
      obtain ⟨p, hp, -⟩ := run_cons_eq_finished hfirst
      exact ⟨p, by rw [List.flatMap_nil, run_singleton, hp], .start hp⟩
  | append_singleton earlier item ih =>
      rw [List.append_assoc, List.singleton_append] at hitems
      obtain ⟨p, hp, hknown⟩ := ih hitems
      obtain ⟨m, hm, -, hitem⟩ := exists_itemRun hflat hshape hrun hitems hp hknown.atRoot
      refine ⟨m, ?_, hknown.next hitem⟩
      rw [List.flatMap_append, List.flatMap_singleton, ← List.cons_append, run_append, hp]
      exact hm

/-- **One reference.**  A reference to a table in an item is bound to what its name
stands for behind the steps before it. -/
theorem find?_of_reference (hitems : items = earlier ++ item :: later) {own rest : List Step}
    {n : NodeId} {name shown : String}
    (hsplit : tree.itemWalk limit item = own ++ .useTable n name shown :: rest) :
    ∃ found, tableMeant tree s.provider q.bindings (tree.itemWalk limit) earlier item own name =
        .ok found ∧ q.bindings.find? n = found.map .table := by
  obtain ⟨p, hp, hknown⟩ := exists_known hflat hshape hrun hitems
  obtain ⟨m, hm, hend, hitem⟩ := exists_itemRun hflat hshape hrun hitems hp hknown.atRoot
  have hnodup := ((walk_spells limit root).covers (legal_of_run hrun) rfl).nodup hshape
  rw [hsplit] at hm
  obtain ⟨m₁, hown, hrest⟩ := run_append_eq_finished hm
  obtain ⟨m₂, huse, hrest⟩ := run_cons_eq_finished hrest
  have hafter : run s (rest ++ (later.flatMap (tree.itemWalk limit) ++ [.leave])) m₂ =
      .finished q := by
    rw [run_append, hrest]
    exact hend
  have hbefore : run s ((.enter root .script false :: earlier.flatMap (tree.itemWalk limit)) ++
      own) {} = .finished m₁ := by
    rw [run_append, hp]
    exact hown
  have hwalk : tree.walk limit root =
      ((.enter root .script false :: earlier.flatMap (tree.itemWalk limit)) ++ own) ++
        ([.useTable n name shown] ++
          (rest ++ (later.flatMap (tree.itemWalk limit) ++ [.leave]))) := by
    rw [walk_eq_split hflat.script (legal_of_run hrun) hitems, hsplit]
    simp
  rw [hwalk] at hnodup
  obtain ⟨hfresh, hkept⟩ := run_frame hnodup hbefore hafter (List.mem_singleton_self n)
  obtain ⟨found, hfound, hbound⟩ := find?_of_useTable huse hfresh
  rw [hknown.resolveTable_eq hitem hsplit hown] at hfound
  exact ⟨found, hfound, hkept.trans hbound⟩

end

end Walk

/-- **Names of tables.**  In a tree-shaped flat script, as long as no schema fails,
every reference to a table is bound to what its name stands for behind the steps
that are taken before it (`tableMeant`), and is reported exactly if it stands for
nothing.  The steps go through the items in turn, with one step about each node
that registers or names something.

The common tables that are defined before a reference are those of the same item that
are not listed after the one that the reference stands in.  So a table is known inside
of itself, and a reference is bound to a common table exactly if this is the last one of
its name that the item offers to it (`Tree.OffersLast`).  What a block stores is not known
inside of the block, but is seen by all items behind, unless a common table or a later
stored one has the same name. -/
theorem table_names_are_resolved
    {config : Config} {tree : Tree} {provider : Provider} {root : NodeId} {items : List NodeId}
    {bound : BoundScript} (hshape : tree.TreeShaped) (hflat : tree.FlatScript root items)
    (hbind : bindScript config tree provider root = .ok bound)
    (hschema : ∀ detail, Diagnostic.schema detail ∉ bound.diagnostics) :
    let walk := tree.walk config.maxDepth root
    let visit := tree.itemWalk config.maxDepth
    (walk = .enter root .script false :: (items.flatMap visit ++ [.leave]) ∧
      Walk.Covers tree root walk ∧ (∀ step ∈ walk, step.Fits tree) ∧
      ∀ clause source target, .storeInto clause source target ∈ walk →
        tree.Holds source clause) ∧
    ∃ reported : List NodeId, reported.Nodup ∧
      List.Forall₂ tree.Reports reported bound.diagnostics ∧
      ∀ earlier item later, items = earlier ++ item :: later →
        ∀ n name aliasName, tree.Reaches item n →
          tree.get? n = some (.tableReference name aliasName) →
          ∃ own shown rest found, visit item = own ++ .useTable n name shown :: rest ∧
            tableMeant tree provider bound.bindings visit earlier item own name = .ok found ∧
            bound.bindings.find? n = found.map .table ∧
            (n ∈ reported ↔ found = none) ∧
            (∀ c, found = some (.commonTable c) → tree.Reaches item c) ∧
            (∀ c cname query, tree.get? c = some (.commonTable cname query) →
              tree.Reaches item c →
              (.defineTable c cname ∈ own ↔ ¬ tree.ListedBefore item n c) ∧
              (tree.Reaches c n → .defineTable c cname ∈ own ∧
                (nameKey cname = nameKey name → found = some (.commonTable c)))) ∧
            (∀ c, found = some (.commonTable c) ↔ tree.OffersLast item n (nameKey name) c) ∧
            (∀ clause source target, .storeInto clause source target ∈ own →
              ¬ tree.Reaches source n) ∧
            ∀ statement ∈ earlier, tree.isStatementAt statement →
              ∀ clause target, tree.Reaches statement clause →
                tree.get? clause = some (.into target) → nameKey target = nameKey name →
                (∃ c, found = some (.commonTable c)) ∨
                  ∃ target' source, nameKey target' = nameKey name ∧
                    found = some (storedTable target' source) := by
  intro walk visit
  obtain ⟨q, hrun, rfl⟩ := exists_run_of_bindScript hbind hschema
  have hspells : Walk.Spells tree root (.visit root) walk := Walk.walk_spells config.maxDepth root
  have hlegal := Walk.legal_of_run hrun
  have hcovers := hspells.covers hlegal rfl
  have hfits := hspells.fits trivial
  have hnodup := hcovers.nodup hshape
  have hwalk := Walk.walk_eq_items hflat.script hlegal
  have hlegal' : ∀ item ∈ items, Walk.Legal (visit item) := by
    intro item hitem fault hmem
    refine hlegal fault ?_
    rw [hwalk]
    exact List.mem_cons_of_mem _ (List.mem_append_left _ (List.mem_flatMap.2 ⟨item, hitem, hmem⟩))
  have hvisit : ∀ item, Walk.Spells tree item (.visit item) (visit item) := fun item =>
    Walk.steps_spells config.maxDepth _ item item
  refine ⟨⟨hwalk, hcovers, hfits, fun clause source target hmem =>
    hspells.holds_of_store (by simp) (by simp) hmem⟩, Walk.unresolved q.bindings walk,
    hnodup.sublist (Walk.unresolved_sublist q.bindings _),
    Walk.forall₂_diagnostics hrun hspells hshape, ?_⟩
  intro earlier item later hitems n name aliasName hreach hn
  have hitem : item ∈ items := by simp [hitems]
  obtain ⟨shown, hmem⟩ :=
    Walk.useTable_of_reaches (hvisit item) (hlegal' item hitem) hreach hn
  obtain ⟨own, rest, hsplit⟩ := List.append_of_mem hmem
  obtain ⟨found, hfound, hbound⟩ :=
    Walk.find?_of_reference hflat hshape hrun hitems hsplit
  have hspells' := hvisit item
  have hcommon : ∀ c, found = some (.commonTable c) ↔
      tree.OffersLast item n (nameKey name) c := by
    intro c
    rw [← hspells'.latest?_commonTable_iff hflat hshape hcovers.grounded hitem
      (hlegal' item hitem) hsplit]
    constructor
    · rintro rfl
      exact tableMeant_eq_commonTable_iff.1 hfound
    · intro hlatest
      exact Except.ok.inj (hfound.symm.trans (tableMeant_eq_commonTable_iff.2 hlatest))
  refine ⟨own, shown, rest, found, hsplit, hfound, hbound, ?_,
    fun c hc => ((hcommon c).1 hc).1.below, ?_, hcommon, ?_, ?_⟩
  · have hreference : tree.IsReference n := ⟨.table, name, .tableName hn⟩
    rw [Walk.mem_unresolved_iff hrun hspells, hbound, Option.map_eq_none_iff]
    exact ⟨fun h => h.2.2, fun h => ⟨hflat.reaches hitem hreach, hreference, h⟩⟩
  · intro c cname query hc hbelow
    have hdefined := hspells'.defineTable_mem_iff hflat hshape hcovers.grounded hitem
      (hlegal' item hitem) hsplit hbelow hc
    refine ⟨hdefined, fun hinside => ?_⟩
    have hlast :=
      hflat.offersLast_of_reaches hshape hcovers.grounded hitem hbelow hc hinside
    refine ⟨hdefined.2 hlast.1.notLater, fun hkey => (hcommon c).2 (hkey ▸ hlast)⟩
  · exact fun clause source target =>
      hspells'.not_reaches_of_store hshape (hlegal' item hitem) hsplit
  · intro statement hstatement hkind clause target hclause hinto hkey
    have hlegal'' := hlegal' statement (by simp [hitems, hstatement])
    obtain ⟨source, hstore⟩ :=
      Walk.storeInto_of_reaches (hvisit statement) hlegal'' hclause hinto
    exact tableMeant_of_storeInto hfound hstatement hkind hstore hkey

/-- The only object of the schema. -/
def stockDefinition : Definition :=
  ⟨3, "stock", "t_stock", [.ofType "id" "c_id" (.ofKind .uuid)]⟩

/-- A schema with one object. -/
def stockOnly : Provider :=
  ⟨fun name => .ok (if nameKey name = "stock" then some stockDefinition else none),
    fun _ => .ok none⟩

/-- A script that declares a variable of a record type, whose initializer stores
rows in `#old`; then reads the second of two common tables, which is named like the
object and reads itself, and stores rows in `#new`; and then reads the variable, `#NEW`,
the object and `#old`.  The first one of the common tables reads what is named like the
second one. -/
def storedStock : Tree :=
  ⟨#[.tableReference "stock" none, .into "#old",
    .selectExpression { source := some 0, into := some 1 }, .typeIdentifier "stock",
    .declare "@s" 3 (some 2),
    .tableReference "stock" none, .selectExpression { source := some 5 },
    .commonTable "early" 6,
    .scalarLiteral .number "1", .columnExpression 8 (some "id"),
    .selectExpression { columns := [9] }, .tableReference "STOCK" none,
    .selectExpression { source := some 11 }, .tableUnion 10 12 true, .commonTable "Stock" 13,
    .commonTables [7, 14],
    .tableReference "stock" none, .into "#new",
    .selectExpression { source := some 16, into := some 17 }, .select (some 15) 18,
    .tableReference "@s" none, .tableReference "#NEW" none, .tableJoin .cross 20 21 none,
    .tableReference "stock" none, .tableJoin .cross 22 23 none, .tableReference "#old" none,
    .tableJoin .cross 24 25 none, .selectExpression { source := some 26 }, .select none 27,
    .script [4, 19, 28]]⟩

/-- Its items are flat, and its common tables stand where they should. -/
theorem storedStock_flat : storedStock.FlatScript 29 [4, 19, 28] := by
  have hnodes : ∀ n < 30, (storedStock.get? n).all (fun x =>
      (!x.kind.isItem || [4, 19, 28].contains n) &&
        (x.kind != .commonTable || [7, 14].contains n) && x.kind != .output) := by decide
  have hnode : ∀ n x, storedStock.get? n = some x →
      (x.kind.isItem → n ∈ [4, 19, 28]) ∧ (x.kind = .commonTable → n ∈ [7, 14]) ∧
        x.kind ≠ .output := by
    intro n x hx
    have hlt : n < 30 := (Array.getElem?_eq_some_iff.1 hx).1
    have hall := hnodes n hlt
    simp only [hx, Option.all_some, Bool.and_eq_true, Bool.or_eq_true, Bool.not_eq_true',
      List.contains_iff_mem, bne_iff_ne] at hall
    obtain ⟨⟨hitem, hcommon⟩, houtput⟩ := hall
    refine ⟨fun h => ?_, fun h => ?_, houtput⟩
    · exact hitem.resolve_left (by simp [h])
    · exact hcommon.resolve_left (by simp [h])
  refine ⟨rfl, by decide, fun n x _ hx => (hnode n x hx).1, fun n name query _ hx => ?_,
    fun n columns target _ hx => ((hnode n _ hx).2.2 rfl).elim⟩
  exact ⟨19, by decide, .listed (.slot rfl rfl) rfl ((hnode n _ hx).2.1 rfl)⟩

/-- The first common table reads the object; the second one reads itself, and so does
the second item read it.  In the third item the variable, the table of the second item and
the object are found, and what the initializer stored is not. -/
theorem tables_of_storedStock :
    ∃ bound, bindScript {} storedStock stockOnly 29 = .ok bound ∧
      storedStock.TreeShaped ∧ storedStock.FlatScript 29 [4, 19, 28] ∧
      bound.diagnostics = [.unresolved .table "#old"] ∧
      [5, 11, 16, 20, 21, 23, 25].map bound.bindings.find? =
        [some (.table (.entity stockDefinition)), some (.table (.commonTable 14)),
          some (.table (.commonTable 14)), some (.table (.parameter "@s" stockDefinition)),
          some (.table (.temporaryTable "#new" 18)), some (.table (.entity stockDefinition)),
          none] ∧
      (∃ own shown rest,
        storedStock.itemWalk 256 19 = own ++ .useTable 11 "STOCK" shown :: rest ∧
        .defineTable 14 "Stock" ∈ own ∧ storedStock.OffersLast 19 11 "stock" 14) ∧
      ∃ own shown rest,
        storedStock.itemWalk 256 28 = own ++ .useTable 21 "#NEW" shown :: rest ∧
        tableMeant storedStock stockOnly bound.bindings (storedStock.itemWalk 256) [4, 19] 28 own
          "#NEW" = .ok (some (.temporaryTable "#new" 18)) := by
  obtain ⟨bound, hbind, hdiagnostics, hbound⟩ :
      ∃ bound, bindScript {} storedStock stockOnly 29 = .ok bound ∧
        bound.diagnostics = [.unresolved .table "#old"] ∧
        [5, 11, 16, 20, 21, 23, 25].map bound.bindings.find? =
          [some (.table (.entity stockDefinition)), some (.table (.commonTable 14)),
            some (.table (.commonTable 14)), some (.table (.parameter "@s" stockDefinition)),
            some (.table (.temporaryTable "#new" 18)), some (.table (.entity stockDefinition)),
            none] := ⟨_, rfl, rfl, rfl⟩
  obtain ⟨-, reported, -, -, hall⟩ := table_names_are_resolved (by decide) storedStock_flat hbind
    (by simp [hdiagnostics])
  have hfound := hbound
  simp only [List.map_cons, List.cons.injEq] at hfound
  obtain ⟨-, hrecursive, -, -, hnew, -⟩ := hfound
  refine ⟨bound, hbind, by decide, storedStock_flat, hdiagnostics, hbound, ?_, ?_⟩
  · have htable : storedStock.Reaches 19 14 :=
      .head (b := 15) ⟨_, rfl, by decide⟩ <| .single ⟨_, rfl, by decide⟩
    have hinside : storedStock.Reaches 14 11 :=
      .head (b := 13) ⟨_, rfl, by decide⟩ <| .head (b := 12) ⟨_, rfl, by decide⟩ <|
        .single ⟨_, rfl, by decide⟩
    obtain ⟨own, shown, rest, found, hsplit, -, hn, -, -, hknown, hcommon, -⟩ :=
      hall [4] 19 [28] rfl 11 "STOCK" none (htable.trans hinside) rfl
    obtain ⟨table, rfl, heq⟩ := Option.map_eq_some_iff.1 (hn.symm.trans hrecursive)
    cases heq
    exact ⟨own, shown, rest, hsplit, ((hknown 14 "Stock" 13 rfl htable).2 hinside).1,
      (hcommon 14).1 rfl⟩
  · have hdown : storedStock.Reaches 28 21 :=
      .head (b := 27) ⟨_, rfl, by decide⟩ <| .head (b := 26) ⟨_, rfl, by decide⟩ <|
        .head (b := 24) ⟨_, rfl, by decide⟩ <| .head (b := 22) ⟨_, rfl, by decide⟩ <|
          .single ⟨_, rfl, by decide⟩
    obtain ⟨own, shown, rest, found, hsplit, hfound, hn, -⟩ :=
      hall [4, 19] 28 [] rfl 21 "#NEW" none hdown rfl
    obtain ⟨table, rfl, heq⟩ := Option.map_eq_some_iff.1 (hn.symm.trans hnew)
    cases heq
    exact ⟨own, shown, rest, hsplit, hfound⟩

end UnionScript
