import UnionScript.Proofs.Syntax.Respelling
import UnionScript.Proofs.Walk.Lockstep

/-!
# Walks over respelled trees

The walk over a tree and the walk over a respelled one have the same steps up to
respelled names (`Walk.walk_respelled`).  Taken in lockstep, with one catalog, they
find the same things up to recorded names (`Step.perform_respelled`).
-/

namespace UnionScript

/-- Steps with a name in them. -/
def Step.isNamed : Step → Bool
  | .enter _ _ _ | .leave | .useProjection _ _ | .beginSet _ | .endSet | .reject _ => false
  | _ => true

/-- Steps that are the same up to respelled names. -/
inductive Step.Respelled : Step → Step → Prop
  | unnamed {step : Step} (h : step.isNamed = false) : Respelled step step
  | defineTable (n : NodeId) {name name' : String} (h : Respells name name') :
      Respelled (.defineTable n name) (.defineTable n name')
  | deriveTable (n query : NodeId) {aliasName aliasName' : String}
      (h : Respells aliasName aliasName') :
      Respelled (.deriveTable n query aliasName) (.deriveTable n query aliasName')
  | useTable (n : NodeId) {identifier identifier' aliasName aliasName' : String}
      (h : Respells identifier identifier') (ha : Respells aliasName aliasName') :
      Respelled (.useTable n identifier aliasName) (.useTable n identifier' aliasName')
  | useColumn (n : NodeId) {identifier identifier' : String}
      (h : Respells identifier identifier') :
      Respelled (.useColumn n identifier) (.useColumn n identifier')
  | useVariable (n : NodeId) {name name' : String} (h : Respells name name') :
      Respelled (.useVariable n name) (.useVariable n name')
  | callFunction (n : NodeId) {name name' : String} (h : Respells name name') :
      Respelled (.callFunction n name) (.callFunction n name')
  | storeInto (n source : NodeId) {target target' : String} (h : Respells target target') :
      Respelled (.storeInto n source target) (.storeInto n source target')
  | declare (n : NodeId) {typeName typeName' name name' : String}
      (ht : Respells typeName typeName') (h : Respells name name') (initializer : Option NodeId) :
      Respelled (.declare n typeName name initializer) (.declare n typeName' name' initializer)
  | setColumn (n : NodeId) {identifier identifier' : String}
      (h : Respells identifier identifier') :
      Respelled (.setColumn n identifier) (.setColumn n identifier')

/-- Each step spells itself, so texts that are not names need no case of their own. -/
theorem Step.Respelled.refl (step : Step) : step.Respelled step := by
  cases step with
  | defineTable n name => exact .defineTable n (.refl name)
  | deriveTable n query aliasName => exact .deriveTable n query (.refl aliasName)
  | useTable n identifier aliasName => exact .useTable n (.refl identifier) (.refl aliasName)
  | useColumn n identifier => exact .useColumn n (.refl identifier)
  | useVariable n name => exact .useVariable n (.refl name)
  | callFunction n name => exact .callFunction n (.refl name)
  | storeInto n source target => exact .storeInto n source (.refl target)
  | declare n typeName name initializer =>
      exact .declare n (.refl typeName) (.refl name) initializer
  | setColumn n identifier => exact .setColumn n (.refl identifier)
  | enter | leave | useProjection | beginSet | endSet | reject => exact .unnamed rfl

/-- Spelling a name otherwise does not change what a step is about. -/
theorem Step.Respelled.subject? {step step' : Step} (h : step.Respelled step') :
    step.subject? = step'.subject? := by
  cases h <;> rfl

/-- Stages that are the same up to respelled names. -/
inductive Stage.Respelled : Stage → Stage → Prop
  | same (stage : Stage) : Respelled stage stage
  | own {step step' : Step} (h : step.Respelled step') : Respelled (.own step) (.own step')
  | declareType {name name' : String} (h : Respells name name') (type : NodeId)
      (initializer : Option NodeId) :
      Respelled (.declareType name type initializer) (.declareType name' type initializer)

/-- Parts that are the same up to respelled names. -/
inductive Part.Respelled : Part → Part → Prop
  | same (part : Part) : Respelled part part
  | step {step step' : Step} (h : step.Respelled step') : Respelled (.step step) (.step step')

namespace Walk

variable {t t' : Tree} (ht : t.Respelled t')

/-- The walk over a respelled node goes through the same stages. -/
theorem nodeStages_respelled (n : NodeId) {x x' : Node} (hx : x.Respelled x') :
    List.Forall₂ Stage.Respelled (nodeStages n x) (nodeStages n x') := by
  have hrefl : ∀ l, List.Forall₂ Stage.Respelled l l := fun l =>
    List.forall₂_same.2 fun stage _ => .same stage
  cases hx with
  | same => exact hrefl _
  | declare h type initializer =>
      exact List.rel_append (hrefl _) (.cons (.declareType h type initializer) .nil)
  | typeIdentifier | columnExpression | into => exact hrefl _
  | commonTable h query => exact .cons (.own (.defineTable n h)) (hrefl _)
  | tableReference h ha =>
      refine .cons (.own (.useTable n h ?_)) .nil
      cases ha with
      | none => exact h
      | some ha => exact ha
  | tableExpression query h => exact .cons (.same _) (.cons (.own (.deriveTable n query h)) .nil)
  | columnReference h => exact .cons (.own (.useColumn n h)) .nil
  | variableReference h => exact .cons (.own (.useVariable n h)) .nil
  | functionCall h arguments window => exact .cons (.own (.callFunction n h)) (hrefl _)

include ht

/-- A node that is respelled has the same slots, so its stages differ in names only. -/
theorem stages_respelled (n : NodeId) :
    List.Forall₂ Stage.Respelled (stages t n) (stages t' n) := by
  unfold stages
  rcases rel_cases (ht n) with ⟨hx, hx'⟩ | ⟨x, x', hx, hx', hsame⟩
  · rw [hx, hx']
    exact .nil
  · rw [hx, hx']
    exact nodeStages_respelled n hsame

/-- The same in the place of a query, where blocks, unions and groups are told apart by
their kinds alone. -/
theorem queryStages_respelled (correlated : Bool) (n : NodeId) :
    List.Forall₂ Stage.Respelled (queryStages t correlated n) (queryStages t' correlated n) := by
  have heq : queryStages t correlated n = queryStages t' correlated n := by
    unfold queryStages
    rcases rel_cases (ht n) with ⟨hx, hx'⟩ | ⟨x, x', hx, hx', hsame⟩
    · rw [hx, hx']
    · rw [hx, hx']
      cases hsame <;> rfl
  rw [heq]
  exact List.forall₂_same.2 fun stage _ => .same stage

/-- Whether rows are ordered by a plain name depends on whether it has a dot, and names
with one key agree on that. -/
theorem plainKey?_respelled (item : NodeId) :
    Option.Rel (fun key key' => key.1 = key'.1 ∧ Respells key.2 key'.2) (plainKey? t item)
      (plainKey? t' item) := by
  have hplain : ∀ (expression : NodeId) identifier identifier', Respells identifier identifier' →
      Option.Rel (fun key key' => key.1 = key'.1 ∧ Respells key.2 key'.2)
        (if identifier.toList.contains '.' then none else some (expression, identifier))
        (if identifier'.toList.contains '.' then none else some (expression, identifier')) := by
    intro expression identifier identifier' h
    rw [contains_dot_of_nameKey_eq h.whole]
    split
    · exact .none
    · exact .some ⟨rfl, h⟩
  unfold plainKey?
  -- An item is never respelled itself, but the column that it holds may be.
  refine rel_bind (ht item) fun x x' hitem => ?_
  cases hitem with
  | same =>
      cases x with
      | orderItem expression descending =>
          refine rel_bind (ht expression) fun y y' hsame => ?_
          cases hsame with
          | columnReference h => exact hplain expression _ _ h
          | same =>
              cases y with
              | columnReference identifier => exact hplain expression _ _ (.refl identifier)
              | _ => exact .none
          | _ => exact .none
      | _ => exact .none
  | _ => exact .none

/-- Aliases are compared by their keys. -/
theorem hasAlias_respelled {name name' : String} (hname : nameKey name = nameKey name')
    (column : NodeId) : hasAlias t name column = hasAlias t' name' column := by
  unfold hasAlias
  rcases rel_cases (ht column) with ⟨hx, hx'⟩ | ⟨x, x', hx, hx', hsame⟩
  · rw [hx, hx']
  · rw [hx, hx']
    cases hsame with
    | columnExpression expression ha =>
        cases ha with
        | none => rfl
        | some ha => exact sameName_congr ha.whole hname
    | same =>
        cases x with
        | columnExpression expression aliasName =>
            cases aliasName with
            | none => rfl
            | some aliasName => exact sameName_congr rfl hname
        | _ => rfl
    | _ => rfl

/-- Rows are ordered by the same column of the block, or by none. -/
theorem orderItem_respelled (columns : List NodeId) (item : NodeId) :
    orderItem t columns item = orderItem t' columns item := by
  unfold orderItem
  rcases rel_cases (plainKey?_respelled ht item) with
    ⟨hkey, hkey'⟩ | ⟨⟨reference, name⟩, ⟨reference', name'⟩, hkey, hkey', hsame, hname⟩
  · rw [hkey, hkey']
  · obtain rfl : reference = reference' := hsame
    rw [hkey, hkey']
    simp only [funext (hasAlias_respelled ht hname.whole)]

/-- A declaration names its type and its variable, and both may be respelled. -/
theorem declaredType_respelled {name name' : String} (h : Respells name name') (type : NodeId)
    (initializer : Option NodeId) :
    (declaredType t name type initializer).Respelled (declaredType t' name' type initializer) := by
  unfold declaredType
  rcases rel_cases (ht type) with ⟨hx, hx'⟩ | ⟨x, x', hx, hx', hsame⟩
  · rw [hx, hx']
    exact .same _
  · rw [hx, hx']
    cases hsame with
    | typeIdentifier htype => exact .step (.declare type htype h initializer)
    | same =>
        cases x with
        | typeIdentifier typeName => exact .step (.declare type (.refl typeName) h initializer)
        | _ => exact .same _
    | _ => exact .same _

/-- The target of a clause that stores rows may be respelled; a node that is no such clause
is refused under both spellings. -/
theorem into_respelled (source clause : NodeId) :
    (into t source clause).Respelled (into t' source clause) := by
  unfold into
  rcases rel_cases (ht clause) with ⟨hx, hx'⟩ | ⟨x, x', hx, hx', hsame⟩
  · rw [hx, hx']
    exact .same _
  · rw [hx, hx']
    cases hsame with
    | into h => exact .step (.storeInto clause source h)
    | _ => exact .same _

/-- An assignment names a column and visits its value, or is refused under both spellings. -/
theorem assignment_respelled (n : NodeId) :
    List.Forall₂ Part.Respelled (assignment t n) (assignment t' n) := by
  have hrefl : ∀ l, List.Forall₂ Part.Respelled l l := fun l =>
    List.forall₂_same.2 fun part _ => .same part
  unfold assignment
  rcases rel_cases (ht n) with ⟨hx, hx'⟩ | ⟨x, x', hx, hx', hsame⟩
  · rw [hx, hx']
    exact hrefl _
  · rw [hx, hx']
    cases hsame with
    | same =>
        cases x with
        | setExpression column initializer =>
            rcases rel_cases (ht column) with ⟨hy, hy'⟩ | ⟨y, y', hy, hy', hsame'⟩
            · simp only [hy, hy']
              exact hrefl _
            · simp only [hy, hy']
              cases hsame' with
              | columnReference h => exact .cons (.step (.setColumn column h)) (hrefl _)
              | _ => exact hrefl _
        | _ => exact hrefl _
    | _ => exact hrefl _

/-- Respelled stages have the same parts up to respelled names. -/
theorem stageParts_respelled (n : NodeId) {stage stage' : Stage} (h : stage.Respelled stage') :
    List.Forall₂ Part.Respelled (stageParts t n stage) (stageParts t' n stage') := by
  cases h with
  | own h => exact .cons (.step h) .nil
  | declareType h type initializer =>
      exact .cons (declaredType_respelled ht h type initializer) .nil
  | same =>
      cases stage with
      | own | visit | query => exact .cons (.same _) .nil
      | order columns item =>
          rw [stageParts, stageParts, orderItem_respelled ht]
          exact .cons (.same _) .nil
      | assign child => exact assignment_respelled ht child
      | store clause => exact .cons (into_respelled ht n clause) .nil
      | declareType name type initializer =>
          exact .cons (declaredType_respelled ht (.refl name) type initializer) .nil

/-- All parts of a node, by its stages. -/
theorem parts_respelled (n : NodeId) : List.Forall₂ Part.Respelled (parts t n) (parts t' n) :=
  List.rel_flatMap (stages_respelled ht n) fun _ _ => stageParts_respelled ht n

/-- All parts of what stands in the place of a query, by its stages there. -/
theorem queryParts_respelled (correlated : Bool) (n : NodeId) :
    List.Forall₂ Part.Respelled (queryParts t correlated n) (queryParts t' correlated n) :=
  List.rel_flatMap (queryStages_respelled ht correlated n) fun _ _ => stageParts_respelled ht n

omit ht in
/-- Parts are put in place by the walks over the nodes below. -/
theorem expand_respelled {visit visit' : NodeId → List Step}
    {query query' : Bool → NodeId → List Step}
    (hvisit : ∀ n, List.Forall₂ Step.Respelled (visit n) (visit' n))
    (hquery : ∀ c n, List.Forall₂ Step.Respelled (query c n) (query' c n)) {part part' : Part}
    (h : part.Respelled part') :
    List.Forall₂ Step.Respelled (expand visit query part) (expand visit' query' part') := by
  cases h with
  | step h => exact .cons h .nil
  | same =>
      cases part with
      | step s => exact .cons (.refl s) .nil
      | visit n => exact hvisit n
      | query correlated n => exact hquery correlated n

/-- By induction on the bound on links from query to query. -/
theorem querySteps_respelled {visit visit' : NodeId → List Step}
    (hvisit : ∀ n, List.Forall₂ Step.Respelled (visit n) (visit' n)) (fuel : Nat)
    (correlated : Bool) (n : NodeId) :
    List.Forall₂ Step.Respelled (querySteps t visit fuel correlated n)
      (querySteps t' visit' fuel correlated n) := by
  induction fuel generalizing correlated n with
  | zero => exact .cons (.refl _) .nil
  | succ fuel ih =>
      exact List.rel_flatMap (queryParts_respelled ht correlated n)
        fun _ _ => expand_respelled hvisit ih

/-- **Respelled walks.**  By induction on the depth, the walk over a node is respelled step by
step. -/
theorem steps_respelled (limit depth : Nat) (n : NodeId) :
    List.Forall₂ Step.Respelled (steps t limit depth n) (steps t' limit depth n) := by
  induction depth generalizing n with
  | zero => exact .cons (.refl _) .nil
  | succ depth ih =>
      unfold steps queryFuel
      rw [ht.size]
      exact List.rel_flatMap (parts_respelled ht n)
        fun _ _ => expand_respelled ih (querySteps_respelled ht ih _)

/-- **Walks over respelled trees** have the same steps up to respelled names. -/
theorem walk_respelled (limit : Nat) (root : NodeId) :
    List.Forall₂ Step.Respelled (t.walk limit root) (t'.walk limit root) :=
  steps_respelled ht limit limit root

end Walk

/-- The same things under the same names, up to the names recorded with tables. -/
def respelling : Likeness where
  table := TableSource.Respelled
  variableType := (· = ·)
  columns := (· = ·)
  columns_empty := rfl

/-- Reports of one kind about names that are the same. -/
inductive Diagnostic.Respelled : Diagnostic → Diagnostic → Prop
  | unresolved (kind : NameKind) {identifier identifier' : String}
      (h : Respells identifier identifier') :
      Respelled (.unresolved kind identifier) (.unresolved kind identifier')

/-- What is known of respelled trees. -/
structure Progress.Respelled (p q : Progress) : Prop where
  scopes : p.scopes.Alike respelling q.scopes
  bindings : p.bindings.Alike Binding.Respelled q.bindings
  diagnostics : List.Forall₂ Diagnostic.Respelled p.diagnostics.toList q.diagnostics.toList
  targets : List.Forall₂ (Option.Rel TableSource.Respelled) p.targets q.targets

namespace Progress.Respelled

variable {p q : Progress}

/-- Before the first step nothing is known under either spelling. -/
theorem start : ({} : Progress).Respelled {} :=
  ⟨.empty, .empty, .nil, .nil⟩

/-- Only the scopes change. -/
theorem withScopes (h : p.Respelled q) {t t' : ScopeTree} (ht : t.Alike respelling t') :
    Respelled { p with scopes := t } { q with scopes := t' } :=
  ⟨ht, h.bindings, h.diagnostics, h.targets⟩

/-- Respelled bindings of one node. -/
theorem bind (h : p.Respelled q) (n : NodeId) {b b' : Binding} (hb : b.Respelled b') :
    (p.bind n b).Respelled (q.bind n b') :=
  ⟨h.scopes, h.bindings.insert n hb, h.diagnostics, h.targets⟩

/-- A name that is not found is reported as it is spelled, so the two diagnostics name it by
two spellings. -/
theorem report (h : p.Respelled q) (kind : NameKind) {identifier identifier' : String}
    (hidentifier : Respells identifier identifier') :
    (p.report kind identifier).Respelled (q.report kind identifier') := by
  refine ⟨h.scopes, h.bindings, ?_, h.targets⟩
  rw [Progress.report, Progress.report, Array.toList_push, Array.toList_push]
  exact List.rel_append h.diagnostics (.cons (.unresolved kind hidentifier) .nil)

/-- The table that a node is bound to, under both spellings. -/
theorem table? (h : p.Respelled q) (n : NodeId) :
    Option.Rel TableSource.Respelled (p.table? n) (q.table? n) :=
  rel_bind (h.bindings.find? n) fun _ _ hb => hb.table?

/-- The tables under assignment are the same up to recorded names. -/
theorem target? (h : p.Respelled q) :
    Option.Rel TableSource.Respelled p.targets.head?.join q.targets.head?.join := by
  have htargets := h.targets
  generalize p.targets = targets at htargets ⊢
  generalize q.targets = targets' at htargets ⊢
  cases htargets with
  | nil => exact .none
  | cons htarget _ => exact htarget

end Progress.Respelled

/-- A catalog has the same object under names with one key. -/
theorem Catalog.object_congr (catalog : Catalog) {name name' : String}
    (h : nameKey name = nameKey name') :
    catalog.toProvider.object name = catalog.toProvider.object name' := by
  simp only [Catalog.toProvider, Catalog.object?, h]

/-- A catalog has the same member of an enumeration under names with one key. -/
theorem Catalog.member_congr (catalog : Catalog) {name name' : String}
    (h : nameKey name = nameKey name') :
    catalog.toProvider.member name = catalog.toProvider.member name' := by
  simp only [Catalog.toProvider, Catalog.member?, h]

/-- The first character of a target tells a table variable from a temporary table, and
names with one key agree on it. -/
theorem storedTable_respelled {target target' : String} (h : Respells target target')
    (source : NodeId) : (storedTable target source).Respelled (storedTable target' source) := by
  unfold storedTable
  rw [isVariableTarget_of_nameKey_eq h.whole]
  split
  · exact .tableVariable h source
  · exact .temporaryTable h source

section

variable {t t' : Tree} (catalog : Catalog) (strict : Bool) {p q : Progress}

/-- The schema is asked only for names with two dots, and by their keys. -/
theorem enumMember_respelled (t t' : Tree) {identifier identifier' : String}
    (h : Respells identifier identifier') :
    enumMember ⟨t, catalog.toProvider, strict⟩ identifier =
      enumMember ⟨t', catalog.toProvider, strict⟩ identifier' := by
  unfold enumMember
  rw [count_dot_of_nameKey_eq h.whole, catalog.member_congr h.whole]

/-- The type of a variable is a kind of values or an object of the schema, and both are known
by their keys.  Where it is that of references it is narrowed by the initializer, which has
the same type under both spellings. -/
theorem declaredVariable_respelled (ht : t.Respelled t') {bindings bindings' : Bindings}
    (hbindings : bindings.Alike Binding.Respelled bindings') {typeName typeName' : String}
    (h : Respells typeName typeName') (initializer : Option NodeId) :
    declaredVariable ⟨t, catalog.toProvider, strict⟩ bindings typeName initializer =
      declaredVariable ⟨t', catalog.toProvider, strict⟩ bindings' typeName' initializer := by
  unfold declaredVariable
  rw [ofTypeName?_of_nameKey_eq h.whole, catalog.object_congr h.whole,
    Typing.narrowed_of_respelled ht hbindings initializer]

/-- A name that stands for a member is bound to it; any other is resolved to a column, by the
keys of its qualifier and of its last part. -/
theorem bindColumn_respelled (ht : t.Respelled t') (h : p.Respelled q) (n : NodeId)
    {identifier identifier' : String} (hid : Respells identifier identifier')
    (member : Option EnumMember) :
    (p.bindColumn ⟨t, catalog.toProvider, strict⟩ n identifier member).Alike Progress.Respelled
      (q.bindColumn ⟨t', catalog.toProvider, strict⟩ n identifier' member) := by
  cases member with
  | some member => exact .finished (h.bind n (.same _))
  | none =>
      have hcolumn := h.scopes.resolveColumn t t' hid.qualifier
        (isEmpty_of_nameKey_eq hid.qualifier) (isPseudoTable_of_nameKey_eq hid.qualifier)
        (fun source source' hsource => ht.columnOf? hsource hid.last) strict
      simp only [Progress.bindColumn]
      rw [← lastPart, ← lastPart, hcolumn]
      split
      · rename_i b hb
        have hbind := h.bind n (.same b)
        refine Progress.register_alike hbind.scopes (fun t t' => hbind.withScopes)
          fun s s' hs => hs.withColumns ?_
        have hcolumns : s.columns = s'.columns := hs.columns
        change s.columns.insert _ b = s'.columns.insert _ b
        rw [hcolumns, hid.whole]
      · exact .finished (h.report .column hid)

/-- **Respelled steps** lead to the same, up to recorded names. -/
theorem Step.perform_respelled (ht : t.Respelled t') {step step' : Step}
    (hstep : step.Respelled step') (h : p.Respelled q) :
    (step.perform ⟨t, catalog.toProvider, strict⟩ p).Alike Progress.Respelled
      (step'.perform ⟨t', catalog.toProvider, strict⟩ q) := by
  cases hstep with
  | defineTable n hname =>
      have hbind := h.bind n (.same (.table (.commonTable n)))
      exact Progress.register_alike hbind.scopes (fun t t' => hbind.withScopes)
        fun s s' hs => hs.addTable hname.whole (.same _)
  | deriveTable n query hname =>
      have hbind := h.bind n (.same (.table (.derived query)))
      exact Progress.register_alike hbind.scopes (fun t t' => hbind.withScopes)
        fun s s' hs => hs.addAlias hname.whole n (.same _)
  | useTable n hid hname =>
      refine Progress.ask_alike (h.scopes.resolveTable hid.whole (fun v v' hv d => hv ▸ Iff.rfl)
        (.parameter hid) (fun d => .same _) (catalog.object_congr hid.whole)) h
        fun found found' hfound => ?_
      cases hfound with
      | none => exact .finished (h.report .table hid)
      | some hsource =>
          have hbind := h.bind n (.table hsource)
          exact Progress.register_alike hbind.scopes (fun t t' => hbind.withScopes)
            fun s s' hs => hs.addAlias hname.whole n hsource
  | useColumn n hid =>
      simp only [perform]
      rw [enumMember_respelled catalog strict t t' hid]
      refine Progress.ask_alike (agree_refl _) h fun found found' hfound => ?_
      subst hfound
      exact bindColumn_respelled catalog strict ht h n hid found
  | useVariable n hname =>
      simp only [perform]
      rw [eq_of_rel_eq (h.scopes.variableType? hname.whole)]
      split
      · exact .finished (h.bind n (.same _))
      · exact .finished (h.report .variable hname)
  | callFunction n hname =>
      simp only [perform, builtin_of_nameKey_eq hname.whole]
      split
      · exact .finished (h.bind n (.same _))
      · exact .finished h
  | storeInto n source htarget =>
      have hstored := storedTable_respelled htarget source
      have hbind := h.bind n (.table hstored)
      simp only [perform, h.scopes.storageScope?]
      split
      · rename_i id _
        refine Progress.changeScopes_alike (.ok ?_) fun t t' => hbind.withScopes
        exact hbind.scopes.change id fun s s' hs => hs.addTable htarget.whole hstored
      · exact .malformed _
  | declare n htype hname initializer =>
      simp only [perform]
      rw [declaredVariable_respelled catalog strict ht h.bindings htype initializer]
      refine Progress.ask_alike (agree_refl _) h fun found found' hfound => ?_
      subst hfound
      cases found with
      | none => exact .finished (h.report .type htype)
      | some type =>
          have hbind := h.bind n (.same (.type type))
          exact Progress.register_alike hbind.scopes (fun t t' => hbind.withScopes)
            fun s s' hs => hs.addVariable hname.whole rfl
  | @setColumn n identifier identifier' hid =>
      have hcolumn : p.targets.head?.join.bind (t.columnOf? · (lastPart identifier)) =
          q.targets.head?.join.bind (t'.columnOf? · (lastPart identifier')) := by
        rcases rel_cases h.target? with ⟨hs, hs'⟩ | ⟨source, source', hs, hs', hsame⟩
        · rw [hs, hs', Option.bind_none, Option.bind_none]
        · rw [hs, hs', Option.bind_some, Option.bind_some, ht.columnOf? hsame hid.last]
      simp only [perform, hcolumn]
      split
      · exact .finished (h.bind n (.same _))
      · exact .finished (h.report .column hid)
  | @unnamed step hunnamed =>
      cases step with
      | enter owner kind correlated =>
          simp only [perform]
          exact Progress.changeScopes_alike (h.scopes.enter owner kind correlated)
            fun t t' => h.withScopes
      | leave =>
          simp only [perform]
          exact Progress.changeScopes_alike h.scopes.leave fun t t' => h.withScopes
      | useProjection reference column => exact .finished (h.bind reference (.same _))
      | beginSet target =>
          exact .finished ⟨h.scopes, h.bindings, h.diagnostics, .cons (h.table? target) h.targets⟩
      | endSet =>
          refine .finished ⟨h.scopes, h.bindings, h.diagnostics, ?_⟩
          rw [← List.drop_one, ← List.drop_one]
          exact List.forall₂_drop 1 h.targets
      | reject fault => exact .malformed fault
      | defineTable | deriveTable | useTable | useColumn | useVariable | callFunction | storeInto
      | declare | setColumn => cases hunnamed

end

end UnionScript
