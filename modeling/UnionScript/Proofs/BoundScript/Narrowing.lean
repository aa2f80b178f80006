import Mathlib.Logic.Relation
import UnionScript.Proofs.BoundScript.Variables
import UnionScript.Proofs.Results
import UnionScript.Proofs.Typing.Limit
import UnionScript.Proofs.Walk.Segment

/-!
# Object types of reference variables

A reference variable takes over the object type of its initializer, and is then stored
without one of its own.  The initializer passes on the values of other expressions
through groups and unions.  Narrowing looks at the first of them only: at what stands in
the groups, and on the left sides of the unions.

By the time that a variable is declared all names below its initializer are bound, and
all names that these lead to, so it makes no difference that names are bound later.

* `Typing.inferWithin_congr` — types depend on the bindings of the nodes followed;
* `Settles.finished_of_follows` — what a finished node takes its type from is finished;
* `Walk.exists_declaredVariable` — declarations are resolved as if all names were bound;
* `narrowing_follows_first_source` — the first source has the object type of the variable,
  and without unions every source has;
* `mixed_union_is_narrowed` — with a union another source may have another one.
-/

namespace UnionScript

namespace Typing

variable {tree : Tree} {bindings bindings' : Bindings} {infer infer' : NodeId → Option Inferred}
  {n : NodeId}

theorem merged_congr {nodes : List NodeId} (h : ∀ m ∈ nodes, infer' m = infer m) :
    merged infer' nodes = merged infer nodes := by
  simp only [merged, List.filterMap_congr h]

/-- **One link.**  The type of a node depends on its binding and on what it leads to. -/
theorem node_congr {x : Node} (hfind : x.kind.hasStep → bindings'.find? n = bindings.find? n)
    (hinfer : ∀ m ∈ links bindings n x, infer' m = infer m) :
    node infer' bindings' n x = node infer bindings n x := by
  cases x with
  | columnReference identifier =>
      simp only [node, hfind rfl]
      cases hb : bindings.find? n with
      | none => rfl
      | some b =>
          cases b with
          | column projected =>
              have hprojected := hinfer projected (by simp [links, hb])
              simp only [Option.bind_some, column, hprojected]
          | _ => rfl
  | variableReference name => simp only [node, hfind rfl]
  | functionCall name arguments window =>
      simp only [node]
      cases hbuiltin : Builtin.find? name with
      | some f => rfl
      | none => exact congrArg some (merged_congr (by simpa [links, hbuiltin] using hinfer))
  | unary op operand =>
      cases op with
      | minus => simp only [node, hinfer operand (List.mem_singleton_self _)]
      | not => rfl
  | selectExpression block =>
      simp only [node]
      cases hhead : block.columns.head? with
      | none => rfl
      | some column => exact hinfer column (by simp [links, hhead])
  | columnExpression expression aliasName =>
      simp only [node, hinfer expression (List.mem_singleton_self _)]
  | caseExpression | binary => exact congrArg some (merged_congr hinfer)
  | whenClause | group | tableUnion => exact hinfer _ (List.mem_singleton_self _)
  | _ => rfl

/-- **Types depend on the nodes followed.**  Bindings that agree on them give the same
type. -/
theorem inferWithin_congr (steps : Nat)
    (h : ∀ m x, Relation.ReflTransGen (Follows tree bindings) n m → tree.get? m = some x →
      x.kind.hasStep → bindings'.find? m = bindings.find? m) :
    inferWithin tree bindings' steps n = inferWithin tree bindings steps n := by
  induction steps generalizing n with
  | zero => rfl
  | succ steps ih =>
      cases hx : tree.get? n with
      | none => simp only [inferWithin, hx, Option.bind_none]
      | some x =>
          simp only [inferWithin, hx, Option.bind_some]
          refine node_congr (h n x .refl hx) fun m hm => ih fun m' x' hm' => ?_
          have hfollows : Follows tree bindings n m := by simpa [Follows, linksFrom, hx] using hm
          exact h m' x' (.head hfollows hm')

/-- What an initializer gives to a variable depends on the same bindings as its type. -/
theorem narrowed_congr
    (h : ∀ m x, Relation.ReflTransGen (Follows tree bindings) n m → tree.get? m = some x →
      x.kind.hasStep → bindings'.find? m = bindings.find? m) :
    narrowed tree bindings' (some n) = narrowed tree bindings (some n) := by
  have hself : infer? tree bindings' n = infer? tree bindings n := inferWithin_congr _ h
  have hcolumn : ∀ b column, tree.get? n = some (.selectExpression b) → b.columns = [column] →
      infer? tree bindings' column = infer? tree bindings column := by
    intro b column hx hcolumns
    have hfollows : Follows tree bindings n column := by
      simp [Follows, linksFrom, hx, links, hcolumns]
    exact inferWithin_congr _ fun m x hm => h m x (.head hfollows hm)
  unfold narrowed
  cases hx : tree.get? n with
  | none => simp only [Option.bind_some, hx, hself]
  | some x =>
      cases x with
      | selectExpression b =>
          cases hcolumns : b.columns with
          | nil => simp only [Option.bind_some, hx, hcolumns, Option.bind_none]
          | cons column others =>
              cases others with
              | nil => simp only [Option.bind_some, hx, hcolumns, hcolumn b column hx hcolumns]
              | cons => simp only [Option.bind_some, hx, hcolumns, Option.bind_none]
      | _ => simp only [Option.bind_some, hx, hself]

/-- An expression without a type is no reference. -/
theorem infer?_bind_singleReference? (tree : Tree) (bindings : Bindings) (n : NodeId) :
    (infer? tree bindings n).bind (·.type.singleReference?) =
      (Typing.infer tree bindings n).type.singleReference? := by
  unfold Typing.infer
  cases infer? tree bindings n with
  | none => rfl
  | some i => rfl

/-- An object type comes from the initializer itself or, if that is a block, from its only
column. -/
theorem narrowed_cases (tree : Tree) (bindings : Bindings) (n : NodeId) :
    narrowed tree bindings (some n) = Entity.undefined ∨
      ∃ m code, (m = n ∨ linksFrom tree bindings n = [m]) ∧
        (Typing.infer tree bindings m).type.singleReference? = some code ∧
        narrowed tree bindings (some n) = Entity.ofType code := by
  unfold narrowed
  simp only [Option.bind_some]
  split
  · rename_i code hcode
    right
    split at hcode
    · rename_i b hx
      split at hcode
      · rename_i column hcolumns
        refine ⟨column, code, Or.inr ?_, ?_, rfl⟩
        · simp [linksFrom, hx, links, hcolumns]
        · rw [← infer?_bind_singleReference?]
          exact hcode
      · cases hcode
    · refine ⟨n, code, Or.inl rfl, ?_, rfl⟩
      rw [← infer?_bind_singleReference?]
      exact hcode
  · exact Or.inl rfl

/-- Within the limit, a variable with an object type has it from its initializer. -/
theorem singleReference?_of_narrowed (hlinks : LinksAtMost tree bindings maxLinks n)
    (hcode : 0 < (narrowed tree bindings (some n)).code) :
    (Typing.infer tree bindings n).type.singleReference? =
      some (narrowed tree bindings (some n)).code := by
  rcases narrowed_cases tree bindings n with hnone | ⟨m, code, hm, hreference, hnarrowed⟩
  · rw [hnone] at hcode
    exact absurd hcode (by decide)
  · have htype : (Typing.infer tree bindings n).type = (Typing.infer tree bindings m).type := by
      rcases hm with rfl | hlink
      · rfl
      · exact hlinks.typeOf_link hlink (Nat.lt_succ_self maxLinks)
    rw [htype, hreference, hnarrowed]
    rfl

end Typing

/-- **Settled ways.**  What a finished node takes its type from is finished too. -/
theorem Settles.finished_of_follows {tree : Tree} {before after done later : List Step}
    {p : Progress} {n m : NodeId} (h : Settles tree before p)
    (hsplit : before ++ after = done ++ later) (hnodup : (Walk.subjects (done ++ later)).Nodup)
    (hfinished : Walk.Finished tree done n) (hm : Typing.Follows tree p.bindings n m) :
    Walk.Finished tree done m := by
  rcases hm.dependsOn with hholds | ⟨⟨identifier, hx⟩, hcolumn⟩
  · exact hfinished.of_holds hholds
  · obtain ⟨-, first, step, rest, rfl, hsubject, hfirst⟩ := h.columns n m hcolumn
    have hmem : n ∈ Walk.subjects done := hfinished n _ .refl hx rfl
    rw [List.append_assoc] at hsplit
    rcases List.append_eq_append_iff.1 hsplit with ⟨middle, rfl, -⟩ | ⟨middle, rfl, rfl⟩
    · exact hfirst.mono (List.subset_append_left _ _)
    · -- The reference would be bound a second time, after `done`.
      have hlater : n ∈ Walk.subjects (middle ++ (step :: rest ++ after)) :=
        Walk.mem_subjects.2 ⟨step, by simp, hsubject⟩
      exact (Walk.not_mem_subjects_of_nodup hnodup hmem hlater).elim

namespace Walk

variable {s : Surroundings} {q : Progress} {l : List Step} {root n type initializer : NodeId}
  {name : String}

/-- The step of a declaration comes when its initializer is finished. -/
theorem exists_split_of_declare {tree : Tree} (hspells : Spells tree root (.visit root) l)
    (hlegal : Legal l) (hreach : tree.Reaches root n)
    (hx : tree.get? n = some (.declare name type (some initializer))) :
    ∃ first typeName rest,
      l = first ++ ([.declare type typeName name (some initializer)] ++ rest) ∧
        Finished tree first initializer := by
  obtain ⟨word, hword, before, after, rfl⟩ := hspells.holds hlegal rfl hreach hx rfl
  have hlegal' : ∀ stage ∈ nodeStages n (.declare name type (some initializer)),
      Legal (word stage) := fun stage hstage =>
    Legal.of_mem_flatMap (fun fault hfault => hlegal fault (by simp [hfault])) hstage
  have hquery : Stage.query false initializer ∈
      nodeStages n (.declare name type (some initializer)) := by simp [nodeStages]
  have htype : Stage.declareType name type (some initializer) ∈
      nodeStages n (.declare name type (some initializer)) := by simp [nodeStages]
  obtain ⟨typeName, hdeclare⟩ := (hword _ htype).declareType_eq (hlegal' _ htype)
  have hcovers := (hword _ hquery).covers (hlegal' _ hquery) rfl
  refine ⟨before ++ word (.query false initializer), typeName, after, ?_, ?_⟩
  · simp [nodeStages, hdeclare]
  · exact Finished.mono hcovers.complete (List.subset_append_right _ _)

/-- **Declarations see all they need.**  A declaration is resolved as it would be with
the bindings at the end. -/
theorem exists_declaredVariable (hspells : Spells s.tree root (.visit root) l)
    (hshape : s.tree.TreeShaped) (hrun : run s l {} = .finished q)
    (hrecursion : ¬ s.tree.LeftRecursive q.bindings) (hreach : s.tree.Reaches root n)
    (hx : s.tree.get? n = some (.declare name type (some initializer))) :
    ∃ typeName found, declaredVariable s q.bindings typeName (some initializer) = .ok found ∧
      q.bindings.find? type = found.map .type := by
  have hlegal := legal_of_run hrun
  have hnodup := (hspells.covers hlegal rfl).nodup hshape
  obtain ⟨before, after, hl, hsettles⟩ := exists_settles hspells hnodup
    (by rw [hrun, Outcome.progress?]) hrecursion
  obtain ⟨first, typeName, rest, rfl, hfinished⟩ := exists_split_of_declare hspells hlegal hreach hx
  obtain ⟨m, hfirst, hlast⟩ := run_append_eq_finished hrun
  obtain ⟨m', hdeclare, hrest⟩ := run_append_eq_finished hlast
  rw [run_singleton] at hdeclare
  obtain ⟨hfresh, hkept⟩ := run_frame hnodup hfirst hrest (List.mem_singleton_self type)
  obtain ⟨found, hfound, htype⟩ := find?_of_declare hdeclare hfresh
  -- Every node that the initializer follows was walked over before the declaration.
  have hall : ∀ k, Relation.ReflTransGen (Typing.Follows s.tree q.bindings) initializer k →
      Finished s.tree first k := by
    intro k hk
    induction hk with
    | refl => exact hfinished
    | tail _ hm ih => exact hsettles.finished_of_follows hl.symm hnodup ih hm
  have hagree : narrowed s.tree m.bindings (some initializer) =
      narrowed s.tree q.bindings (some initializer) := by
    refine Typing.narrowed_congr fun k x hk hkx hstep => (run_find?_of_not_mem hlast ?_).symm
    exact not_mem_subjects_of_nodup hnodup (hall k hk k x .refl hkx hstep)
  refine ⟨typeName, found, ?_, hkept.trans htype⟩
  rw [← hfound]
  simp only [declaredVariable, hagree]

end Walk

/-- Only names of the kind of references declare reference variables. -/
theorem entity_of_declaredVariable {s : Surroundings} {bindings : Bindings} {typeName : String}
    {initializer : Option NodeId} {e : Entity}
    (h : declaredVariable s bindings typeName initializer = .ok (some (.entity e))) :
    e = narrowed s.tree bindings initializer := by
  unfold declaredVariable at h
  split at h
  · cases h
    rfl
  · cases h
  · cases hobject : s.provider.object typeName with
    | error fault => simp [hobject, Except.map] at h
    | ok found => cases found <;> simp [hobject, Except.map] at h

/-- The expressions whose values a node passes on as its own. -/
def Node.passedOn : Node → List NodeId
  | .group expression => [expression]
  | .tableUnion left right _ => [left, right]
  | _ => []

namespace Tree

variable (t : Tree)

/-- A node passes on the values of another one. -/
def PassesOn (n m : NodeId) : Prop :=
  ∃ x, t.get? n = some x ∧ m ∈ x.passedOn

/-- The values that a node passes on first are those of another one. -/
def PassesFirst (n m : NodeId) : Prop :=
  ∃ x, t.get? n = some x ∧ x.passedOn.head? = some m

/-- An expression that a node has its values from: it is inside of the groups and on
either side of the unions, and neither a group nor a union. -/
def ValueSource (n source : NodeId) : Prop :=
  Relation.ReflTransGen t.PassesOn n source ∧ ∀ m, ¬ t.PassesOn source m

/-- The first expression that a node has its values from. -/
def FirstSource (n source : NodeId) : Prop :=
  Relation.ReflTransGen t.PassesFirst n source ∧ ∀ m, ¬ t.PassesOn source m

/-- No union lies between a node and the expressions that it has its values from. -/
def UnionFree (n : NodeId) : Prop :=
  ∀ m left right all, Relation.ReflTransGen t.PassesOn n m →
    t.get? m ≠ some (.tableUnion left right all)

variable {t} {n m source : NodeId} {bindings : Bindings}

theorem PassesFirst.holds (h : t.PassesFirst n m) : t.Holds n m := by
  obtain ⟨x, hx, hm⟩ := h
  refine ⟨x, hx, ?_⟩
  cases x <;> simp_all [Node.passedOn, Node.children]

/-- What is passed on first is what types are followed to. -/
theorem PassesFirst.linksFrom (h : t.PassesFirst n m) :
    Typing.linksFrom t bindings n = [m] := by
  obtain ⟨x, hx, hm⟩ := h
  cases x <;> simp_all [Node.passedOn, Typing.linksFrom, Typing.links]

/-- Where nothing is passed on first, nothing is. -/
theorem not_passesOn_of_first (h : ∀ m, ¬ t.PassesFirst n m) : ¬ t.PassesOn n m := by
  rintro ⟨x, hx, hm⟩
  cases hhead : x.passedOn.head? with
  | none => simp [List.head?_eq_none_iff.1 hhead] at hm
  | some first => exact h first ⟨x, hx, hhead⟩

/-- Every node has a first source. -/
theorem exists_firstSource (hn : t.Grounded n) : ∃ source, t.FirstSource n source := by
  induction hn with
  | intro n _ ih =>
      by_cases h : ∃ m, t.PassesFirst n m
      · obtain ⟨m, hm⟩ := h
        obtain ⟨source, hreach, hend⟩ := ih m hm.holds
        exact ⟨source, .head hm hreach, hend⟩
      · exact ⟨n, .refl, fun m => not_passesOn_of_first fun first hfirst => h ⟨first, hfirst⟩⟩

/-- Without unions the sources are first ones. -/
theorem ValueSource.first (h : t.ValueSource n source) (hfree : t.UnionFree n) :
    t.FirstSource n source := by
  obtain ⟨hreach, hend⟩ := h
  refine ⟨?_, hend⟩
  clear hend
  induction hreach with
  | refl => exact .refl
  | @tail m m' hm hstep ih =>
      refine ih.tail ?_
      obtain ⟨x, hx, hm'⟩ := hstep
      refine ⟨x, hx, ?_⟩
      cases x with
      | tableUnion left right all => exact (hfree m left right all hm hx).elim
      | group expression => simpa [Node.passedOn, eq_comm] using hm'
      | _ => cases hm'

/-- **The first source gives the type.**  This holds within the limit on links. -/
theorem FirstSource.type_eq (h : t.FirstSource n source)
    (hlinks : Typing.LinksAtMost t bindings Typing.maxLinks n) :
    (Typing.infer t bindings source).type = (Typing.infer t bindings n).type := by
  have hboth : Typing.LinksAtMost t bindings Typing.maxLinks source ∧
      (Typing.infer t bindings source).type = (Typing.infer t bindings n).type := by
    obtain ⟨hreach, -⟩ := h
    induction hreach with
    | refl => exact ⟨hlinks, rfl⟩
    | tail _ hm ih =>
        have hlink : Typing.linksFrom t bindings _ = [_] := hm.linksFrom
        exact ⟨ih.1.of_link hlink,
          (ih.1.typeOf_link hlink (Nat.lt_succ_self Typing.maxLinks)).symm.trans ih.2⟩
  exact hboth.2

end Tree

/-- **Narrowing follows the first source.**  In a tree-shaped script without left-recursive
tables, as long as no schema fails, let a reference variable be declared with an
initializer that is within the limit on links, and be given an object type.  Then the
first expression that the initializer has its values from refers to objects of this type
only.  If no union lies between, so does every expression that it has its values from. -/
theorem narrowing_follows_first_source {config : Config} {tree : Tree} {provider : Provider}
    {root n type initializer : NodeId} {name : String} {e : Entity} {bound : BoundScript}
    (hshape : tree.TreeShaped) (hbind : bindScript config tree provider root = .ok bound)
    (hschema : ∀ detail, Diagnostic.schema detail ∉ bound.diagnostics)
    (hrecursion : ¬ tree.LeftRecursive bound.bindings) (hreach : tree.Reaches root n)
    (hx : tree.get? n = some (.declare name type (some initializer)))
    (hlinks : Typing.LinksAtMost tree bound.bindings Typing.maxLinks initializer)
    (htype : bound.bindings.find? type = some (.type (.entity e))) (hcode : 0 < e.code) :
    (∃ first, tree.FirstSource initializer first ∧
        (Typing.infer tree bound.bindings first).type.singleReference? = some e.code) ∧
      (tree.UnionFree initializer → ∀ source, tree.ValueSource initializer source →
        (Typing.infer tree bound.bindings source).type.singleReference? = some e.code) := by
  obtain ⟨q, hrun, rfl⟩ := exists_run_of_bindScript hbind hschema
  have hspells : Walk.Spells tree root _ _ := Walk.walk_spells config.maxDepth root
  obtain ⟨typeName, found, hfound, hfind⟩ :=
    Walk.exists_declaredVariable hspells hshape hrun hrecursion hreach hx
  have hentity : e = narrowed tree q.bindings (some initializer) := by
    obtain ⟨declared, rfl, hdeclared⟩ := Option.map_eq_some_iff.1 (hfind.symm.trans htype)
    cases hdeclared
    exact entity_of_declaredVariable hfound
  have hreference : (Typing.infer tree q.bindings initializer).type.singleReference? =
      some e.code := by
    subst hentity
    exact Typing.singleReference?_of_narrowed hlinks hcode
  have hsource : ∀ source, tree.FirstSource initializer source →
      (Typing.infer tree q.bindings source).type.singleReference? = some e.code :=
    fun source hsource =>
      (congrArg UnionType.singleReference? (hsource.type_eq hlinks)).trans hreference
  have hground : tree.Grounded initializer :=
    (hspells.covers (Walk.legal_of_run hrun) rfl).grounded.of_reaches
      (hreach.tail ⟨_, hx, by simp [Node.children]⟩)
  obtain ⟨first, hfirst⟩ := Tree.exists_firstSource hground
  exact ⟨⟨first, hfirst, hsource first hfirst⟩,
    fun hfree source h => hsource source (h.first hfree)⟩

/-- Bills refer to who pays them. -/
def billsDefinition : Definition :=
  ⟨20, "Bills", "t_bills", [.ofType "Payer" "c_payer" (.entity 5)]⟩

/-- Gifts refer to who gives them, which is an object of another type. -/
def giftsDefinition : Definition :=
  ⟨21, "Gifts", "t_gifts", [.ofType "Giver" "c_giver" (.entity 7)]⟩

/-- The catalog of bills and gifts. -/
def billsAndGifts : Catalog :=
  ⟨.ofList [("bills", billsDefinition), ("gifts", giftsDefinition)], .empty⟩

/-- A script that declares a variable for a payer, read from a derived table in a group. -/
def declaredPayer : Tree :=
  ⟨#[.tableReference "Bills" none, .columnReference "Payer", .columnExpression 1 (some "who"),
    .selectExpression { columns := [2], source := some 0 }, .tableExpression 3 "d",
    .columnReference "d.who", .columnExpression 5 none,
    .selectExpression { columns := [6], source := some 4 }, .group 7, .typeIdentifier "entity",
    .declare "@x" 9 (some 8), .script [10]]⟩

theorem declaredPayer_unionFree : declaredPayer.UnionFree 8 := by
  have hkinds : ∀ n < 12, (declaredPayer.get? n).all (·.kind != .tableUnion) := by decide
  intro m left right all _ hx
  have hkind := hkinds m (Array.getElem?_eq_some_iff.1 hx).1
  simp [hx, Node.kind] at hkind

/-- The block in the group refers to the object type that the variable was given. -/
theorem declaredPayer_is_narrowed :
    ∃ bound, bindScript {} declaredPayer billsAndGifts.toProvider 11 = .ok bound ∧
      declaredPayer.TreeShaped ∧ bound.diagnostics = [] ∧
      ¬ declaredPayer.LeftRecursive bound.bindings ∧ declaredPayer.Reaches 11 10 ∧
      Typing.LinksAtMost declaredPayer bound.bindings Typing.maxLinks 8 ∧
      bound.bindings.find? 9 = some (.type (.entity (Entity.ofType 5))) ∧
      declaredPayer.UnionFree 8 ∧ declaredPayer.ValueSource 8 7 ∧
      (Typing.infer declaredPayer bound.bindings 7).type.singleReference? = some 5 := by
  obtain ⟨bound, hbind, hsuccess, hentries, htype, hlinks⟩ :
      ∃ bound, bindScript {} declaredPayer billsAndGifts.toProvider 11 = .ok bound ∧
        bound.diagnostics = [] ∧ (∀ e ∈ bound.bindings.entries, e.2.isCommonTable = false) ∧
        bound.bindings.find? 9 = some (.type (.entity (Entity.ofType 5))) ∧
        Typing.LinksAtMost declaredPayer bound.bindings Typing.maxLinks 8 :=
    exists_ok_of_any (by decide +kernel)
  have hshape : declaredPayer.TreeShaped := by decide
  have hrecursion := Tree.not_leftRecursive_of_entries (t := declaredPayer) hentries
  have hreach : declaredPayer.Reaches 11 10 := .single ⟨_, rfl, by decide⟩
  have hsource : declaredPayer.ValueSource 8 7 := by
    refine ⟨.single ⟨_, rfl, by decide⟩, ?_⟩
    rintro m ⟨x, hx, hm⟩
    cases hx
    cases hm
  exact ⟨bound, hbind, hshape, hsuccess, hrecursion, hreach, hlinks, htype,
    declaredPayer_unionFree, hsource, (narrowing_follows_first_source hshape hbind
      (by simp [hsuccess]) hrecursion hreach rfl hlinks htype (by decide)).2
      declaredPayer_unionFree 7 hsource⟩

/-- A script that declares a variable for a payer or a giver. -/
def payerOrGiver : Tree :=
  ⟨#[.tableReference "Bills" none, .columnReference "Payer", .columnExpression 1 none,
    .selectExpression { columns := [2], source := some 0 },
    .tableReference "Gifts" none, .columnReference "Giver", .columnExpression 5 none,
    .selectExpression { columns := [6], source := some 4 }, .tableUnion 3 7 true,
    .typeIdentifier "entity", .declare "@x" 9 (some 8), .script [10]]⟩

/-- **A union of references is narrowed.**  All names of the script are bound.  The
variable is given the object type of payers, and its initializer has values also from a
block that refers to givers. -/
theorem mixed_union_is_narrowed :
    ∃ bound, bindScript {} payerOrGiver billsAndGifts.toProvider 11 = .ok bound ∧
      payerOrGiver.TreeShaped ∧ bound.diagnostics = [] ∧
      ¬ payerOrGiver.LeftRecursive bound.bindings ∧ payerOrGiver.Reaches 11 10 ∧
      payerOrGiver.get? 10 = some (.declare "@x" 9 (some 8)) ∧
      Typing.LinksAtMost payerOrGiver bound.bindings Typing.maxLinks 8 ∧
      bound.bindings.find? 9 = some (.type (.entity (Entity.ofType 5))) ∧
      payerOrGiver.ValueSource 8 7 ∧
      (Typing.infer payerOrGiver bound.bindings 7).type.singleReference? = some 7 := by
  obtain ⟨bound, hbind, hsuccess, hentries, htype, hlinks, hgiver⟩ :
      ∃ bound, bindScript {} payerOrGiver billsAndGifts.toProvider 11 = .ok bound ∧
        bound.diagnostics = [] ∧ (∀ e ∈ bound.bindings.entries, e.2.isCommonTable = false) ∧
        bound.bindings.find? 9 = some (.type (.entity (Entity.ofType 5))) ∧
        Typing.LinksAtMost payerOrGiver bound.bindings Typing.maxLinks 8 ∧
        (Typing.infer payerOrGiver bound.bindings 7).type.singleReference? = some 7 :=
    exists_ok_of_any (by decide +kernel)
  refine ⟨bound, hbind, by decide, hsuccess, Tree.not_leftRecursive_of_entries hentries,
    .single ⟨_, rfl, by decide⟩, rfl, hlinks, htype, ⟨.single ⟨_, rfl, by decide⟩, ?_⟩, hgiver⟩
  rintro m ⟨x, hx, hm⟩
  cases hx
  cases hm

end UnionScript
