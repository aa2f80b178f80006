import Mathlib.Data.List.Forall2
import UnionScript.Proofs.BoundScript.Tables

/-!
# Variables have the types they were declared with last

The declarations of a script stand in its items, and its other items may be anything.
Then a variable in an item is seen with the type of the last declaration before the item
that is of the same name and has a type that was resolved.  It makes no difference how
deep the variable stands in the item.  A declaration is not seen in its own initializer,
which may so refer to an earlier variable of the same name.

* `Tree.DeclaresInItems` — all declarations are items of the script;
* `Tree.declaredIn?`, `Tree.lastDeclared?` — the type that an item declares a name with,
  and the one that it was declared with last;
* `Declared` — what the scope of the script holds after some of its items;
* `Walk.variableType?_of_item` — what variables in an item are resolved to.

Main statement: `variables_have_last_declared_types`.
-/

namespace UnionScript

/-- The type that a node was declared with. -/
def Binding.type? : Binding → Option VariableType
  | .type declared => some declared
  | _ => none

namespace Tree

/-- A script whose declarations are all items of it. -/
structure DeclaresInItems (t : Tree) (root : NodeId) (items : List NodeId) : Prop where
  script : t.get? root = some (.script items)
  declared : ∀ n name type initializer, t.Reaches root n →
    t.get? n = some (.declare name type initializer) → n ∈ items

/-- The type that an item declares a name with, if it does and the type was resolved. -/
def declaredIn? (t : Tree) (bindings : Bindings) (key : String) (item : NodeId) :
    Option VariableType :=
  match t.get? item with
  | some (.declare name type _) =>
    if nameKey name = key then (bindings.find? type).bind Binding.type? else none
  | _ => none

/-- The type that a name was declared with last. -/
def lastDeclared? (t : Tree) (bindings : Bindings) (items : List NodeId) (name : String) :
    Option VariableType :=
  items.reverse.findSome? (t.declaredIn? bindings (nameKey name))

/-- An item that is no declaration declares nothing. -/
theorem declaredIn?_of_other {t : Tree} {item : NodeId} (bindings : Bindings) (key : String)
    (h : ∀ name type initializer, t.get? item ≠ some (.declare name type initializer)) :
    t.declaredIn? bindings key item = none := by
  unfold declaredIn?
  split
  · rename_i name type initializer hitem
    exact (h name type initializer hitem).elim
  · rfl

variable {t : Tree} {root : NodeId} {items : List NodeId}

theorem DeclaresInItems.holds (h : t.DeclaresInItems root items) {item : NodeId}
    (hitem : item ∈ items) : t.Holds root item :=
  ⟨_, h.script, hitem⟩

/-- **Who declares.**  The declaration of a type below an item is the item itself. -/
theorem DeclaresInItems.eq_of_type (h : t.DeclaresInItems root items) (hshape : t.TreeShaped)
    (hroot : t.Grounded root) {item d type : NodeId} {name : String}
    {initializer : Option NodeId} (hitem : item ∈ items) (htype : t.Reaches item type)
    (hd : t.get? d = some (.declare name type initializer)) : d = item := by
  have hholds : t.Holds d type := ⟨_, hd, by simp [Node.children]⟩
  rcases (Relation.ReflTransGen.cases_tail_iff _ _ _).1 htype with rfl | ⟨m, hm, hmtype⟩
  · obtain rfl := hshape.parent_unique (h.holds hitem) hholds
    cases h.script.symm.trans hd
  · obtain rfl := hshape.parent_unique hmtype hholds
    have hreach : t.Reaches root m := Relation.ReflTransGen.head (h.holds hitem) hm
    have hmem := h.declared m name type initializer hreach hd
    exact (hshape.eq_of_reaches_sibling hroot (h.holds hitem) (h.holds hmem) hm).symm

end Tree

/-- What the scope of a script holds after some of its items: the variables with the types
that they were declared with last.  No other scope holds variables. -/
structure Declared (tree : Tree) (bindings : Bindings) (items : List NodeId) (p : Progress) :
    Prop where
  atRoot : p.scopes.AtRoot
  types : ∀ key, p.scopes.variableIn? 0 key =
    items.reverse.findSome? (tree.declaredIn? bindings key)
  inner : ∀ i key, i ≠ 0 → p.scopes.variableIn? i key = none

/-- Nothing is declared when the script begins. -/
theorem Declared.start {s : Surroundings} {tree : Tree} {bindings : Bindings} {root : NodeId}
    {p : Progress} (h : (Step.enter root .script false).perform s {} = .finished p) :
    Declared tree bindings [] p := by
  have hknown : Known tree bindings (fun _ => []) [] p := .start h
  exact ⟨hknown.atRoot, fun key => hknown.types key, hknown.inner⟩

namespace Walk

variable {s : Surroundings} {p q m : Progress}

/-- A variable is bound to what its name is resolved to. -/
theorem find?_of_useVariable {n : NodeId} {name : String}
    (h : (Step.useVariable n name).perform s p = .finished q)
    (hfresh : p.bindings.find? n = none) :
    q.bindings.find? n = (p.scopes.variableType? name).map .variable := by
  simp only [Step.perform] at h
  split at h
  · rename_i type htype
    cases h
    rw [htype]
    exact Directory.find?_insert_self _ _ _
  · rename_i hnone
    cases h
    rw [hnone]
    exact hfresh

/-- The type of a declaration is bound to what it is resolved to. -/
theorem find?_of_declare {n : NodeId} {typeName name : String} {initializer : Option NodeId}
    (h : (Step.declare n typeName name initializer).perform s p = .finished q)
    (hfresh : p.bindings.find? n = none) :
    ∃ found, declaredVariable s p.bindings typeName initializer = .ok found ∧
      q.bindings.find? n = found.map .type := by
  obtain ⟨found, hfound, h⟩ := Step.ask_eq_finished h
  refine ⟨found, hfound, ?_⟩
  cases found with
  | none =>
      cases h
      exact hfresh
  | some type =>
      rw [Progress.bindType] at h
      obtain ⟨scopes, -, rfl⟩ := Step.changeScopes_eq_finished h
      simp [Progress.bind]

section

variable {tree : Tree} {limit depth : Nat} {root item : NodeId} {items : List NodeId}
  (hdeclares : tree.DeclaresInItems root items) (hshape : tree.TreeShaped)
  (hroot : tree.Grounded root) (hitem : item ∈ items)

include hdeclares hshape hroot hitem

/-- A walk over an item declares nothing but the item. -/
theorem get?_of_declare_mem {l : List Step} (hspells : Spells tree item (.visit item) l)
    {n : NodeId} {typeName name : String} {initializer : Option NodeId}
    (hmem : Step.declare n typeName name initializer ∈ l) :
    tree.get? item = some (.declare name n initializer) := by
  obtain ⟨-, d, hd⟩ := hspells.fits trivial _ hmem
  obtain rfl := hdeclares.eq_of_type hshape hroot hitem (hspells.reaches_of_visit hmem rfl) hd
  exact hd

/-- **Items and declarations.**  The walk over an item declares nothing, and the item is
no declaration, or it declares the item with its last step. -/
theorem declares_nothing_or_last (hlegal : Legal (steps tree limit depth item)) :
    ((∀ name type initializer, tree.get? item ≠ some (.declare name type initializer)) ∧
        ∀ n typeName name initializer,
          Step.declare n typeName name initializer ∉ steps tree limit depth item) ∨
      ∃ name type initializer body typeName,
        tree.get? item = some (.declare name type initializer) ∧
        steps tree limit depth item = body ++ [.declare type typeName name initializer] ∧
        Balanced body ∧ type ∉ subjects body ∧
        ∀ n typeName name initializer, Step.declare n typeName name initializer ∉ body := by
  have hspells : Spells tree item (.visit item) (steps tree limit depth item) :=
    steps_spells limit depth item item
  have hmem := @get?_of_declare_mem _ _ _ _ hdeclares hshape hroot hitem _ hspells
  by_cases h : ∃ name type initializer, tree.get? item = some (.declare name type initializer)
  · right
    obtain ⟨name, type, initializer, hx⟩ := h
    cases depth with
    | zero => exact (hlegal _ (List.mem_singleton_self _)).elim
    | succ depth =>
        obtain ⟨typeName, hsteps⟩ := steps_declare hx hlegal
        have hnodup := (hspells.covers hlegal rfl).nodup hshape
        rw [hsteps] at hnodup
        have htype : type ∉ subjects ((initializer.toList.map (Stage.query false)).flatMap
            (stageSteps tree limit depth item)) := fun hmem =>
          not_mem_subjects_of_nodup hnodup hmem (by simp [subjects, Step.subject?])
        refine ⟨name, type, initializer, _, typeName, hx, hsteps, .flatMap fun stage hstage => ?_,
          htype, fun n typeName' name' initializer' hdeclare => ?_⟩
        · obtain ⟨query, -, rfl⟩ := List.mem_map.1 hstage
          exact stageSteps_balanced limit depth item rfl
        · have hx' := hmem (hsteps ▸ List.mem_append_left _ hdeclare)
          cases hx.symm.trans hx'
          exact htype (mem_subjects.2 ⟨_, hdeclare, rfl⟩)
  · left
    refine ⟨fun name type initializer hx => h ⟨name, type, initializer, hx⟩, ?_⟩
    intro n typeName name initializer hdeclare
    exact h ⟨name, n, initializer, hmem hdeclare⟩

/-- **Variables in an item.**  They are resolved to what the scope of the script holds
before the item. -/
theorem variableType?_of_item (hp : p.scopes.AtRoot)
    (hinner : ∀ i key, i ≠ 0 → p.scopes.variableIn? i key = none) {own rest : List Step}
    {n : NodeId} {name : String}
    (hlegal : Legal (steps tree limit depth item))
    (hsplit : steps tree limit depth item = own ++ .useVariable n name :: rest)
    (hown : run s own p = .finished m) :
    m.scopes.variableType? name = p.scopes.variableIn? 0 (nameKey name) := by
  have hkeeps := (steps_balanced tree limit depth item).keeps (s := s)
    (fun _ _ _ _ _ hnested hinside hentered => hinside.enter hnested hentered)
    (fun _ _ hnested hnested' hinside hreturn => hinside.returns hnested hnested' hreturn)
    hp.nested (ScopeTree.Inside.refl p.scopes)
  rw [hsplit] at hkeeps
  obtain ⟨hnested, hinside⟩ := hkeeps.before hown
  obtain ⟨seen, hchain, hlater⟩ := hp.chain_of_inside hinside hnested
  have hzero := ScopeTree.current_lt_size hp.nested hp.current
  refine variableType?_of_chain hown (fun n typeName name initializer hmem => ?_) hinner hchain
    (fun i hi => Nat.lt_of_lt_of_le hzero (hlater i hi)) name
  rcases declares_nothing_or_last hdeclares hshape hroot hitem hlegal with
    ⟨-, hnothing⟩ | ⟨_, _, _, body, _, -, hsteps, -, -, hnothing⟩
  · exact hnothing _ _ _ _ (hsplit ▸ List.mem_append_left _ hmem)
  · obtain ⟨rest', rfl⟩ := split_last (hsteps.symm.trans hsplit) (by simp)
    exact hnothing _ _ _ _ (List.mem_append_left _ hmem)

/-- **One item more.**  After an item the scope of the script holds what the item declares,
and what it held before. -/
theorem declared_of_item {bindings : Bindings} {earlier : List NodeId}
    (h : Declared tree bindings earlier p)
    (hrun : run s (steps tree limit depth item) p = .finished q)
    (hfresh : ∀ n ∈ subjects (steps tree limit depth item), p.bindings.find? n = none)
    (hagree : ∀ n ∈ subjects (steps tree limit depth item),
      bindings.find? n = q.bindings.find? n) :
    Declared tree bindings (earlier ++ [item]) q := by
  have hatRoot := h.atRoot.returns (run_nested h.atRoot.nested hrun)
    ((steps_balanced tree limit depth item).returns hrun)
  have hlast : ∀ key, (earlier ++ [item]).reverse.findSome? (tree.declaredIn? bindings key) =
      (tree.declaredIn? bindings key item).or (p.scopes.variableIn? 0 key) := by
    intro key
    rw [h.types key, List.reverse_append, List.findSome?_append]
    simp
  rcases declares_nothing_or_last hdeclares hshape hroot hitem (legal_of_run hrun) with
    ⟨hother, hnothing⟩ |
    ⟨name, type, initializer, body, typeName, hx, hsteps, hbody, htype, hnothing⟩
  · have hsame := run_variableIn? hrun hnothing
    refine ⟨hatRoot, fun key => ?_, fun i key hi => (hsame i key).trans (h.inner i key hi)⟩
    rw [hsame, hlast, Tree.declaredIn?_of_other bindings key hother, Option.none_or]
  · rw [hsteps] at hrun hfresh hagree
    obtain ⟨m, hm, hdeclare⟩ := run_append_eq_finished hrun
    rw [run_singleton] at hdeclare
    have hmem : type ∈ subjects (body ++ [.declare type typeName name initializer]) := by
      simp [subjects, Step.subject?]
    have hnew := (run_find?_of_not_mem hm htype).trans (hfresh type hmem)
    have hroot' := h.atRoot.returns (run_nested h.atRoot.nested hm) (hbody.returns hm)
    have hsame := run_variableIn? hm hnothing
    have hvariables := Step.variableIn?_of_declare hdeclare hroot'.current
      (ScopeTree.current_lt_size hroot'.nested hroot'.current) hnew
    obtain ⟨found, -, hfound⟩ := find?_of_declare hdeclare hnew
    refine ⟨hatRoot, fun key => ?_, fun i key hi => ?_⟩
    · have hdeclared : (Step.declare type typeName name initializer).declaredType? q.bindings key =
          tree.declaredIn? bindings key item := by
        simp only [Step.declaredType?, Tree.declaredIn?, hx, hagree type hmem, hfound]
        cases found <;> rfl
      rw [hvariables, if_pos rfl, hsame, hlast, hdeclared]
    · rw [hvariables, if_neg hi, hsame, h.inner i key hi]

end

section

variable {tree : Tree} {limit : Nat} {root item : NodeId} {items earlier later : List NodeId}
  (hdeclares : tree.DeclaresInItems root items) (hshape : tree.TreeShaped)
  (hrun : run s (tree.walk limit root) {} = .finished q)

include hdeclares hshape hrun

/-- **Along the items.**  Before each item the scope of the script holds what the items
before it declared. -/
theorem exists_declared (hitems : items = earlier ++ later) :
    ∃ p, run s (.enter root .script false :: earlier.flatMap (tree.itemWalk limit)) {} =
        .finished p ∧ Declared tree q.bindings earlier p := by
  have hlegal := legal_of_run hrun
  have hcovers := (walk_spells limit root).covers hlegal rfl
  have hnodup := hcovers.nodup hshape
  induction earlier using List.reverseRecOn generalizing later with
  | nil =>
      have hfirst := hrun
      rw [walk_eq_items hdeclares.script hlegal] at hfirst
      obtain ⟨p, hp, -⟩ := run_cons_eq_finished hfirst
      exact ⟨p, by rw [List.flatMap_nil, run_singleton, hp], .start hp⟩
  | append_singleton earlier item ih =>
      rw [List.append_assoc, List.singleton_append] at hitems
      obtain ⟨p, hp, hdeclared⟩ := ih hitems
      have hsplit := hrun
      rw [walk_eq_split hdeclares.script hlegal hitems] at hsplit hnodup
      obtain ⟨p', hp', hrest⟩ := run_append_eq_finished hsplit
      obtain rfl : p = p' := Outcome.finished.inj (hp.symm.trans hp')
      obtain ⟨m, hm, hend⟩ := run_append_eq_finished hrest
      refine ⟨m, ?_, declared_of_item hdeclares hshape hcovers.grounded (by simp [hitems]) hdeclared
        hm (fun n hn => (run_frame hnodup hp hend hn).1)
        fun n hn => (run_frame hnodup hp hend hn).2⟩
      rw [List.flatMap_append, List.flatMap_singleton, ← List.cons_append, run_append, hp]
      exact hm

/-- **One variable.**  A variable in an item is bound to the type that its name was
declared with last before the item. -/
theorem find?_of_variable (hitems : items = earlier ++ item :: later) {n : NodeId}
    {name : String} (hn : tree.Reaches item n)
    (hx : tree.get? n = some (.variableReference name)) :
    q.bindings.find? n = (tree.lastDeclared? q.bindings earlier name).map .variable := by
  obtain ⟨p, hp, hdeclared⟩ := exists_declared hdeclares hshape hrun hitems
  have hlegal := legal_of_run hrun
  have hcovers := (walk_spells limit root).covers hlegal rfl
  have hnodup := hcovers.nodup hshape
  have hwalk := walk_eq_split hdeclares.script hlegal hitems
  have hlegal' : Legal (tree.itemWalk limit item) := fun fault hfault =>
    hlegal fault (hwalk ▸ List.mem_append_right _ (List.mem_append_left _ hfault))
  obtain ⟨step, hmem, hsub, hfits, hkind⟩ := exists_step_of_reaches
    (steps_spells limit (limit - 1) item item) hlegal' hn hx rfl
  obtain rfl : step = .useVariable n name := by
    cases step <;> cases hsub <;> cases hkind
    case enter => cases hfits.1
    case useVariable name' =>
      cases hx.symm.trans hfits
      rfl
  obtain ⟨own, rest, hsplit⟩ := List.append_of_mem hmem
  have hrun' := hrun
  rw [hwalk] at hrun' hnodup
  rw [Tree.itemWalk, hsplit] at hrun' hnodup
  have hassoc : (Step.enter root .script false :: earlier.flatMap (tree.itemWalk limit)) ++
      (own ++ .useVariable n name :: rest ++ (later.flatMap (tree.itemWalk limit) ++ [.leave])) =
      ((.enter root .script false :: earlier.flatMap (tree.itemWalk limit)) ++ own) ++
        ([.useVariable n name] ++
          (rest ++ (later.flatMap (tree.itemWalk limit) ++ [.leave]))) := by
    simp
  rw [hassoc] at hrun' hnodup
  obtain ⟨m, hbefore, hlast⟩ := run_append_eq_finished hrun'
  obtain ⟨m', huse, hafter⟩ := run_append_eq_finished hlast
  rw [run_singleton] at huse
  obtain ⟨hfresh, hkept⟩ := run_frame hnodup hbefore hafter (List.mem_singleton_self n)
  have hown : run s own p = .finished m := by
    rw [run_append, hp] at hbefore
    exact hbefore
  rw [hkept, find?_of_useVariable huse hfresh,
    variableType?_of_item hdeclares hshape hcovers.grounded (by simp [hitems]) hdeclared.atRoot
      hdeclared.inner hlegal' hsplit hown, hdeclared.types]
  rfl

end

end Walk

/-- **Types of variables.**  In a tree-shaped script whose declarations are items of it, as
long as no schema fails, every variable in an item, however deep, is bound to the type
that its name was declared with last before the item.  Declarations whose type was not
resolved do not count.  The variable is reported exactly if there is no such declaration,
and then it has no binding. -/
theorem variables_have_last_declared_types {config : Config} {tree : Tree} {provider : Provider}
    {root : NodeId} {items : List NodeId} {bound : BoundScript} (hshape : tree.TreeShaped)
    (hdeclares : tree.DeclaresInItems root items)
    (hbind : bindScript config tree provider root = .ok bound)
    (hschema : ∀ detail, Diagnostic.schema detail ∉ bound.diagnostics) :
    ∃ reported : List NodeId, reported.Nodup ∧
      List.Forall₂ tree.Reports reported bound.diagnostics ∧
      ∀ earlier item later, items = earlier ++ item :: later → ∀ n name, tree.Reaches item n →
        tree.get? n = some (.variableReference name) →
        bound.bindings.find? n =
            (tree.lastDeclared? bound.bindings earlier name).map .variable ∧
          (n ∈ reported ↔ tree.lastDeclared? bound.bindings earlier name = none) := by
  obtain ⟨q, hrun, rfl⟩ := exists_run_of_bindScript hbind hschema
  have hspells : Walk.Spells tree root _ _ := Walk.walk_spells config.maxDepth root
  have hnodup := (hspells.covers (Walk.legal_of_run hrun) rfl).nodup hshape
  refine ⟨_, hnodup.sublist (Walk.unresolved_sublist q.bindings _),
    Walk.forall₂_diagnostics hrun hspells hshape, ?_⟩
  intro earlier item later hitems n name hn hx
  have hfound := Walk.find?_of_variable hdeclares hshape hrun hitems hn hx
  refine ⟨hfound, ?_⟩
  have hreach : tree.Reaches root n :=
    Relation.ReflTransGen.head (hdeclares.holds (by simp [hitems])) hn
  rw [Walk.mem_unresolved_iff hrun hspells, hfound, Option.map_eq_none_iff]
  exact ⟨fun h => h.2.2, fun h => ⟨hreach, ⟨_, _, .variableName hx⟩, h⟩⟩

/-- A script that declares a number, a text of the same name with the number in its
initializer, and the name once more with an unknown type; then reads it in a derived
table, beside a name that is declared later. -/
def redeclared : Tree :=
  ⟨#[.typeIdentifier "number", .declare "@a" 0 none,
    .variableReference "@a", .columnExpression 2 none, .selectExpression { columns := [3] },
    .typeIdentifier "string", .declare "@A" 5 (some 4),
    .typeIdentifier "missing", .declare "@a" 7 none,
    .variableReference "@a", .columnExpression 9 (some "x"), .selectExpression { columns := [10] },
    .tableExpression 11 "d", .variableReference "@b", .columnExpression 13 none,
    .selectExpression { columns := [14], source := some 12 }, .select none 15,
    .typeIdentifier "number", .declare "@b" 17 none, .script [1, 6, 8, 16, 18]]⟩

theorem redeclared_declaresInItems : redeclared.DeclaresInItems 19 [1, 6, 8, 16, 18] where
  script := rfl
  declared n name type initializer _ hx := by
    have hnodes : ∀ n < 20, (redeclared.get? n).all (fun x =>
        x.kind != .declare || [1, 6, 8, 16, 18].contains n) := by decide
    have hall := hnodes n (Array.getElem?_eq_some_iff.1 hx).1
    simpa [hx, Node.kind] using hall

/-- The initializer sees the number.  The derived table sees the text, since the later
declaration has no type, and the name that is declared later is reported. -/
theorem variables_of_redeclared :
    ∃ bound, bindScript {} redeclared stockOnly 19 = .ok bound ∧
      redeclared.TreeShaped ∧ redeclared.DeclaresInItems 19 [1, 6, 8, 16, 18] ∧
      bound.diagnostics = [.unresolved .type "missing", .unresolved .variable "@b"] ∧
      bound.bindings.find? 2 = some (.variable (.primitive (.ofKind .numeric))) ∧
      bound.bindings.find? 9 = some (.variable (.primitive (.ofKind .string))) ∧
      ∃ reported, List.Forall₂ redeclared.Reports reported bound.diagnostics ∧
        13 ∈ reported ∧ 9 ∉ reported := by
  obtain ⟨bound, hbind, hdiagnostics, hfirst, hsecond, hthird⟩ :
      ∃ bound, bindScript {} redeclared stockOnly 19 = .ok bound ∧
        bound.diagnostics = [.unresolved .type "missing", .unresolved .variable "@b"] ∧
        redeclared.lastDeclared? bound.bindings [1] "@a" =
          some (.primitive (.ofKind .numeric)) ∧
        redeclared.lastDeclared? bound.bindings [1, 6, 8] "@a" =
          some (.primitive (.ofKind .string)) ∧
        redeclared.lastDeclared? bound.bindings [1, 6, 8] "@b" = none :=
    ⟨_, rfl, rfl, rfl, rfl, rfl⟩
  have hshape : redeclared.TreeShaped := by decide
  obtain ⟨reported, -, hreports, hall⟩ := variables_have_last_declared_types hshape
    redeclared_declaresInItems hbind (by simp [hdiagnostics])
  have hown : redeclared.Reaches 6 2 :=
    .head (b := 4) ⟨_, rfl, by decide⟩ <| .head (b := 3) ⟨_, rfl, by decide⟩ <|
      .single ⟨_, rfl, by decide⟩
  have hdeep : redeclared.Reaches 16 9 :=
    .head (b := 15) ⟨_, rfl, by decide⟩ <| .head (b := 12) ⟨_, rfl, by decide⟩ <|
      .head (b := 11) ⟨_, rfl, by decide⟩ <| .head (b := 10) ⟨_, rfl, by decide⟩ <|
        .single ⟨_, rfl, by decide⟩
  have hlate : redeclared.Reaches 16 13 :=
    .head (b := 15) ⟨_, rfl, by decide⟩ <| .head (b := 14) ⟨_, rfl, by decide⟩ <|
      .single ⟨_, rfl, by decide⟩
  obtain ⟨hnumber, -⟩ := hall [1] 6 [8, 16, 18] rfl 2 "@a" hown rfl
  obtain ⟨htext, hnotReported⟩ := hall [1, 6, 8] 16 [18] rfl 9 "@a" hdeep rfl
  obtain ⟨-, hreported⟩ := hall [1, 6, 8] 16 [18] rfl 13 "@b" hlate rfl
  rw [hfirst] at hnumber
  rw [hsecond] at htext hnotReported
  exact ⟨bound, hbind, hshape, redeclared_declaresInItems, hdiagnostics, hnumber, htext, reported,
    hreports, hreported.2 hthird, fun h => nomatch hnotReported.1 h⟩

end UnionScript
