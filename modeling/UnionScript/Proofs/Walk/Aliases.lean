import UnionScript.Proofs.BoundScript.References
import UnionScript.Proofs.Walk.Enclosure
import UnionScript.Proofs.Walk.Registry

/-!
# The aliases of a scope

A table that is found is registered in the scope around its node, under its alias in lower case
or under its name if it has no alias.  A later table under the same key takes the place of an
earlier one.  So the aliases of a scope are those of the tables in it that were found so far,
and where tables share a key, one of them has it.

* `Tree.aliasKey?` — the key of a table that is read;
* `Step.perform_alias_cases` — what a step does to aliases;
* `Progress.Aliased` — the tables of scopes are the ones that were found, `Walk.run_aliased` for
  every run of steps that are in place.
-/

namespace UnionScript

/-- The key that a table is registered under in the scope that reads it. -/
def Tree.aliasKey? (t : Tree) (n : NodeId) : Option String :=
  match t.get? n with
  | some (.tableReference identifier aliasName) => some (nameKey (aliasName.getD identifier))
  | some (.tableExpression _ aliasName) => some (nameKey aliasName)
  | _ => none

namespace ScopeTree

variable {t t' : ScopeTree}

/-- The table registered under a key as an alias in a scope. -/
def aliasIn? (t : ScopeTree) (id : ScopeId) (key : String) : Option AliasTarget :=
  (t.get? id).bind (·.aliases.find? key)

theorem aliasIn?_addAlias {id : ScopeId} (hid : id < t.size) (name : String)
    (target : AliasTarget) (i : ScopeId) (key : String) :
    (t.change id (Scope.addAlias name target)).aliasIn? i key =
      if i = id ∧ nameKey name = key then some target else t.aliasIn? i key :=
  find?_of_insert (f := Scope.aliases) (fun _ => rfl) hid i key

end ScopeTree

namespace Step

variable {tree : Tree} {s : Surroundings} {p q : Progress} {step : Step} {n : NodeId}

/-- The alias that a step registers if it finds a table. -/
def aliasName? : Step → Option String
  | .deriveTable _ _ aliasName | .useTable _ _ aliasName => some aliasName
  | _ => none

/-- A step about a node registers the alias of that node. -/
theorem Fits.aliasKey? (hfits : step.Fits tree) (hn : step.subject? = some n) :
    tree.aliasKey? n = step.aliasName?.map nameKey := by
  cases step <;> cases hn
  case enter kind correlated =>
    obtain ⟨hopens, x, hx, rfl⟩ := hfits
    cases x <;> cases hopens <;> simp [Tree.aliasKey?, hx, aliasName?]
  case useTable identifier shown =>
    obtain ⟨aliasName, hx, rfl⟩ := hfits
    simp [Tree.aliasKey?, hx, aliasName?]
  case deriveTable | useColumn | useVariable | setColumn =>
    simp [Tree.aliasKey?, show tree.get? n = _ from hfits, aliasName?]
  case defineTable =>
    obtain ⟨_, hx⟩ := hfits
    simp [Tree.aliasKey?, hx, aliasName?]
  case useProjection =>
    obtain ⟨_, hx, -⟩ := hfits
    simp [Tree.aliasKey?, hx, aliasName?]
  case callFunction =>
    obtain ⟨_, _, hx⟩ := hfits
    simp [Tree.aliasKey?, hx, aliasName?]
  case storeInto | declare =>
    simp [Tree.aliasKey?, hfits.1, aliasName?]

/-- A step binds its node to a table and registers the table under an alias, in the current
scope. -/
structure Shows (p : Progress) (step : Step) (q : Progress) (n : NodeId) (aliasName : String)
    (source : TableSource) (id : ScopeId) : Prop where
  subject : step.subject? = some n
  shown : step.aliasName? = some aliasName
  current : p.scopes.current = some id
  bindings : q.bindings = p.bindings.insert n (.table source)
  scopes : q.scopes = p.scopes.change id (Scope.addAlias aliasName ⟨n, source⟩)

/-- A step that binds its node to a table and registers an alias. -/
theorem shows_of_addAlias {aliasName : String} {source : TableSource}
    (hn : step.subject? = some n) (hshown : step.aliasName? = some aliasName)
    (h : (p.bind n (.table source)).changeScopes (·.addAlias aliasName ⟨n, source⟩) =
      .finished q) : ∃ id, step.Shows p q n aliasName source id := by
  obtain ⟨scopes, hscopes, rfl⟩ := changeScopes_eq_finished h
  obtain ⟨id, hid, rfl⟩ := ScopeTree.changeCurrent_eq_ok_iff.1 hscopes
  exact ⟨id, hn, hshown, hid, rfl, rfl⟩

/-- A step that is not made for it registers no alias. -/
theorem aliasIn?_of_other (h : step.perform s p = .finished q) (hnone : step.aliasName? = none) :
    (∀ i key, q.scopes.aliasIn? i key = p.scopes.aliasIn? i key) ∧
      p.scopes.frames <+: q.scopes.frames := by
  cases takes_of_perform h with
  | binds hn hb hscopes =>
      refine ⟨fun i key => ?_, hscopes.same_frames.1 ▸ List.prefix_rfl⟩
      cases hscopes with
      | unchanged => rfl
      | registered id hr =>
          cases hr with
          | derived | table => cases hnone
          | commonTable | stored | column | type =>
              refine ScopeTree.bind_get?_change ?_ id i
              exact fun _ => rfl
  | reports | passes => exact ⟨fun _ _ => rfl, List.prefix_rfl⟩
  | enters _ hscopes =>
      refine ⟨fun i key => ?_, (ScopeTree.frames_of_enter hscopes).1 ▸ List.prefix_append _ _⟩
      exact ScopeTree.bind_get?_of_enter (fun _ _ _ => Directory.find?_empty key) hscopes i
  | leaves _ hscopes =>
      refine ⟨fun i key => ScopeTree.bind_get?_of_leave _ hscopes i, ?_⟩
      obtain ⟨id, -, rfl⟩ := ScopeTree.leave_eq_ok_iff.1 hscopes
      exact List.prefix_rfl

/-- **Steps and aliases.**  A step registers the alias of a table that it finds, in the current
scope, or leaves all aliases alone; and then it binds no node of a table that is read. -/
theorem perform_alias_cases (h : step.perform s p = .finished q) :
    (∃ n aliasName source id, step.Shows p q n aliasName source id) ∨
      ((step.aliasName? = none ∨ q.bindings = p.bindings) ∧
        (∀ i key, q.scopes.aliasIn? i key = p.scopes.aliasIn? i key) ∧
        p.scopes.frames <+: q.scopes.frames) := by
  cases step with
  | deriveTable n query aliasName => exact Or.inl ⟨n, _, _, shows_of_addAlias rfl rfl h⟩
  | useTable n identifier aliasName =>
      obtain ⟨found, -, h⟩ := ask_eq_finished h
      cases found with
      | none =>
          cases h
          exact Or.inr ⟨Or.inr rfl, fun _ _ => rfl, List.prefix_rfl⟩
      | some source => exact Or.inl ⟨n, _, _, shows_of_addAlias rfl rfl h⟩
  | _ => exact Or.inr ⟨Or.inl rfl, aliasIn?_of_other h rfl⟩

end Step

/-- The aliases of scopes are those of the tables in them that were found among the nodes visited
so far, and of two with one key the one that was visited later. -/
structure Progress.Aliased (tree : Tree) (visited : List NodeId) (p : Progress) : Prop where
  seen : ∀ {n}, (p.bindings.find? n).isSome → n ∈ visited
  sound : ∀ {id key target}, p.scopes.aliasIn? id key = some target →
    tree.aliasKey? target.node = some key ∧
      p.bindings.find? target.node = some (.table target.source) ∧
      ∃ f, p.scopes.frames[id]? = some f ∧ tree.Encloses f.owner target.node
  kept : ∀ {n key}, tree.aliasKey? n = some key → (p.bindings.find? n).isSome →
    ∃ id f target, p.scopes.frames[id]? = some f ∧ tree.Encloses f.owner n ∧
      p.scopes.aliasIn? id key = some target ∧
      (n = target.node ∨ [n, target.node].Sublist visited)

namespace Progress

variable {tree : Tree} {s : Surroundings} {p q : Progress} {step : Step} {visited : List NodeId}

theorem aliased_empty (tree : Tree) : ({} : Progress).Aliased tree [] where
  seen h := by cases h
  sound h := by cases h
  kept _ h := by cases h

/-- A node that has a binding has been visited before or by the step. -/
theorem Aliased.seen_perform (hp : p.Aliased tree visited) (h : step.Takes s p q) {n : NodeId}
    (hn : (q.bindings.find? n).isSome) : n ∈ visited ++ step.subject?.toList := by
  by_cases hsubject : step.subject? = some n
  · simp [hsubject]
  · rw [h.find?_of_ne hsubject] at hn
    exact List.mem_append_left _ (hp.seen hn)

/-- A table that is found gets its alias in the scope around its node. -/
theorem Aliased.of_shows (hp : p.Aliased tree visited) (hfits : step.Fits tree)
    (hnew : ∀ n, step.subject? = some n → n ∉ visited) (hplace : step.InPlace tree p.scopes)
    (htakes : step.Takes s p q) {n : NodeId} {aliasName : String} {source : TableSource}
    {id : ScopeId} (h : step.Shows p q n aliasName source id) :
    q.Aliased tree (visited ++ step.subject?.toList) := by
  obtain ⟨f, hf, hencloses⟩ := hplace n h.subject id h.current
  have hkey : tree.aliasKey? n = some (nameKey aliasName) := by
    rw [hfits.aliasKey? h.subject, h.shown, Option.map_some]
  have hid : id < p.scopes.size := by
    rw [← ScopeTree.length_frames]
    exact (List.getElem?_eq_some_iff.1 hf).1
  have hframes : q.scopes.frames = p.scopes.frames := by
    rw [h.scopes]
    exact p.scopes.frames_change id (.aliasName aliasName ⟨n, source⟩)
  have halias : ∀ i key, q.scopes.aliasIn? i key =
      if i = id ∧ nameKey aliasName = key then some ⟨n, source⟩ else p.scopes.aliasIn? i key := by
    intro i key
    rw [h.scopes, ScopeTree.aliasIn?_addAlias hid]
  refine ⟨hp.seen_perform htakes, fun {i key target} htarget => ?_, fun {m key} hm hbound => ?_⟩
  · rw [halias] at htarget
    split at htarget
    · rename_i heq
      obtain ⟨rfl, rfl⟩ := heq
      obtain rfl := Option.some.inj htarget
      rw [h.bindings, hframes]
      exact ⟨hkey, Directory.find?_insert_self _ _ _, f, hf, hencloses⟩
    · obtain ⟨hkey', hbinding, f', hf', hencloses'⟩ := hp.sound htarget
      have hne : n ≠ target.node := by
        rintro rfl
        exact hnew _ h.subject (hp.seen (by simp [hbinding]))
      rw [h.bindings, hframes, Directory.find?_insert_of_ne _ _ hne]
      exact ⟨hkey', hbinding, f', hf', hencloses'⟩
  · rw [hframes, h.subject, Option.toList_some]
    by_cases hmn : m = n
    · subst hmn
      obtain rfl : nameKey aliasName = key := Option.some.inj (hkey.symm.trans hm)
      exact ⟨id, f, ⟨m, source⟩, hf, hencloses, by simp [halias], Or.inl rfl⟩
    · rw [h.bindings, Directory.find?_insert_of_ne _ _ (Ne.symm hmn)] at hbound
      obtain ⟨i, f', target, hf', hencloses', htarget, horder⟩ := hp.kept hm hbound
      by_cases heq : i = id ∧ nameKey aliasName = key
      · -- The table that is found now takes the place of an earlier one.
        refine ⟨i, f', ⟨n, source⟩, hf', hencloses', by rw [halias, if_pos heq], Or.inr ?_⟩
        exact (List.singleton_sublist.2 (hp.seen hbound)).append_right [n]
      · refine ⟨i, f', target, hf', hencloses', by rw [halias, if_neg heq, htarget], ?_⟩
        exact horder.imp_right fun hsub => hsub.trans (List.sublist_append_left _ _)

/-- **One step.**  A step in the scope around its node keeps the aliases right. -/
theorem Aliased.perform (hp : p.Aliased tree visited) (hfits : step.Fits tree)
    (hnew : ∀ n, step.subject? = some n → n ∉ visited) (hplace : step.InPlace tree p.scopes)
    (h : step.perform s p = .finished q) :
    q.Aliased tree (visited ++ step.subject?.toList) := by
  have htakes := Step.takes_of_perform h
  rcases Step.perform_alias_cases h with ⟨n, aliasName, source, id, hshows⟩ |
    ⟨hbindings, halias, hframes⟩
  · exact hp.of_shows hfits hnew hplace htakes hshows
  · refine ⟨hp.seen_perform htakes, fun {i key target} htarget => ?_, fun {m key} hm hbound => ?_⟩
    · rw [halias] at htarget
      obtain ⟨hkey, hbinding, f, hf, hencloses⟩ := hp.sound htarget
      have hne : step.subject? ≠ some target.node := by
        intro hsubject
        exact hnew _ hsubject (hp.seen (by simp [hbinding]))
      exact ⟨hkey, (htakes.find?_of_ne hne).trans hbinding, f,
        ScopeTree.frame_persists hframes hf, hencloses⟩
    · have hbound' : (p.bindings.find? m).isSome := by
        by_cases hsubject : step.subject? = some m
        · rcases hbindings with hnone | heq
          · rw [hfits.aliasKey? hsubject, hnone] at hm
            cases hm
          · exact heq ▸ hbound
        · rwa [htakes.find?_of_ne hsubject] at hbound
      obtain ⟨i, f, target, hf, hencloses, htarget, horder⟩ := hp.kept hm hbound'
      refine ⟨i, f, target, ScopeTree.frame_persists hframes hf, hencloses, ?_, ?_⟩
      · rw [halias, htarget]
      · exact horder.imp_right fun hsub => hsub.trans (List.sublist_append_left _ _)

section

variable {id : ScopeId} {scope : Scope} {key : String}
  (hp : p.Aliased tree visited) (hscope : p.scopes.get? id = some scope)

include hp hscope

/-- What a scope has under an alias is a table in it that was found. -/
theorem Aliased.of_scope {target : AliasTarget} (h : scope.aliases.find? key = some target) :
    tree.aliasKey? target.node = some key ∧
      p.bindings.find? target.node = some (.table target.source) ∧
      tree.Encloses scope.owner target.node := by
  have hin : p.scopes.aliasIn? id key = some target := by
    rw [ScopeTree.aliasIn?, hscope, Option.bind_some, h]
  obtain ⟨hkey, hbinding, f, hf, hencloses⟩ := hp.sound hin
  rw [ScopeTree.frame_of_get? hscope] at hf
  obtain rfl := Option.some.inj hf
  exact ⟨hkey, hbinding, hencloses⟩

/-- The key of a table that was found is an alias of the scope around it, as no node owns two
scopes.  It stands for that table or for a later one. -/
theorem Aliased.exists_target (hshape : tree.TreeShaped)
    (howners : (p.scopes.frames.map Frame.owner).Nodup) {n : NodeId}
    (hn : tree.Encloses scope.owner n) (hkey : tree.aliasKey? n = some key)
    (hbound : (p.bindings.find? n).isSome) :
    ∃ target, scope.aliases.find? key = some target ∧
      (n = target.node ∨ [n, target.node].Sublist visited) := by
  obtain ⟨i, f, target, hf, hencloses, htarget, horder⟩ := hp.kept hkey hbound
  have howner : f.owner = scope.owner := hshape.encloses_unique hencloses hn
  have hi : i = id := by
    have hlt : i < (p.scopes.frames.map Frame.owner).length := by
      rw [List.length_map]
      exact (List.getElem?_eq_some_iff.1 hf).1
    refine (List.getElem?_inj hlt howners).1 ?_
    rw [List.getElem?_map, List.getElem?_map, hf, ScopeTree.frame_of_get? hscope]
    exact congrArg some howner
  subst hi
  rw [ScopeTree.aliasIn?, hscope, Option.bind_some] at htarget
  exact ⟨target, htarget, horder⟩

end

end Progress

/-- **Every run.**  Steps about different nodes, each in the scope around its node, keep the
aliases right. -/
theorem Walk.run_aliased {tree : Tree} {s : Surroundings} {p q : Progress} {l : List Step}
    {visited : List NodeId} (hrun : run s l p = .finished q) (hp : p.Aliased tree visited)
    (hkeeps : Keeps s (Step.InPlace tree) l p) (hfits : ∀ step ∈ l, step.Fits tree)
    (hnodup : (visited ++ subjects l).Nodup) : q.Aliased tree (visited ++ subjects l) := by
  induction l generalizing p visited with
  | nil =>
      cases hrun
      simpa [subjects] using hp
  | cons step rest ih =>
      obtain ⟨m, hstep, hrest⟩ := run_cons_eq_finished hrun
      rw [List.forall_mem_cons] at hfits
      have hsplit : visited ++ subjects (step :: rest) =
          (visited ++ step.subject?.toList) ++ subjects rest := by
        cases hsubject : step.subject? <;> simp [subjects, hsubject]
      rw [hsplit] at hnodup ⊢
      have hnew : ∀ n, step.subject? = some n → n ∉ visited := by
        intro n hn hmem
        have hfirst := (List.nodup_append.1 hnodup).1
        exact (List.nodup_append.1 hfirst).2.2 n hmem n (by simp [hn]) rfl
      exact ih hrest (hp.perform hfits.1 hnew hkeeps.1 hstep) (hkeeps.2 m hstep) hfits.2 hnodup

end UnionScript
