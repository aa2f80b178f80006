import Mathlib.Data.List.Basic
import UnionScript.Proofs.BoundScript.Meaning
import UnionScript.Proofs.Walk.Precedence

/-!
# Common tables are defined before they are referred to

A common table is defined when the walk comes to it, before its query is visited, so
a reference may be bound to the table that it stands in.  It is never bound to a
table that the walk has not come to yet.

* `Walk.Spells.not_mem_subjects_of_outside` — a walk that has come to a common table
  stays inside until the table is finished;
* `Defines.takes` — what is known about common tables after one step;
* `Walk.exists_defines` — and so after a run;
* `Defines.idxOf_lt` — a reference inside of a common table is bound to a table that
  is defined earlier, unless this table stands inside, too;
* `exists_rank_of_bindScript` — so the places of their definitions rank common tables.
-/

namespace UnionScript

/-- **Outside means before.**  When the walk comes to a node outside of a common table
while a node inside is still to come, it has not come to the table yet. -/
theorem Walk.Spells.not_mem_subjects_of_outside {tree : Tree} {root n c d query : NodeId}
    {name : String} {x : Node} {first rest : List Step} {step : Step}
    (h : Spells tree root (.visit root) (first ++ step :: rest)) (hlegal : Legal first)
    (hnodup : (subjects (first ++ step :: rest)).Nodup)
    (hc : tree.get? c = some (.commonTable name query)) (hd : step.subject? = some d)
    (houtside : ¬ tree.Reaches c d) (hinside : tree.Reaches c n) (hn : tree.get? n = some x)
    (hstep : x.kind.hasStep) (hlater : n ∈ subjects (step :: rest)) : c ∉ subjects first := by
  intro hmem
  obtain ⟨define, hdefine, hsubject⟩ := mem_subjects.1 hmem
  have hfits : define.Fits tree := h.fits trivial define (List.mem_append_left _ hdefine)
  obtain rfl := hfits.eq_defineTable hsubject hc
  rcases h.finished_or_reaches_table rfl hlegal hdefine hd with hfinished | hreach
  · have hbefore : n ∈ subjects first := hfinished n x hinside hn hstep
    exact not_mem_subjects_of_nodup hnodup hbefore hlater
  · exact houtside hreach

/-- What is known after the steps of a walk: nodes were bound to common tables when
these were defined or later, and all common tables of all scopes are defined. -/
structure Defines (done : List Step) (p : Progress) : Prop where
  legal : Walk.Legal done
  bound : ∀ n c, p.bindings.find? n = some (.table (.commonTable c)) →
    ∃ first step rest name, done = first ++ step :: rest ∧ step.subject? = some n ∧
      .defineTable c name ∈ first ++ [step]
  tables : ∀ id scope key c, p.scopes.get? id = some scope →
    scope.tables.find? key = some (.commonTable c) → ∃ name, .defineTable c name ∈ done

namespace Defines

variable {s : Surroundings} {tree : Tree} {p q : Progress} {done rest : List Step} {step : Step}
  {n c d root : NodeId}

/-- Before the first step nothing is known. -/
theorem start : Defines [] {} where
  legal _ hmem := by cases hmem
  bound _ _ hn := by cases hn
  tables _ _ _ _ hscope := by simp [ScopeTree.empty, ScopeTree.get?] at hscope

/-- A common table that a step finds was defined before it or is defined by it. -/
theorem defined_of_finds (h : Defines done p)
    (hb : step.Finds s p (.table (.commonTable c))) :
    ∃ name, .defineTable c name ∈ done ++ [step] := by
  generalize hsource : TableSource.commonTable c = source at hb
  cases hb with
  | commonTable n name =>
      cases hsource
      exact ⟨name, by simp⟩
  | derived n query aliasName => cases hsource
  | table n aliasName hresolve =>
      subst hsource
      rcases ScopeTree.resolveTable_cases hresolve with ⟨id, scope, key, hscope, hfind⟩ | hnone
      · obtain ⟨name, hmem⟩ := h.tables id scope key c hscope hfind
        exact ⟨name, List.mem_append_left _ hmem⟩
      · cases hnone
  | stored n rows target => exact (storedTable_ne_commonTable target rows c hsource.symm).elim
  | column n hmember hcolumn =>
      obtain ⟨_, _, _, -, -, hcolumn⟩ := exists_alias_of_resolveColumn hcolumn
      exact (Tree.columnOf?_ne_table hcolumn).elim
  | assigned n htable hcolumn => exact (Tree.columnOf?_ne_table hcolumn).elim

/-- **Steps keep definitions first.** -/
theorem takes (h : Defines done p) (htakes : step.Takes s p q) : Defines (done ++ [step]) q where
  legal := h.legal.concat htakes
  bound n c hn := by
    rcases htakes.find?_cases hn with hold | ⟨hsubject, hb⟩
    · obtain ⟨first, step', rest, name, rfl, hsubject, hmem⟩ := h.bound n c hold
      exact ⟨first, step', rest ++ [step], name, by simp, hsubject, hmem⟩
    · obtain ⟨name, hmem⟩ := h.defined_of_finds hb
      exact ⟨done, step, [], name, rfl, hsubject, hmem⟩
  tables id scope key c hscope hfind := by
    rcases htakes.table_cases hscope hfind with
      ⟨old, hold, hfind⟩ | ⟨n, b, name, -, -, hb, -, hr⟩
    · obtain ⟨name, hmem⟩ := h.tables id old key c hold hfind
      exact ⟨name, List.mem_append_left _ hmem⟩
    · have htable : b = .table (.commonTable c) := by cases hr <;> rfl
      exact h.defined_of_finds (htable ▸ hb)

/-- A reference was bound to a common table by a step that comes after the definition
of the table. -/
theorem exists_split (h : Defines done p)
    (hfits : ∀ step ∈ done, step.Fits tree) {identifier : String} {aliasName : Option String}
    (hn : tree.get? n = some (.tableReference identifier aliasName))
    (hd : p.bindings.find? n = some (.table (.commonTable d))) :
    ∃ first name middle step rest, done = first ++ .defineTable d name :: middle ++ step :: rest ∧
      step.subject? = some n := by
  obtain ⟨before, step, rest, name, rfl, hsubject, hmem⟩ := h.bound n d hd
  rcases List.mem_append.1 hmem with hmem | hmem
  · obtain ⟨first, middle, rfl⟩ := List.append_of_mem hmem
    exact ⟨first, name, middle, step, rest, rfl, hsubject⟩
  · obtain rfl := List.mem_singleton.1 hmem
    have hkind := (hfits (.defineTable d name) (by simp)).subjectKind? hsubject hn
    cases hkind

/-- **Definitions come first.**  A reference inside of a common table is bound to a
table that is defined before that one, unless it is that one or stands inside of it. -/
theorem idxOf_lt (h : Defines done p)
    (hspells : Walk.Spells tree root (.visit root) (done ++ rest))
    (hnodup : (Walk.subjects (done ++ rest)).Nodup) {identifier : String}
    {aliasName : Option String} (hn : tree.get? n = some (.tableReference identifier aliasName))
    (hd : p.bindings.find? n = some (.table (.commonTable d))) {name : String} {query : NodeId}
    (hc : tree.get? c = some (.commonTable name query)) (hinside : tree.Reaches c n)
    (houtside : ¬ tree.Reaches c d) :
    (Walk.subjects (done ++ rest)).idxOf d < (Walk.subjects (done ++ rest)).idxOf c := by
  have hfits := hspells.fits trivial
  obtain ⟨first, name', middle, step, rest', rfl, hsubject⟩ :=
    h.exists_split (fun step hstep => hfits step (List.mem_append_left _ hstep)) hn hd
  have hsplit : first ++ .defineTable d name' :: middle ++ step :: rest' ++ rest =
      first ++ .defineTable d name' :: (middle ++ step :: rest' ++ rest) := by simp
  rw [hsplit] at hspells hnodup hfits ⊢
  have hlegal : Walk.Legal first := fun fault hfault => h.legal fault (by simp [hfault])
  have hlater : n ∈ Walk.subjects (.defineTable d name' :: (middle ++ step :: rest' ++ rest)) :=
    Walk.mem_subjects.2 ⟨step, by simp, hsubject⟩
  have hfresh : c ∉ Walk.subjects first :=
    hspells.not_mem_subjects_of_outside hlegal hnodup hc rfl houtside hinside hn rfl hlater
  have hnew : d ∉ Walk.subjects first := fun hmem =>
    Walk.not_mem_subjects_of_nodup hnodup hmem (Walk.mem_subjects.2 ⟨_, List.mem_cons_self, rfl⟩)
  have hne : d ≠ c := by
    rintro rfl
    exact houtside Relation.ReflTransGen.refl
  have hsubjects : Walk.subjects (first ++ .defineTable d name' ::
      (middle ++ step :: rest' ++ rest)) =
      Walk.subjects first ++ d :: Walk.subjects (middle ++ step :: rest' ++ rest) := by
    simp [Walk.subjects, Step.subject?]
  rw [hsubjects, List.idxOf_append_of_notMem hnew, List.idxOf_append_of_notMem hfresh,
    List.idxOf_cons_self, List.idxOf_cons_ne _ hne]
  omega

end Defines

/-- **Runs keep definitions first.** -/
theorem Walk.exists_defines {s : Surroundings} {l : List Step} {q : Progress}
    (h : (run s l {}).progress? = some q) :
    ∃ first rest, l = first ++ rest ∧ Defines first q :=
  run_invariant_done Defines [] (fun _ _ _ _ _ _ hp hperform _ =>
    hp.takes (Step.takes_of_perform hperform)) .start h

/-- **The order of common tables.**  The common tables of a bound script are ranked so
that a reference inside of one leads to one of lower rank, unless this one stands
inside, too. -/
theorem exists_rank_of_bindScript {config : Config} {tree : Tree} {provider : Provider}
    {root : NodeId} {bound : BoundScript} (hforest : tree.IsForest)
    (hbind : bindScript config tree provider root = .ok bound) :
    ∃ rank : NodeId → Nat, ∀ n identifier aliasName d,
      tree.get? n = some (.tableReference identifier aliasName) →
      bound.bindings.find? n = some (.table (.commonTable d)) →
      tree.Reaches root d ∧ (∃ name query, tree.get? d = some (.commonTable name query)) ∧
        ∀ c name query, tree.get? c = some (.commonTable name query) → tree.Reaches c n →
          ¬ tree.Reaches c d → rank d < rank c := by
  obtain ⟨q, hrun, hbindings⟩ := exists_progress_of_bindScript hbind
  have hspells : Walk.Spells tree root _ _ := Walk.walk_spells config.maxDepth root
  have hnodup := hspells.nodup hforest.shape fun n _ => hforest.grounded n
  obtain ⟨done, rest, hwalk, hdefines⟩ := Walk.exists_defines hrun
  rw [hwalk] at hspells hnodup
  refine ⟨fun c => (Walk.subjects (done ++ rest)).idxOf c, fun n identifier aliasName d hn hd => ?_⟩
  rw [hbindings] at hd
  have hfits := hspells.fits trivial
  obtain ⟨first, name, middle, step, rest', heq, -⟩ :=
    hdefines.exists_split (fun step hstep => hfits step (List.mem_append_left _ hstep)) hn hd
  have hmem : .defineTable d name ∈ done ++ rest := by simp [heq]
  obtain ⟨query, hx⟩ := hfits _ hmem
  exact ⟨hspells.reaches_of_visit hmem rfl, ⟨name, query, hx⟩, fun c name query hc hinside =>
    hdefines.idxOf_lt hspells hnodup hn hd hc hinside⟩

end UnionScript
