import UnionScript.Proofs.Walk.Effect

/-!
# Where a walk stops when the schema fails

A walk stops at the first step at which the schema fails, with all steps before
it taken (`Walk.run_eq_schemaFailed_iff`).  What is known there is not taken back
by a walk that goes on: scopes and diagnostics are only added (`Progress.Grows`).

Another schema that answers whatever the first one answers leads through the same
steps to the same place and on from there (`Walk.run_of_extends`).
-/

namespace UnionScript

/-- A provider answers whatever another one answers, and in the same way. -/
structure Provider.Extends (larger smaller : Provider) : Prop where
  object : ∀ name found, smaller.object name = .ok found → larger.object name = .ok found
  member : ∀ name found, smaller.member name = .ok found → larger.member name = .ok found

/-- Scopes and diagnostics were only added. -/
structure Progress.Grows (p q : Progress) : Prop where
  frames : p.scopes.frames <+: q.scopes.frames
  diagnostics : p.diagnostics.toList <+: q.diagnostics.toList

theorem Progress.Grows.refl (p : Progress) : p.Grows p :=
  ⟨List.prefix_rfl, List.prefix_rfl⟩

theorem Progress.Grows.trans {p q r : Progress} (h : p.Grows q) (h' : q.Grows r) : p.Grows r :=
  ⟨h.frames.trans h'.frames, h.diagnostics.trans h'.diagnostics⟩

namespace Step

variable {s : Surroundings} {p q : Progress} {step : Step}

/-- A step takes back no scope and no diagnostic. -/
theorem Takes.grows (h : step.Takes s p q) : p.Grows q := by
  cases h with
  | binds hn hb hscopes =>
      obtain ⟨hframes, -⟩ := hscopes.same_frames
      exact ⟨hframes ▸ List.prefix_rfl, List.prefix_rfl⟩
  | reports hd => exact ⟨List.prefix_rfl, by simp⟩
  | enters hstep hscopes =>
      have hframes := (ScopeTree.frames_of_enter hscopes).1
      exact ⟨hframes ▸ List.prefix_append _ _, List.prefix_rfl⟩
  | leaves hstep hscopes =>
      obtain ⟨id, -, rfl⟩ := ScopeTree.leave_eq_ok_iff.1 hscopes
      exact ⟨List.prefix_rfl, List.prefix_rfl⟩
  | passes targets hstep => exact ⟨List.prefix_rfl, List.prefix_rfl⟩

/-- Names that are not found are all that steps report. -/
theorem Takes.schema_not_mem (h : step.Takes s p q) {detail : String}
    (hp : Diagnostic.schema detail ∉ p.diagnostics) :
    Diagnostic.schema detail ∉ q.diagnostics := by
  cases h with
  | reports hd =>
      intro hmem
      rcases Array.mem_push.1 hmem with hmem | rfl
      · exact hp hmem
      · cases step <;> cases hd
  | binds | enters | leaves | passes => exact hp

section

variable {larger smaller : Provider} (h : larger.Extends smaller)

include h

/-- An object that one schema knows, the other knows as well. -/
theorem map_object_of_extends {α : Type} {f : Option Definition → α} {name : String} {found : α}
    (hfound : (smaller.object name).map f = .ok found) :
    (larger.object name).map f = .ok found := by
  cases hobject : smaller.object name with
  | error e =>
      rw [hobject] at hfound
      cases hfound
  | ok object =>
      rw [h.object name object hobject]
      rwa [hobject] at hfound

/-- A table that was found without help of the schema is found again, and so is an answer of
the schema. -/
theorem resolveTable_of_extends {t : ScopeTree} {name : String} {found : Option TableSource}
    (hfound : t.resolveTable smaller name = .ok found) :
    t.resolveTable larger name = .ok found := by
  unfold ScopeTree.resolveTable at hfound ⊢
  cases htable : t.table? name with
  | some source => simpa [htable] using hfound
  | none =>
      simp only [htable] at hfound ⊢
      split at hfound
      · exact hfound
      · exact map_object_of_extends h hfound

/-- The name of a kind needs no schema, and any other name has the same answer. -/
theorem declaredVariable_of_extends {tree : Tree} {strict : Bool} {bindings : Bindings}
    {typeName : String} {initializer : Option NodeId} {found : Option VariableType}
    (hfound : declaredVariable ⟨tree, smaller, strict⟩ bindings typeName initializer = .ok found) :
    declaredVariable ⟨tree, larger, strict⟩ bindings typeName initializer = .ok found := by
  unfold declaredVariable at hfound ⊢
  split at hfound
  · exact hfound
  · exact hfound
  · exact map_object_of_extends h hfound

/-- Members that were found are found again. -/
theorem enumMember_of_extends {tree : Tree} {strict : Bool} {identifier : String}
    {found : Option EnumMember}
    (hfound : enumMember ⟨tree, smaller, strict⟩ identifier = .ok found) :
    enumMember ⟨tree, larger, strict⟩ identifier = .ok found := by
  unfold enumMember at hfound ⊢
  split at hfound
  · rename_i hdots
    rw [if_pos hdots]
    exact h.member identifier found hfound
  · rename_i hdots
    rwa [if_neg hdots]

/-- A step that one schema lets be taken leads to the same with a schema that
answers no less. -/
theorem perform_of_extends {tree : Tree} {strict : Bool}
    (hstep : step.perform ⟨tree, smaller, strict⟩ p = .finished q) :
    step.perform ⟨tree, larger, strict⟩ p = .finished q := by
  cases step with
  | useTable n identifier aliasName =>
      obtain ⟨found, hfound, hnext⟩ := ask_eq_finished hstep
      simp only [perform, resolveTable_of_extends h hfound]
      exact hnext
  | useColumn n identifier =>
      obtain ⟨found, hfound, hnext⟩ := ask_eq_finished hstep
      simp only [perform, enumMember_of_extends h hfound]
      exact hnext
  | declare n typeName name initializer =>
      obtain ⟨found, hfound, hnext⟩ := ask_eq_finished hstep
      simp only [perform, declaredVariable_of_extends h hfound]
      exact hnext
  | enter | leave | defineTable | deriveTable | useProjection | useVariable | callFunction
  | storeInto | beginSet | setColumn | endSet | reject => exact hstep

end

end Step

namespace Walk

variable {s : Surroundings} {p q : Progress} {l : List Step}

/-- Runs take back no scope and no diagnostic. -/
theorem run_grows (h : run s l p = .finished q) : p.Grows q := by
  refine run_invariant (fun m => p.Grows m) (fun step _ m m' hm htakes => ?_) (.refl p)
    (congrArg Outcome.progress? h)
  exact hm.trans htakes.grows

/-- Runs do not report a failure of the schema by themselves. -/
theorem run_schema_not_mem (h : (run s l {}).progress? = some q) (detail : String) :
    Diagnostic.schema detail ∉ q.diagnostics := by
  refine run_invariant (fun m => Diagnostic.schema detail ∉ m.diagnostics)
    (fun step _ m m' hm htakes => htakes.schema_not_mem hm) ?_ h
  exact Array.not_mem_empty _

/-- **Where a walk stops.**  A run ends in a failure of the schema exactly if it
gets to a step at which the schema fails. -/
theorem run_eq_schemaFailed_iff {detail : String} :
    run s l p = .schemaFailed q detail ↔
      ∃ before step behind e, l = before ++ step :: behind ∧ run s before p = .finished q ∧
        step.FailsWith s q e ∧ detail = e.asSchemaDetail := by
  constructor
  · intro h
    induction l generalizing p with
    | nil => cases h
    | cons step rest ih =>
        cases hstep : step.perform s p with
        | finished m =>
            rw [run, hstep] at h
            obtain ⟨before, failing, behind, e, rfl, hbefore, hfails, hdetail⟩ := ih h
            refine ⟨step :: before, failing, behind, e, rfl, ?_, hfails, hdetail⟩
            simp only [run, hstep, Outcome.andThen, hbefore]
        | schemaFailed m detail' =>
            rw [run, hstep] at h
            cases h
            obtain ⟨rfl, e, hfails, hdetail⟩ := Step.perform_eq_schemaFailed_iff.1 hstep
            exact ⟨[], step, rest, e, rfl, rfl, hfails, hdetail⟩
        | malformed fault =>
            rw [run, hstep] at h
            cases h
  · rintro ⟨before, step, behind, e, rfl, hbefore, hfails, rfl⟩
    have hstep : step.perform s q = .schemaFailed q e.asSchemaDetail :=
      Step.perform_eq_schemaFailed_iff.2 ⟨rfl, e, hfails, rfl⟩
    simp only [run_append, hbefore, Outcome.andThen, run, hstep]

/-- Steps that one schema lets be taken lead to the same with a schema that
answers no less. -/
theorem run_of_extends {larger smaller : Provider} (h : larger.Extends smaller) {tree : Tree}
    {strict : Bool} (hrun : run ⟨tree, smaller, strict⟩ l p = .finished q) :
    run ⟨tree, larger, strict⟩ l p = .finished q := by
  induction l generalizing p with
  | nil => exact hrun
  | cons step rest ih =>
      obtain ⟨m, hstep, hrest⟩ := run_cons_eq_finished hrun
      simp only [run, Step.perform_of_extends h hstep, Outcome.andThen]
      exact ih hrest

end Walk

end UnionScript
