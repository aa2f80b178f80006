import UnionScript.Proofs.BoundScript.References
import UnionScript.Proofs.Walk.Failure

/-!
# What is known when the schema fails

A schema that fails stops the walk, and what was found out up to there is
returned.  It is the beginning of what a schema without that failure leads to:
the same diagnostics and scopes come first, and in a tree-shaped tree no node is
bound a second time, so every binding stays as it is.
-/

namespace UnionScript

namespace Walk

variable {s : Surroundings} {p q : Progress} {before behind : List Step}

/-- Where steps are about different nodes, what the first of them bound is not
bound again. -/
theorem find?_of_nodup (hnodup : (subjects (before ++ behind)).Nodup)
    (hbefore : run s before {} = .finished p) (hbehind : run s behind p = .finished q)
    {n : NodeId} {b : Binding} (hb : p.bindings.find? n = some b) :
    q.bindings.find? n = some b := by
  have hmem : n ∈ subjects before := by
    by_contra hnot
    rw [run_find?_of_not_mem hbefore hnot] at hb
    cases hb
  have hnot : n ∉ subjects behind := by
    intro hmem'
    rw [subjects, List.filterMap_append, List.nodup_append] at hnodup
    exact hnodup.2.2 n hmem n hmem' rfl
  rw [run_find?_of_not_mem hbehind hnot, hb]

end Walk

/-- **A failing schema leaves a beginning.**  Let one schema answer whatever
another one answers.  If the larger one never fails on a tree-shaped tree and the
smaller one does, then the diagnostics before the failure are the first ones of
the whole result, the scopes entered before it are the first scopes, and every
binding made before it is a binding of the whole result. -/
theorem failed_schema_leaves_beginning
    {config : Config} {tree : Tree} {root : NodeId} {larger smaller : Provider}
    {failed whole : BoundScript} {earlier : List Diagnostic} {detail : String}
    (hshape : tree.TreeShaped) (hextends : larger.Extends smaller)
    (hwhole : bindScript config tree larger root = .ok whole)
    (hschema : ∀ detail, Diagnostic.schema detail ∉ whole.diagnostics)
    (hfailed : bindScript config tree smaller root = .ok failed)
    (hlast : failed.diagnostics = earlier ++ [.schema detail]) :
    earlier <+: whole.diagnostics ∧ failed.scopes.frames <+: whole.scopes.frames ∧
      ∀ n b, failed.bindings.find? n = some b → whole.bindings.find? n = some b := by
  obtain ⟨q, hrun, rfl⟩ := exists_run_of_bindScript hwhole hschema
  have hspells : Walk.Spells tree root _ _ := Walk.walk_spells config.maxDepth root
  have hnodup := (hspells.covers (Walk.legal_of_run hrun) rfl).nodup hshape
  rcases bindScript_eq_ok_cases hfailed with ⟨p, hfinished, rfl⟩ | ⟨p, detail', hstopped, rfl⟩
  · -- A walk that took all its steps has reported no failure.
    have hmem : Diagnostic.schema detail ∈ (BoundScript.ofProgress p).diagnostics := by
      simp [hlast]
    have hnot := Walk.run_schema_not_mem (congrArg Outcome.progress? hfinished) detail
    exact (hnot (by simpa [BoundScript.ofProgress] using hmem)).elim
  · obtain ⟨before, step, behind, e, hsplit, hbefore, -, -⟩ :=
      Walk.run_eq_schemaFailed_iff.1 hstopped
    rw [hsplit] at hrun hnodup
    obtain ⟨m, hbefore', hbehind⟩ := Walk.run_append_eq_finished hrun
    have hsame := Walk.run_of_extends hextends hbefore
    obtain rfl : p = m := by
      rw [hsame] at hbefore'
      exact Outcome.finished.inj hbefore'
    have hgrows := Walk.run_grows hbehind
    have hearlier : earlier = p.diagnostics.toList :=
      (List.append_inj_left' hlast rfl).symm
    refine ⟨hearlier ▸ hgrows.diagnostics, hgrows.frames, fun n b hb => ?_⟩
    exact Walk.find?_of_nodup hnodup hsame hbehind hb

/-- A script that stores an unknown variable in `#sums` and reads it again beside
a table `lost`. -/
def lostTable : Tree :=
  ⟨#[.variableReference "@x", .columnExpression 0 (some "total"), .into "#sums",
    .selectExpression { columns := [1], into := some 2 }, .select none 3,
    .tableReference "#sums" none, .tableReference "lost" none, .tableJoin .cross 5 6 none,
    .columnReference "total", .columnExpression 8 none,
    .selectExpression { columns := [9], source := some 7 }, .select none 10, .script [4, 11]]⟩

/-- A schema without objects that cannot be asked for the table `lost`. -/
def withoutLost : Provider where
  object name := if name = "lost" then .error (.structural "gone") else .ok none
  member _ := .ok none

/-- The variable is reported in both results; the table is where one of them ends,
with five scopes entered and two nodes bound. -/
theorem lostTable_leaves_beginning :
    ∃ failed whole, bindScript {} lostTable withoutLost 12 = .ok failed ∧
      bindScript {} lostTable Catalog.empty.toProvider 12 = .ok whole ∧
      failed.diagnostics =
        [.unresolved .variable "@x", .schema "Structural error: gone"] ∧
      whole.diagnostics = [.unresolved .variable "@x", .unresolved .table "lost"] ∧
      failed.scopes.frames.length = 5 ∧
      (failed.bindings.find? 5).isSome ∧
      [.unresolved .variable "@x"] <+: whole.diagnostics ∧
      failed.scopes.frames <+: whole.scopes.frames ∧
      ∀ n b, failed.bindings.find? n = some b → whole.bindings.find? n = some b := by
  obtain ⟨failed, hfailed, hlast, hframes, hbound⟩ :
      ∃ failed, bindScript {} lostTable withoutLost 12 = .ok failed ∧
        failed.diagnostics =
          [.unresolved .variable "@x"] ++ [.schema "Structural error: gone"] ∧
        failed.scopes.frames.length = 5 ∧ (failed.bindings.find? 5).isSome :=
    ⟨_, rfl, rfl, rfl, rfl⟩
  obtain ⟨whole, hwhole, hdiagnostics⟩ :
      ∃ whole, bindScript {} lostTable Catalog.empty.toProvider 12 = .ok whole ∧
        whole.diagnostics = [.unresolved .variable "@x", .unresolved .table "lost"] :=
    ⟨_, rfl, rfl⟩
  have hextends : Catalog.empty.toProvider.Extends withoutLost := by
    refine ⟨fun name found h => ?_, fun name found h => h⟩
    simp only [withoutLost] at h
    split at h
    · cases h
    · exact h
  refine ⟨failed, whole, hfailed, hwhole, hlast, hdiagnostics, hframes, hbound, ?_⟩
  exact failed_schema_leaves_beginning (by decide) hextends hwhole (by simp [hdiagnostics]) hfailed
    hlast

end UnionScript
