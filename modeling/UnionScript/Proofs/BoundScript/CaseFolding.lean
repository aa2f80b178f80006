import UnionScript.Proofs.BoundScript.References
import UnionScript.Proofs.Walk.Failure
import UnionScript.Proofs.Walk.Respelling

/-!
# Binding does not depend on case

Respelled trees are bound alike against one catalog: their walks are in lockstep, so
they are malformed in the same way, or have the same scopes, bindings and types, and
the same nodes are reported in the same order.

A node may be used in several places and be reported at one of them only, so the nodes
that are reported are those of the steps that report (`Walk.reporters`).
-/

namespace UnionScript

/-- A step reports the name that it looks for, or nothing. -/
theorem Step.Takes.diagnostics_cases {s : Surroundings} {p q : Progress} {step : Step}
    (h : step.Takes s p q) :
    q.diagnostics = p.diagnostics ∨
      ∃ d, step.miss? = some d ∧ q.diagnostics = p.diagnostics.push d := by
  cases h with
  | reports hd => exact Or.inr ⟨_, hd, rfl⟩
  | binds | enters | leaves | passes => exact Or.inl rfl

namespace Walk

/-- The nodes of the steps that report, in turn. -/
def reporters (s : Surroundings) : List Step → Progress → List NodeId
  | [], _ => []
  | step :: rest, p =>
    match step.perform s p with
    | .finished q =>
      (if p.diagnostics.size < q.diagnostics.size then step.subject?.toList else []) ++
        reporters s rest q
    | .schemaFailed _ _ | .malformed _ => []

variable {s s' : Surroundings} {p q : Progress} {l l' : List Step}

/-- **Who reports.**  The diagnostics of a run are about the nodes of the steps that
report, in turn. -/
theorem reports_of_run (hfits : ∀ step ∈ l, step.Fits s.tree) (h : run s l p = .finished q) :
    ∃ new, q.diagnostics.toList = p.diagnostics.toList ++ new ∧
      List.Forall₂ s.tree.Reports (reporters s l p) new := by
  induction l generalizing p with
  | nil =>
      cases h
      exact ⟨[], (List.append_nil _).symm, .nil⟩
  | cons step rest ih =>
      obtain ⟨m, hstep, hrest⟩ := run_cons_eq_finished h
      obtain ⟨new, hnew, hreports⟩ :=
        ih (fun step' hmem => hfits step' (List.mem_cons_of_mem step hmem)) hrest
      simp only [reporters, hstep]
      rcases (Step.takes_of_perform hstep).diagnostics_cases with hsame | ⟨d, hd, hpush⟩
      · rw [hsame] at hnew
        rw [hsame, if_neg (Nat.lt_irrefl _), List.nil_append]
        exact ⟨new, hnew, hreports⟩
      · obtain ⟨n, hn⟩ := Step.exists_subject_of_miss hd
        rw [hpush] at hnew
        rw [hpush, if_pos (by simp), hn]
        refine ⟨d :: new, by simpa using hnew, ?_⟩
        exact .cons ((hfits step List.mem_cons_self).reports hn hd) hreports

/-- In lockstep the same nodes are reported. -/
theorem reporters_eq_of_respelled
    (hstep : ∀ (step step' : Step) (p q : Progress), step.Respelled step' → p.Respelled q →
      (step.perform s p).Alike Progress.Respelled (step'.perform s' q))
    (hl : List.Forall₂ Step.Respelled l l') (hpq : p.Respelled q) :
    reporters s l p = reporters s' l' q := by
  have hsize : ∀ {p q : Progress}, p.Respelled q → p.diagnostics.size = q.diagnostics.size := by
    intro p q hpq
    simpa using hpq.diagnostics.length_eq
  induction hl generalizing p q with
  | nil => rfl
  | @cons step step' rest rest' hsame _ ih =>
      have hperform := hstep step step' p q hsame hpq
      unfold reporters
      generalize step.perform s p = outcome at hperform ⊢
      generalize step'.perform s' q = outcome' at hperform ⊢
      cases hperform with
      | finished h => simp only [hsize hpq, hsize h, hsame.subject?, ih h]
      | schemaFailed | malformed => rfl

/-- Catalogs do not fail. -/
theorem run_catalog_ne_schemaFailed {tree : Tree} {catalog : Catalog} {strict : Bool}
    {detail : String} : run ⟨tree, catalog.toProvider, strict⟩ l p ≠ .schemaFailed q detail := by
  intro h
  obtain ⟨before, step, behind, e, -, -, hfails, -⟩ := run_eq_schemaFailed_iff.1 h
  cases hfails with
  | table n aliasName htable hvariable herror => cases herror
  | member n hdots herror => cases herror
  | type n name initializer hkind herror => cases herror

end Walk

/-- The nodes that are reported when a tree is bound, in turn. -/
def reportedNodes (config : Config) (tree : Tree) (provider : Provider) (root : NodeId) :
    List NodeId :=
  Walk.reporters ⟨tree, provider, config.strict⟩ (tree.walk config.maxDepth root) {}

/-- The diagnostics of a catalog are about the nodes that are reported. -/
theorem reports_of_bindScript {config : Config} {tree : Tree} {catalog : Catalog} {root : NodeId}
    {bound : BoundScript} (h : bindScript config tree catalog.toProvider root = .ok bound) :
    List.Forall₂ tree.Reports (reportedNodes config tree catalog.toProvider root)
      bound.diagnostics := by
  rcases bindScript_eq_ok_cases h with ⟨q, hrun, rfl⟩ | ⟨q, detail, hrun, -⟩
  · obtain ⟨new, hnew, hreports⟩ :=
      Walk.reports_of_run ((Walk.walk_spells config.maxDepth root).fits trivial) hrun
    have hdiagnostics : (BoundScript.ofProgress q).diagnostics = new := by
      simpa [BoundScript.ofProgress] using hnew
    rw [hdiagnostics]
    exact hreports
  · exact (Walk.run_catalog_ne_schemaFailed hrun).elim

/-- **Binding does not depend on case.**  Against one catalog, trees that differ in the
case of names only are malformed in the same way, or are bound with the same scopes.
Then the same nodes are bound to the same things, up to the names recorded with tables;
the same nodes are reported, in the same order and under the same kinds; and every node
has the same type. -/
theorem binding_ignores_case (catalog : Catalog) (config : Config) {tree tree' : Tree}
    (htrees : tree.Respelled tree') (root : NodeId) :
    (∃ fault, bindScript config tree catalog.toProvider root = .error fault ∧
      bindScript config tree' catalog.toProvider root = .error fault) ∨
    ∃ bound bound', bindScript config tree catalog.toProvider root = .ok bound ∧
      bindScript config tree' catalog.toProvider root = .ok bound' ∧
      bound.scopes.frames = bound'.scopes.frames ∧ bound.scopes.Alike respelling bound'.scopes ∧
      (∀ n, Option.Rel Binding.Respelled (bound.bindings.find? n) (bound'.bindings.find? n)) ∧
      reportedNodes config tree catalog.toProvider root =
        reportedNodes config tree' catalog.toProvider root ∧
      List.Forall₂ tree.Reports (reportedNodes config tree catalog.toProvider root)
        bound.diagnostics ∧
      List.Forall₂ tree'.Reports (reportedNodes config tree' catalog.toProvider root)
        bound'.diagnostics ∧
      List.Forall₂ Diagnostic.Respelled bound.diagnostics bound'.diagnostics ∧
      ∀ n, (Typing.infer? tree bound.bindings n).map Inferred.type =
        (Typing.infer? tree' bound'.bindings n).map Inferred.type := by
  have hstep : ∀ (step step' : Step) (p q : Progress), step.Respelled step' → p.Respelled q →
      (step.perform ⟨tree, catalog.toProvider, config.strict⟩ p).Alike Progress.Respelled
        (step'.perform ⟨tree', catalog.toProvider, config.strict⟩ q) :=
    fun _ _ _ _ => Step.perform_respelled catalog config.strict htrees
  have hwalk := Walk.walk_respelled htrees config.maxDepth root
  have hrun := Walk.run_alike hstep hwalk Progress.Respelled.start
  have hnodes : reportedNodes config tree catalog.toProvider root =
      reportedNodes config tree' catalog.toProvider root :=
    Walk.reporters_eq_of_respelled hstep hwalk Progress.Respelled.start
  rcases bindScript_alike config config hrun with
    herror | ⟨p, q, h, hbind, hbind'⟩ | ⟨p, q, detail, -, hfailed, -⟩
  · exact Or.inl herror
  · exact Or.inr ⟨.ofProgress p, .ofProgress q, hbind, hbind', h.scopes.frames, h.scopes,
      h.bindings.find?, hnodes, reports_of_bindScript hbind, reports_of_bindScript hbind',
      h.diagnostics, Typing.infer?_type_of_respelled htrees h.bindings⟩
  · exact (Walk.run_catalog_ne_schemaFailed hfailed).elim

/-- A catalog of one object. -/
def ordersCatalog : Catalog :=
  ⟨.ofList [("orders", ⟨7, "Orders", "t_orders",
    [.ofType "Total" "c_total" (.ofKind .numeric)]⟩)], .empty⟩

/-- A script that declares a variable and stores it beside the totals of all orders and
an unknown column, ordered by the total. -/
def storedOrders : Tree :=
  ⟨#[.typeIdentifier "Number", .scalarLiteral .number "1", .declare "@Höhe" 0 (some 1),
    .tableReference "Orders" (some "Ö"), .columnReference "Ö.Total",
    .columnExpression 4 (some "Sum"), .variableReference "@höhe", .columnExpression 6 none,
    .columnReference "sum", .orderItem 8 false, .columnReference "inserted.Nothing",
    .columnExpression 10 none, .into "#Sums",
    .selectExpression
      { columns := [5, 7, 11], source := some 3, ordering := [9], into := some 12 },
    .select none 13, .script [2, 14]]⟩

/-- The same script with all names in other cases. -/
def shoutedOrders : Tree :=
  ⟨#[.typeIdentifier "NUMBER", .scalarLiteral .number "1", .declare "@hÖHE" 0 (some 1),
    .tableReference "ORDERS" (some "ö"), .columnReference "ö.TOTAL",
    .columnExpression 4 (some "SUM"), .variableReference "@HÖHE", .columnExpression 6 none,
    .columnReference "Sum", .orderItem 8 false, .columnReference "INSERTED.nothing",
    .columnExpression 10 none, .into "#SUMS",
    .selectExpression
      { columns := [5, 7, 11], source := some 3, ordering := [9], into := some 12 },
    .select none 13, .script [2, 14]]⟩

/-- Both scripts are bound, and in both the unknown column is all that is reported. -/
theorem storedOrders_ignore_case :
    storedOrders.Respelled shoutedOrders ∧
      ∃ bound bound', bindScript {} storedOrders ordersCatalog.toProvider 15 = .ok bound ∧
        bindScript {} shoutedOrders ordersCatalog.toProvider 15 = .ok bound' ∧
        bound.diagnostics = [.unresolved .column "inserted.Nothing"] ∧
        reportedNodes {} storedOrders ordersCatalog.toProvider 15 = [10] ∧
        reportedNodes {} shoutedOrders ordersCatalog.toProvider 15 = [10] ∧
        List.Forall₂ Diagnostic.Respelled bound.diagnostics bound'.diagnostics ∧
        bound.scopes.frames = bound'.scopes.frames ∧ bound.scopes.frames.length = 3 ∧
        (bound.bindings.find? 12).isSome ∧
        (∀ n, Option.Rel Binding.Respelled (bound.bindings.find? n) (bound'.bindings.find? n)) ∧
        ∀ n, (Typing.infer? storedOrders bound.bindings n).map Inferred.type =
          (Typing.infer? shoutedOrders bound'.bindings n).map Inferred.type := by
  have hrespelled : storedOrders.Respelled shoutedOrders := by
    refine Tree.respelled_of_nodes ?_
    refine .cons (.typeIdentifier (by decide +kernel)) (.cons (.same _)
      (.cons (.declare (by decide +kernel) _ _)
      (.cons (.tableReference (by decide +kernel) (.some (by decide +kernel)))
      (.cons (.columnReference (by decide +kernel))
      (.cons (.columnExpression _ (.some (by decide +kernel)))
      (.cons (.variableReference (by decide +kernel)) (.cons (.same _)
      (.cons (.columnReference (by decide +kernel)) (.cons (.same _)
      (.cons (.columnReference (by decide +kernel)) (.cons (.same _)
      (.cons (.into (by decide +kernel))
      (.cons (.same _) (.cons (.same _) (.cons (.same _) .nil)))))))))))))))
  obtain ⟨bound, hbound, hdiagnostics, hframes, hstored⟩ :
      ∃ bound, bindScript {} storedOrders ordersCatalog.toProvider 15 = .ok bound ∧
        bound.diagnostics = [.unresolved .column "inserted.Nothing"] ∧
        bound.scopes.frames.length = 3 ∧ (bound.bindings.find? 12).isSome :=
    ⟨_, rfl, rfl, rfl, rfl⟩
  have hnodes : reportedNodes {} storedOrders ordersCatalog.toProvider 15 = [10] := rfl
  refine ⟨hrespelled, ?_⟩
  rcases binding_ignores_case ordersCatalog {} hrespelled 15 with
    ⟨fault, hfault, -⟩ | ⟨same, bound', hsame, hbound', hscopes, -, hbindings, hreported, -, -,
      hreports, htypes⟩
  · rw [hbound] at hfault
    cases hfault
  · obtain rfl : bound = same := Except.ok.inj (hbound.symm.trans hsame)
    exact ⟨bound, bound', hbound, hbound', hdiagnostics, hnodes, hreported ▸ hnodes, hreports,
      hscopes, hframes, hstored, hbindings, htypes⟩

end UnionScript
