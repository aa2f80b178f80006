import UnionScript.Proofs.Scope.Stack
import UnionScript.Proofs.Walk.Items
import UnionScript.Proofs.Walk.Registry

/-!
# Where the steps of an item stand

Between the items of a script only the scope of the script is open (`AtRoot`).

In the scope of a statement that scope and the scope of the script are seen behind
scopes that were entered since, and rows are stored in the scope of the script
(`InStatement`, `AtRoot.inStatement`).

In an initializer only the scope of the script is seen behind scopes that were
entered since.  Rows are stored in the current scope, right before it is left, so
no scope that is seen has a table of its own (`Clean`).
-/

namespace UnionScript

namespace ScopeTree

variable {base t t' : ScopeTree}

/-- The scope of a script is open and no other. -/
structure AtRoot (t : ScopeTree) : Prop where
  nested : Nested t.frames t.current
  current : t.current = some 0
  script : ∃ s, t.get? 0 = some s ∧ s.kind = .script

/-- Scopes from a number on are not those of statements. -/
def Plain (first : ScopeId) (t : ScopeTree) : Prop :=
  ∀ i f, first ≤ i → t.frames[i]? = some f → f.kind.isStatement = false

/-- The scope of a statement and that of the script are seen behind scopes that
were entered since, and rows are stored in the scope of the script. -/
structure InStatement (top : ScopeId) (t : ScopeTree) : Prop where
  nested : Nested t.frames t.current
  top_pos : 0 < top
  top_lt : top < t.size
  chain : ∃ seen, t.chain t.current = seen ++ [top, 0] ∧ ∀ i ∈ seen, top < i
  storage : storageScope? t = some 0

/-- No scope that was entered since is that of a statement, those that are seen
have no tables, and the scopes from before have those that they had. -/
structure Clean (base t : ScopeTree) : Prop where
  nested : Nested t.frames t.current
  inside : Inside base t
  plain : t.Plain base.size
  no_tables : ∀ i ∈ t.chain t.current, base.size ≤ i → ∀ key, t.tableIn? i key = none
  kept : ∀ i < base.size, ∀ key, t.tableIn? i key = base.tableIn? i key

/-- There are no scopes after the last one. -/
theorem plain_size (t : ScopeTree) : t.Plain t.size := by
  intro i f hi hf
  obtain ⟨hlt, -⟩ := List.getElem?_eq_some_iff.1 hf
  rw [length_frames] at hlt
  exact absurd hlt (Nat.not_lt.2 hi)

theorem Plain.kind {first i : ScopeId} (h : t.Plain first) (hi : first ≤ i) {s : Scope}
    (hs : t.get? i = some s) : s.kind.isStatement = false :=
  h i s.frame hi (frame_of_get? hs)

/-- Nothing else than entering a statement adds one. -/
theorem Plain.enter {first : ScopeId} (h : t.Plain first) {owner : NodeId} {kind : NodeKind}
    {correlated : Bool} (hkind : kind.isStatement = false)
    (hentered : t.enter owner kind correlated = .ok t') : t'.Plain first := by
  intro i f hi hf
  rw [(frames_of_enter hentered).1, List.getElem?_append] at hf
  split at hf
  · exact h i f hi hf
  · obtain ⟨hlt, rfl⟩ := List.getElem?_eq_some_iff.1 hf
    rw [List.getElem_singleton]
    exact hkind

/-- Where no scope on the chain satisfies a condition, none is found. -/
theorem nearest?_eq_none {start : Option ScopeId} {p : Scope → Bool}
    (h : ∀ i ∈ t.chain start, (t.get? i).any p = false) : t.nearest? start p = none := by
  rw [nearest?, List.find?_eq_none]
  intro i hi
  simp [h i hi]

/-- The first scope on the chain that satisfies a condition is found. -/
theorem nearest?_of_append {start : Option ScopeId} {p : Scope → Bool} {id : ScopeId}
    {seen rest : List ScopeId} (hchain : t.chain start = seen ++ id :: rest)
    (hseen : ∀ i ∈ seen, (t.get? i).any p = false) (hid : (t.get? id).any p = true) :
    t.nearest? start p = some id := by
  have hnone : seen.find? (fun i => (t.get? i).any p) = none := by
    rw [List.find?_eq_none]
    intro i hi
    simp [hseen i hi]
  rw [nearest?, hchain, List.find?_append, hnone, Option.none_or, List.find?_cons, hid]

section

variable {p : NodeKind → Bool} (hp : ∀ k, p k → k.isStatement)

include hp

/-- A scope that is not that of a statement has no kind that only statements have. -/
theorem any_kind_eq_false {i : ScopeId}
    (h : ∀ s, t.get? i = some s → s.kind.isStatement = false) :
    (t.get? i).any (fun s => p s.kind) = false := by
  cases hs : t.get? i with
  | none => rfl
  | some s =>
      have hkind := h s hs
      rw [Option.any_some, Bool.eq_false_iff]
      intro htrue
      rw [hp s.kind htrue] at hkind
      cases hkind

/-- Where no statement is seen, none of some kind is. -/
theorem ancestorWhere?_eq_none
    (h : ∀ i ∈ t.chain t.current, ∀ s, t.get? i = some s → s.kind.isStatement = false) :
    t.ancestorWhere? p = none :=
  nearest?_eq_none fun i hi => any_kind_eq_false hp (h i hi)

/-- Where one statement is seen, it is the nearest one, if it is of the kind. -/
theorem ancestorWhere?_of_append {top : ScopeId} {seen rest : List ScopeId}
    (hchain : t.chain t.current = seen ++ top :: rest)
    (hplain : ∀ i ∈ seen ++ rest, ∀ s, t.get? i = some s → s.kind.isStatement = false)
    {s : Scope} (hs : t.get? top = some s) :
    t.ancestorWhere? p = if p s.kind then some top else none := by
  have hseen : ∀ i ∈ seen ++ rest, (t.get? i).any (fun s => p s.kind) = false :=
    fun i hi => any_kind_eq_false hp (hplain i hi)
  by_cases htop : p s.kind
  · rw [if_pos htop]
    exact nearest?_of_append hchain (fun i hi => hseen i (List.mem_append_left _ hi))
      (by simp [hs, htop])
  · rw [if_neg htop]
    refine nearest?_eq_none fun i hi => ?_
    rw [hchain, List.mem_append, List.mem_cons] at hi
    rcases hi with hi | rfl | hi
    · exact hseen i (List.mem_append_left _ hi)
    · simp [hs, htop]
    · exact hseen i (List.mem_append_right _ hi)

end

theorem isStatement_of_consume (k : NodeKind) (hk : k == .consume) : k.isStatement := by
  rw [beq_iff_eq] at hk
  rw [hk]
  rfl

/-- Where no statement is seen, rows are stored in the current scope. -/
theorem storageScope?_of_plain
    (h : ∀ i ∈ t.chain t.current, ∀ s, t.get? i = some s → s.kind.isStatement = false) :
    storageScope? t = t.current := by
  rw [storageScope?, ancestor?, ancestorWhere?_eq_none isStatement_of_consume h,
    ancestorWhere?_eq_none (fun _ hk => hk) h]
  rfl

/-- Where one statement is seen, rows are stored beside it. -/
theorem storageScope?_of_statement {top outer : ScopeId} {seen rest : List ScopeId}
    (hchain : t.chain t.current = seen ++ top :: rest)
    (hplain : ∀ i ∈ seen ++ rest, ∀ s, t.get? i = some s → s.kind.isStatement = false)
    {s : Scope} (hs : t.get? top = some s) (hkind : s.kind.isStatement)
    (hparent : s.logicalParent = some outer) : storageScope? t = some outer := by
  have hconsume := ancestorWhere?_of_append isStatement_of_consume hchain hplain hs
  have hstatement := ancestorWhere?_of_append (fun _ hk => hk) hchain hplain hs
  rw [if_pos hkind] at hstatement
  rw [storageScope?, ancestor?, hconsume, hstatement]
  by_cases htop : s.kind == .consume <;> simp [htop, hs, hparent]

/-- Nothing is registered in a scope that was not entered. -/
theorem tableIn?_of_size_le {i : ScopeId} (hi : t.size ≤ i) (key : String) :
    t.tableIn? i key = none := by
  simp [tableIn?, get?, Array.getElem?_eq_none hi]

namespace AtRoot

/-- Nothing is seen but the scope of the script. -/
theorem chain (h : t.AtRoot) : t.chain t.current = [0] := by
  obtain ⟨s, hs, -⟩ := h.script
  rw [h.current, chain_some h.nested hs]
  cases hp : s.logicalParent with
  | none => rw [chain_none]
  | some p => exact absurd (logicalParent_lt h.nested 0 s p hs hp) (Nat.not_lt_zero p)

theorem returns (h : t.AtRoot) (h' : Nested t'.frames t'.current) (hreturn : t.Returns t') :
    t'.AtRoot := by
  obtain ⟨s, hs, hkind⟩ := h.script
  obtain ⟨s', hs', hframe⟩ := exists_of_frame (frame_persists hreturn.frames (frame_of_get? hs))
  exact ⟨h', hreturn.current.trans h.current, s', hs', (congrArg Frame.kind hframe).trans hkind⟩

/-- What is seen further inside behind scopes that were entered since is the scope
of the script. -/
theorem chain_of_inside (h : base.AtRoot) (hinside : Inside base t)
    (h' : Nested t.frames t.current) :
    ∃ seen, t.chain t.current = seen ++ [0] ∧ ∀ i ∈ seen, base.size ≤ i := by
  obtain ⟨s, hs, hkind⟩ := h.script
  have hblock : s.isUncorrelatedBlock = false := by simp [Scope.isUncorrelatedBlock, hkind]
  obtain ⟨seen, hseen, hlater⟩ := hinside.chain h.nested h' h.current hs hblock
  refine ⟨seen, ?_, hlater⟩
  rw [hseen, ← h.current, h.chain]

/-- The scope of the script stays one. -/
theorem kind_of_grown (h : base.AtRoot) (hgrown : base.frames <+: t.frames) {s : Scope}
    (hs : t.get? 0 = some s) : s.kind.isStatement = false := by
  obtain ⟨s', hs', hkind⟩ := h.script
  have hframe := frame_persists hgrown (frame_of_get? hs')
  rw [frame_of_get? hs, Option.some.injEq] at hframe
  have hsame : s.kind = s'.kind := congrArg Frame.kind hframe
  rw [hsame, hkind]
  rfl

end AtRoot

/-- **In a statement.**  Where the scope of a statement was entered from that of
the script, both are seen from further inside. -/
theorem AtRoot.inStatement (h : base.AtRoot) {owner : NodeId} {kind : NodeKind}
    (hkind : kind.isStatement) {entered : ScopeTree}
    (hentered : base.enter owner kind false = .ok entered) (hinside : Inside entered t)
    (h' : Nested t.frames t.current) (hplain : t.Plain entered.size) :
    t.InStatement base.size := by
  obtain ⟨hcurrent, hnew⟩ := get?_of_enter hentered
  have hne : kind ≠ .selectExpression := by
    rintro rfl
    cases hkind
  have hparent : base.logicalParentFor kind false = some 0 := by
    simp [logicalParentFor, hne, h.current]
  have hbase : base.frames <+: entered.frames :=
    (frames_of_enter hentered).1 ▸ List.prefix_append _ _
  have hblock : (base.fresh owner kind false).isUncorrelatedBlock = false := by
    simp [Scope.isUncorrelatedBlock, fresh, hne]
  obtain ⟨seen, hchain, hlater⟩ :=
    hinside.chain (nested_of_enter h.nested hentered) h' hcurrent hnew hblock
  rw [← hcurrent, chain_of_enter h.nested hentered, hparent, ← h.current, h.chain] at hchain
  have hsize := size_of_enter hentered
  have hlt : base.size < t.size :=
    Nat.lt_of_lt_of_le (hsize ▸ Nat.lt_succ_self _) (size_le_of_frames hinside.grown)
  obtain ⟨s, hs, hframe⟩ := exists_of_frame (frame_persists hinside.grown (frame_of_get? hnew))
  have hplain' : ∀ i ∈ seen ++ [0], ∀ s, t.get? i = some s → s.kind.isStatement = false := by
    intro i hi s hs
    rcases List.mem_append.1 hi with hi | hi
    · exact hplain.kind (hlater i hi) hs
    · obtain rfl := List.mem_singleton.1 hi
      exact h.kind_of_grown (hbase.trans hinside.grown) hs
  refine ⟨h', current_lt_size h.nested h.current, hlt, ⟨seen, hchain, fun i hi => ?_⟩,
    storageScope?_of_statement hchain hplain' hs ?_ ?_⟩
  · exact Nat.lt_of_lt_of_le (hsize ▸ Nat.lt_succ_self _) (hlater i hi)
  · have hsame : s.kind = kind := congrArg Frame.kind hframe
    rw [hsame, hkind]
  · exact (congrArg Frame.logicalParent hframe).trans hparent

namespace Clean

/-- Nothing was entered yet. -/
theorem start (h : base.AtRoot) : Clean base base :=
  ⟨h.nested, .refl base, plain_size base, fun _ _ hi key => tableIn?_of_size_le hi key,
    fun _ _ _ => rfl⟩

/-- An entered scope has no tables yet. -/
theorem enter (h : Clean base t) {owner : NodeId} {kind : NodeKind} {correlated : Bool}
    (hkind : kind.isStatement = false) (hentered : t.enter owner kind correlated = .ok t') :
    Clean base t' := by
  have hsame : ∀ i key, t'.tableIn? i key = t.tableIn? i key := fun i key =>
    bind_get?_of_enter (fun _ _ _ => Directory.find?_empty key) hentered i
  refine ⟨nested_of_enter h.nested hentered, h.inside.enter h.nested hentered,
    h.plain.enter hkind hentered, fun i hi hbase key => ?_,
    fun i hi key => (hsame i key).trans (h.kept i hi key)⟩
  rw [hsame]
  rw [chain_of_enter h.nested hentered] at hi
  rcases List.mem_cons.1 hi with rfl | hi
  · exact tableIn?_of_size_le (Nat.le_refl _) key
  · exact h.no_tables i ((chain_logicalParentFor h.nested kind correlated).subset hi) hbase key

/-- What is returned to is as it was if its tables are. -/
theorem returns (h : Clean base t) (h' : Nested t'.frames t'.current) (hreturn : t.Returns t')
    (hplain : t'.Plain base.size)
    (hsame : ∀ i < t.size, ∀ key, t'.tableIn? i key = t.tableIn? i key) : Clean base t' := by
  have hle := size_le_of_frames h.inside.grown
  refine ⟨h', h.inside.returns h.nested h' hreturn, hplain, fun i hi hbase key => ?_,
    fun i hi key => (hsame i (Nat.lt_of_lt_of_le hi hle) key).trans (h.kept i hi key)⟩
  rw [chain_of_returns h.nested h' hreturn] at hi
  cases hcurrent : t.current with
  | none => simp [hcurrent, chain_none] at hi
  | some id =>
      have hid := current_lt_size h.nested hcurrent
      have hle := le_of_mem_chain h.nested hid (hcurrent ▸ hi)
      rw [hsame i (Nat.lt_of_le_of_lt hle hid)]
      exact h.no_tables i hi hbase key

/-- Rows are stored in the current scope. -/
theorem storage (h : Clean base t) (hbase : base.AtRoot) : storageScope? t = t.current := by
  obtain ⟨seen, hchain, hlater⟩ := hbase.chain_of_inside h.inside h.nested
  refine storageScope?_of_plain fun i hi s hs => ?_
  rw [hchain] at hi
  rcases List.mem_append.1 hi with hi | hi
  · exact h.plain.kind (hlater i hi) hs
  · obtain rfl := List.mem_singleton.1 hi
    exact hbase.kind_of_grown h.inside.grown hs

end Clean

end ScopeTree

end UnionScript
