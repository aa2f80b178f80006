import Mathlib.Data.List.Find
import UnionScript.Proofs.Scope.Chain

/-!
# What look-ups depend on

Names are looked up along the chain of the current scope.  The chain depends on
the frames only, so it is the same again once the current scope is returned to
(`chain_of_returns`), and entering a scope puts the new scope in front of a part
of it (`chain_of_enter`, `chain_logicalParentFor`).  A look-up depends on the
scopes of the chain and on nothing else (`lookup?_congr`, `nearest?_congr`).
-/

namespace UnionScript

namespace ScopeTree

variable {t t' t'' : ScopeTree}

/-- The same scope is current as before, and scopes were only added. -/
structure Returns (t t' : ScopeTree) : Prop where
  current : t'.current = t.current
  frames : t.frames <+: t'.frames

theorem Returns.refl (t : ScopeTree) : t.Returns t :=
  ⟨rfl, List.prefix_rfl⟩

theorem Returns.trans (h : t.Returns t') (h' : t'.Returns t'') : t.Returns t'' :=
  ⟨h'.current.trans h.current, h.frames.trans h'.frames⟩

/-- Frames stay where they are. -/
theorem frame_persists (h : t.frames <+: t'.frames) {id : ScopeId} {f : Frame}
    (hf : t.frames[id]? = some f) : t'.frames[id]? = some f := by
  obtain ⟨new, hnew⟩ := h
  have hlt : id < t.frames.length := (List.getElem?_eq_some_iff.1 hf).1
  rw [← hnew, List.getElem?_append_left hlt, hf]

/-- The current scope keeps its frame. -/
theorem Returns.currentFrame? (h : t.Returns t') {f : Frame} (hf : t.currentFrame? = some f) :
    t'.currentFrame? = some f := by
  obtain ⟨id, hid, hframe⟩ := Option.bind_eq_some_iff.1 hf
  rw [ScopeTree.currentFrame?, h.current, hid, Option.bind_some]
  exact frame_persists h.frames hframe

/-- A scope that is left as it was entered brings back the scope around it. -/
theorem returns_of_scope {owner : NodeId} {kind : NodeKind} {correlated : Bool}
    {entered inner : ScopeTree} (hentered : t.enter owner kind correlated = .ok entered)
    (hinner : entered.Returns inner) (hleft : inner.leave = .ok t') : t.Returns t' := by
  obtain ⟨hframes, hcurrent⟩ := frames_of_enter hentered
  obtain ⟨hframes', hcurrent'⟩ := frames_of_leave hleft (hinner.currentFrame? hcurrent)
  refine ⟨hcurrent', ?_⟩
  rw [hframes']
  have hgrown : t.frames <+: entered.frames := hframes ▸ List.prefix_append _ _
  exact hgrown.trans hinner.frames

/-- A look-up depends on the scopes of the chain only. -/
theorem lookup?_congr {α : Type} {f : Scope → Option α}
    (hchain : t'.chain t'.current = t.chain t.current)
    (hscopes : ∀ id ∈ t.chain t.current, (t'.get? id).bind f = (t.get? id).bind f) :
    t'.lookup? f = t.lookup? f := by
  unfold lookup?
  rw [hchain]
  generalize t.chain t.current = ids at hscopes
  induction ids with
  | nil => rfl
  | cons id rest ih =>
      rw [List.forall_mem_cons] at hscopes
      rw [List.findSome?_cons, List.findSome?_cons, hscopes.1, ih hscopes.2]

/-- So does the search for the nearest scope. -/
theorem nearest?_congr {start : Option ScopeId} {p : Scope → Bool}
    (hchain : t'.chain start = t.chain start)
    (hscopes : ∀ id ∈ t.chain start, (t'.get? id).any p = (t.get? id).any p) :
    t'.nearest? start p = t.nearest? start p := by
  unfold nearest?
  rw [hchain]
  exact List.find?_congr hscopes

/-- Ways along parents do not depend on scopes that are added later. -/
theorem along_persists {parent : Scope → Option ScopeId}
    (hframe : ∀ s s' : Scope, s'.frame = s.frame → parent s' = parent s)
    (hparent : ∀ id s p, t.get? id = some s → parent s = some p → p < id)
    (hparent' : ∀ id s p, t'.get? id = some s → parent s = some p → p < id)
    (hgrown : t.frames <+: t'.frames) {id : ScopeId} (hid : id < t.size) :
    t'.along parent t'.size (some id) = t.along parent t.size (some id) := by
  induction id using Nat.strongRecOn with
  | ind id ih =>
      obtain ⟨s, hs⟩ := get?_isSome_iff.2 hid
      obtain ⟨s', hs', hsame⟩ := exists_of_frame (frame_persists hgrown (frame_of_get? hs))
      rw [along_some hparent hs, along_some hparent' hs', hframe s s' hsame]
      cases hp : parent s with
      | none => rw [along_none, along_none]
      | some p =>
          have hlt := hparent id s p hs hp
          rw [ih p hlt (hlt.trans hid)]

section

variable (h : Nested t.frames t.current)

include h

/-- The current scope is one of the tree. -/
theorem current_lt_size {id : ScopeId} (hid : t.current = some id) : id < t.size := by
  rw [← length_frames]
  exact h.current_lt id hid

/-- Only earlier scopes are on the chain of a scope. -/
theorem le_of_mem_chain {id i : ScopeId} (hid : id < t.size) (hi : i ∈ t.chain (some id)) :
    i ≤ id := by
  induction id using Nat.strongRecOn with
  | ind id ih =>
      obtain ⟨s, hs⟩ := get?_isSome_iff.2 hid
      rw [chain_some h hs] at hi
      rcases List.mem_cons.1 hi with rfl | hi
      · exact Nat.le_refl i
      · cases hp : s.logicalParent with
        | none => simp [hp, chain_none] at hi
        | some p =>
            have hlt := logicalParent_lt h id s p hs hp
            exact (ih p hlt (hlt.trans hid) (hp ▸ hi)).trans hlt.le

/-- The chain goes on from each of its scopes as the chain of that scope. -/
theorem chain_suffix {id i : ScopeId} (hid : id < t.size) (hi : i ∈ t.chain (some id)) :
    t.chain (some i) <:+ t.chain (some id) := by
  induction id using Nat.strongRecOn with
  | ind id ih =>
      obtain ⟨s, hs⟩ := get?_isSome_iff.2 hid
      rw [chain_some h hs] at hi
      rcases List.mem_cons.1 hi with rfl | hi
      · exact List.suffix_rfl
      · rw [chain_some h hs]
        cases hp : s.logicalParent with
        | none => simp [hp, chain_none] at hi
        | some p =>
            have hlt := logicalParent_lt h id s p hs hp
            exact (ih p hlt (hlt.trans hid) (hp ▸ hi)).trans (List.suffix_cons id _)

/-- What is seen from an entered scope behind that scope is a part of what is
seen from the current one. -/
theorem chain_logicalParentFor (kind : NodeKind) (correlated : Bool) :
    t.chain (t.logicalParentFor kind correlated) <:+ t.chain t.current := by
  unfold logicalParentFor
  split
  · cases hnearest : t.nearest? t.current (fun s => !s.isUncorrelatedBlock) with
    | none =>
        rw [chain_none]
        exact List.nil_suffix
    | some i =>
        have hmem : i ∈ t.chain t.current := List.mem_of_find?_eq_some hnearest
        cases hcurrent : t.current with
        | none => simp [hcurrent, chain_none] at hmem
        | some id => exact chain_suffix h (current_lt_size h hcurrent) (hcurrent ▸ hmem)
  · exact List.suffix_rfl

variable (h' : Nested t'.frames t'.current)

include h'

/-- Chains do not depend on scopes that are added later. -/
theorem chain_persists (hgrown : t.frames <+: t'.frames) {id : ScopeId} (hid : id < t.size) :
    t'.chain (some id) = t.chain (some id) := by
  simp only [chain, chainUpTo_eq_along]
  exact along_persists (fun _ _ hframe => congrArg Frame.logicalParent hframe)
    (logicalParent_lt h) (logicalParent_lt h') hgrown hid

/-- What the current scope sees, it sees again when it is returned to. -/
theorem chain_of_returns (hreturn : t.Returns t') :
    t'.chain t'.current = t.chain t.current := by
  rw [hreturn.current]
  cases hcurrent : t.current with
  | none => rw [chain_none, chain_none]
  | some id => exact chain_persists h h' hreturn.frames (current_lt_size h hcurrent)

omit h' in
/-- The law of nested scopes holds after a scope is entered. -/
theorem nested_of_enter {owner : NodeId} {kind : NodeKind} {correlated : Bool}
    (hentered : t.enter owner kind correlated = .ok t') : Nested t'.frames t'.current := by
  have hact := nested_act h (.enter owner kind correlated)
  rwa [act, ScopeAction.perform, hentered] at hact

omit h' in
/-- **What an entered scope sees**: itself, and what its logical parent sees. -/
theorem chain_of_enter {owner : NodeId} {kind : NodeKind} {correlated : Bool}
    (hentered : t.enter owner kind correlated = .ok t') :
    t'.chain t'.current = t.size :: t.chain (t.logicalParentFor kind correlated) := by
  have h' := nested_of_enter h hentered
  have hframes := (frames_of_enter hentered).1
  obtain ⟨-, rfl⟩ := enter_eq_ok_iff.1 hentered
  have hnew : get? ⟨t.scopes.push (t.fresh owner kind correlated), some t.size⟩ t.size =
      some (t.fresh owner kind correlated) := by
    simp [get?, size]
  rw [chain_some h' hnew]
  refine congrArg _ ?_
  cases hp : (t.fresh owner kind correlated).logicalParent with
  | none =>
      have hnone : t.logicalParentFor kind correlated = none := hp
      rw [hnone, chain_none, chain_none]
  | some p =>
      have hsome : t.logicalParentFor kind correlated = some p := hp
      have hlt := logicalParent_lt h' t.size _ p hnew hp
      rw [hsome]
      exact chain_persists h h' (hframes ▸ List.prefix_append _ _) hlt

end

end ScopeTree

end UnionScript
