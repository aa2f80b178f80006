import UnionScript.Proofs.Scope.Lookup

/-!
# The stack of open scopes

The current scope and the scopes that it stands in are the ones that are open.
Entering a scope puts it on top, and what lies below the top stays as it is
until the top is left again.  So between entering a scope and leaving it all
open scopes are those that were open then, under scopes that were entered since
(`Inside`).

What is seen from the current scope follows from the stack.  A scope that is no
uncorrelated block is seen from everywhere inside of it, and with it all that
it sees itself (`Inside.chain`).
-/

namespace UnionScript

namespace ScopeTree

variable {base t t' : ScopeTree}

theorem physicalChain_none (t : ScopeTree) : t.physicalChain none = [] :=
  along_none t _ _

section

variable (h : Nested t.frames t.current)

include h

theorem physicalChain_some {id : ScopeId} {s : Scope} (hs : t.get? id = some s) :
    t.physicalChain (some id) = id :: t.physicalChain s.physicalParent :=
  along_some (physicalParent_lt h) hs

/-- Every open scope stands in those below it on the stack. -/
theorem physicalChain_of_append {id top : ScopeId} (hid : id < t.size) {new rest : List ScopeId}
    (hstack : t.physicalChain (some id) = new ++ top :: rest) :
    t.physicalChain (some top) = top :: rest := by
  induction new generalizing id with
  | nil =>
      obtain ⟨s, hs⟩ := get?_isSome_iff.2 hid
      have hhead := hstack
      rw [physicalChain_some h hs, List.nil_append, List.cons.injEq] at hhead
      exact hhead.1 ▸ hstack
  | cons i new ih =>
      obtain ⟨s, hs⟩ := get?_isSome_iff.2 hid
      rw [physicalChain_some h hs, List.cons_append, List.cons.injEq] at hstack
      cases hp : s.physicalParent with
      | none => simp [hp, physicalChain_none] at hstack
      | some p =>
          have hlt := physicalParent_lt h id s p hs hp
          exact ih (hlt.trans hid) (hp ▸ hstack.2)

/-- An entered scope is on top of the stack. -/
theorem physicalChain_of_enter {owner : NodeId} {kind : NodeKind} {correlated : Bool}
    (hentered : t.enter owner kind correlated = .ok t') :
    t'.physicalChain t'.current = t.size :: t.physicalChain t.current := by
  have h' := nested_of_enter h hentered
  have hframes := (frames_of_enter hentered).1
  obtain ⟨-, rfl⟩ := enter_eq_ok_iff.1 hentered
  have hnew : get? ⟨t.scopes.push (t.fresh owner kind correlated), some t.size⟩ t.size =
      some (t.fresh owner kind correlated) := by
    simp [get?, size]
  rw [physicalChain_some h' hnew]
  refine congrArg _ ?_
  change physicalChain _ t.current = _
  cases hcurrent : t.current with
  | none => rw [physicalChain_none, physicalChain_none]
  | some id =>
      exact along_persists (fun _ _ hframe => congrArg Frame.physicalParent hframe)
        (physicalParent_lt h) (physicalParent_lt h') (hframes ▸ List.prefix_append _ _)
        (current_lt_size h hcurrent)

/-- The stack is the same again when the current scope is returned to. -/
theorem physicalChain_of_returns (h' : Nested t'.frames t'.current) (hreturn : t.Returns t') :
    t'.physicalChain t'.current = t.physicalChain t.current := by
  rw [hreturn.current]
  cases hcurrent : t.current with
  | none => rw [physicalChain_none, physicalChain_none]
  | some id =>
      exact along_persists (fun _ _ hframe => congrArg Frame.physicalParent hframe)
        (physicalParent_lt h) (physicalParent_lt h') hreturn.frames
        (current_lt_size h hcurrent)

end

/-- A scope that is no uncorrelated block is seen from all scopes inside of it. -/
theorem visibleAround_append {top : ScopeId} (htop : t.isUncorrelatedBlock top = false)
    (inner : ScopeId) (new rest : List ScopeId) :
    ∃ seen, seen ⊆ new ∧
      t.visibleAround inner (new ++ top :: rest) = seen ++ top :: t.visibleAround top rest := by
  induction new generalizing inner with
  | nil => exact ⟨[], List.nil_subset _, by simp [visibleAround, htop]⟩
  | cons i new ih =>
      obtain ⟨seen, hseen, heq⟩ := ih i
      rw [List.cons_append, visibleAround, heq]
      split
      · exact ⟨seen, List.Subset.trans hseen (List.subset_cons_self i new), rfl⟩
      · exact ⟨i :: seen, List.cons_subset_cons i hseen, rfl⟩

/-- All open scopes are those that were open in an earlier tree, under scopes
that were entered since. -/
structure Inside (base t : ScopeTree) : Prop where
  grown : base.frames <+: t.frames
  stack : ∃ new, t.physicalChain t.current = new ++ base.physicalChain base.current ∧
    ∀ i ∈ new, base.size ≤ i

namespace Inside

theorem refl (t : ScopeTree) : Inside t t :=
  ⟨List.prefix_rfl, [], rfl, by simp⟩

/-- Entering a scope leads further inside. -/
theorem enter (hinside : Inside base t) (h : Nested t.frames t.current) {owner : NodeId}
    {kind : NodeKind} {correlated : Bool} (hentered : t.enter owner kind correlated = .ok t') :
    Inside base t' := by
  obtain ⟨new, hnew, hlater⟩ := hinside.stack
  have hframes := (frames_of_enter hentered).1
  have hle := size_le_of_frames hinside.grown
  refine ⟨hinside.grown.trans (hframes ▸ List.prefix_append _ _), t.size :: new, ?_, ?_⟩
  · rw [physicalChain_of_enter h hentered, hnew, List.cons_append]
  · exact List.forall_mem_cons.2 ⟨hle, hlater⟩

/-- What was inside is inside when it is returned to. -/
theorem returns (hinside : Inside base t) (h : Nested t.frames t.current)
    (h' : Nested t'.frames t'.current) (hreturn : t.Returns t') : Inside base t' := by
  refine ⟨hinside.grown.trans hreturn.frames, ?_⟩
  rw [physicalChain_of_returns h h' hreturn]
  exact hinside.stack

/-- **What is seen from inside.**  A scope that is no uncorrelated block is seen
from inside of it, behind scopes that were entered since and in front of what it
sees itself. -/
theorem chain (hinside : Inside base t) (hbase : Nested base.frames base.current)
    (h : Nested t.frames t.current) {top : ScopeId} (htop : base.current = some top) {s : Scope}
    (hs : base.get? top = some s) (hblock : s.isUncorrelatedBlock = false) :
    ∃ seen, t.chain t.current = seen ++ base.chain (some top) ∧ ∀ i ∈ seen, base.size ≤ i := by
  obtain ⟨new, hstack, hlater⟩ := hinside.stack
  have hlt := current_lt_size hbase htop
  rw [htop, physicalChain_some hbase hs] at hstack
  -- The scope is the same kind of scope in the later tree, and sees the same.
  have hblock' : t.isUncorrelatedBlock top = false := by
    obtain ⟨s', hs', hframe⟩ :=
      exists_of_frame (frame_persists hinside.grown (frame_of_get? hs))
    have hsame : s'.isUncorrelatedBlock = s.isUncorrelatedBlock :=
      congrArg Frame.isUncorrelatedBlock hframe
    simp [isUncorrelatedBlock, hs', hsame, hblock]
  have hchain := chain_persists hbase h hinside.grown hlt
  cases hcurrent : t.current with
  | none => simp [hcurrent, physicalChain_none] at hstack
  | some id =>
      rw [hcurrent] at hstack
      have hid := current_lt_size h hcurrent
      have htail := physicalChain_of_append h hid hstack
      have hlt' : top < t.size := Nat.lt_of_lt_of_le hlt (size_le_of_frames hinside.grown)
      have hown : t.chain (some top) = top :: t.visibleAround top
          (base.physicalChain s.physicalParent) := by
        rw [chain_eq_visible h hlt', htail, visible]
      rw [chain_eq_visible h hid, hstack, ← hchain, hown]
      cases new with
      | nil => exact ⟨[], rfl, by simp⟩
      | cons i new =>
          obtain ⟨seen, hseen, heq⟩ :=
            visibleAround_append hblock' i new (base.physicalChain s.physicalParent)
          refine ⟨i :: seen, by rw [List.cons_append, visible, heq, List.cons_append], ?_⟩
          intro j hj
          exact hlater j (List.cons_subset_cons i hseen hj)

end Inside

end ScopeTree

end UnionScript
