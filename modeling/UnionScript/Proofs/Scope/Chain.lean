import Mathlib.Order.Basic
import UnionScript.Proofs.Scope.Frame

/-!
# What a scope sees

The logical parent of a scope is computed when it is entered, from the logical
parents of scopes that were entered before.  Whatever was done to a tree of
scopes, the result has a closed form: a scope sees the scopes that it stands in
physically, without the uncorrelated blocks right around an uncorrelated block.

The invariant behind it is `Nested`, a law about each frame and the frame right
around it.  It holds of every tree of scopes (`nested_after`), since every
action keeps it (`nested_act`), and the closed form follows by induction on the
number of a scope (`chain_eq_visible`).
-/

namespace UnionScript

/-- One thing that is done to a tree of scopes. -/
inductive ScopeAction where
  | enter (owner : NodeId) (kind : NodeKind) (correlated : Bool)
  | leave
  | leaveAll
  /-- Registers a name in the current scope. -/
  | register (r : Registration)
  /-- Registers a name in a given scope. -/
  | registerAt (id : ScopeId) (r : Registration)

/-- Does something to a tree of scopes. -/
def ScopeAction.perform : ScopeAction → ScopeTree → Except StructureFault ScopeTree
  | .enter owner kind correlated, t => t.enter owner kind correlated
  | .leave, t => t.leave
  | .leaveAll, t => .ok t.leaveAll
  | .register r, t => t.changeCurrent r.apply
  | .registerAt id r, t => .ok (t.change id r.apply)

/-- The logical parent of a scope by the frame right around it. -/
def Frame.seenParent (frames : List Frame) (f : Frame) : Option ScopeId :=
  match f.physicalParent.bind (fun id => frames[id]?) with
  | some around =>
    if f.isUncorrelatedBlock && around.isUncorrelatedBlock then around.logicalParent
    else f.physicalParent
  | none => f.physicalParent

/-- The frames of scopes that stand in one another, each in an earlier one. -/
structure Nested (frames : List Frame) (current : Option ScopeId) : Prop where
  current_lt : ∀ id, current = some id → id < frames.length
  physical_lt : ∀ (id : ScopeId) (f : Frame) (p : ScopeId),
    frames[id]? = some f → f.physicalParent = some p → p < id
  logical_eq : ∀ (id : ScopeId) (f : Frame),
    frames[id]? = some f → f.logicalParent = f.seenParent frames

namespace Nested

variable {frames : List Frame} {current : Option ScopeId}

/-- The frame around a frame. -/
theorem exists_around (h : Nested frames current) {id p : ScopeId} {f : Frame}
    (hf : frames[id]? = some f) (hp : f.physicalParent = some p) :
    ∃ around, frames[p]? = some around := by
  have hlt : id < frames.length := (List.getElem?_eq_some_iff.1 hf).1
  have hp := h.physical_lt id f p hf hp
  exact ⟨_, List.getElem?_eq_getElem (Nat.lt_trans hp hlt)⟩

/-- A logical parent is earlier, and that of an uncorrelated block is no such
block itself. -/
theorem logical_parent (h : Nested frames current) {id p : ScopeId} {f : Frame}
    (hf : frames[id]? = some f) (hp : f.logicalParent = some p) :
    p < id ∧ (f.isUncorrelatedBlock → ∀ g, frames[p]? = some g → ¬ g.isUncorrelatedBlock) := by
  -- By strong induction: the logical parent is the physical one or that of the
  -- physical one, and in the second case both are uncorrelated blocks.
  induction id using Nat.strongRecOn generalizing f p with
  | ind id ih =>
      rw [h.logical_eq id f hf, Frame.seenParent] at hp
      cases hq : f.physicalParent with
      | none => simp [hq] at hp
      | some q =>
          have hlt := h.physical_lt id f q hf hq
          obtain ⟨around, haround⟩ := h.exists_around hf hq
          simp only [hq, Option.bind_some, haround] at hp
          split at hp
          · rename_i hblocks
            obtain ⟨hlt', hsees⟩ := ih q hlt haround hp
            have hblock : around.isUncorrelatedBlock = true := by simp_all
            exact ⟨Nat.lt_trans hlt' hlt, fun _ => hsees hblock⟩
          · rename_i hblocks
            obtain rfl : q = p := Option.some.inj hp
            refine ⟨hlt, fun hblock g hg => ?_⟩
            obtain rfl : around = g := Option.some.inj (haround.symm.trans hg)
            simpa [hblock] using hblocks

/-- The logical parent by the frame around does not depend on later frames. -/
theorem seenParent_append {f : Frame} (more : List Frame)
    (hf : ∀ p, f.physicalParent = some p → p < frames.length) :
    f.seenParent (frames ++ more) = f.seenParent frames := by
  unfold Frame.seenParent
  cases hp : f.physicalParent with
  | none => rfl
  | some p => simp [List.getElem?_append_left (hf p hp)]

/-- A scope may be added in the current one with the logical parent that the
law demands. -/
theorem push (h : Nested frames current) {f : Frame} (hphysical : f.physicalParent = current)
    (hlogical : f.logicalParent = f.seenParent frames) :
    Nested (frames ++ [f]) (some frames.length) := by
  have hnew : ∀ id g, (frames ++ [f])[id]? = some g →
      frames[id]? = some g ∨ (id = frames.length ∧ g = f) := by
    intro id g hg
    rw [List.getElem?_append] at hg
    split at hg
    · exact Or.inl hg
    · right
      obtain ⟨hlt, rfl⟩ := List.getElem?_eq_some_iff.1 hg
      simp only [List.length_singleton] at hlt
      exact ⟨by omega, by simp⟩
  refine ⟨by simp, fun id g p hg hp => ?_, fun id g hg => ?_⟩
  · rcases hnew id g hg with hg | ⟨rfl, rfl⟩
    · exact h.physical_lt id g p hg hp
    · exact h.current_lt p (hphysical.symm.trans hp)
  · rcases hnew id g hg with hg | ⟨rfl, rfl⟩
    · have hlt : id < frames.length := (List.getElem?_eq_some_iff.1 hg).1
      rw [h.logical_eq id g hg, seenParent_append]
      exact fun p hp => Nat.lt_trans (h.physical_lt id g p hg hp) hlt
    · rw [hlogical, seenParent_append]
      exact fun p hp => h.current_lt p (hphysical.symm.trans hp)

end Nested

namespace ScopeTree

/-- At most `fuel` scopes from a starting one along given parents. -/
def along (t : ScopeTree) (parent : Scope → Option ScopeId) :
    Nat → Option ScopeId → List ScopeId
  | 0, _ => []
  | _ + 1, none => []
  | fuel + 1, some id =>
    match t.get? id with
    | some s => id :: along t parent fuel (parent s)
    | none => []

/-- The scopes from a starting one along physical parents. -/
def physicalChain (t : ScopeTree) (start : Option ScopeId) : List ScopeId :=
  t.along Scope.physicalParent t.size start

/-- A list goes from a scope along given parents up to a scope without one. -/
inductive Links (t : ScopeTree) (parent : Scope → Option ScopeId) :
    Option ScopeId → List ScopeId → Prop
  | done : Links t parent none []
  | next {id : ScopeId} {s : Scope} {rest : List ScopeId} (hs : t.get? id = some s)
      (hrest : Links t parent (parent s) rest) : Links t parent (some id) (id :: rest)

/-- The scope is an uncorrelated block. -/
def isUncorrelatedBlock (t : ScopeTree) (id : ScopeId) : Bool :=
  (t.get? id).any Scope.isUncorrelatedBlock

/-- The scopes around a scope without the uncorrelated blocks right around an
uncorrelated block. -/
def visibleAround (t : ScopeTree) (inner : ScopeId) : List ScopeId → List ScopeId
  | [] => []
  | id :: rest =>
    if t.isUncorrelatedBlock inner && t.isUncorrelatedBlock id then visibleAround t id rest
    else id :: visibleAround t id rest

/-- What can be seen from the first of scopes that stand in one another. -/
def visible (t : ScopeTree) : List ScopeId → List ScopeId
  | [] => []
  | id :: rest => id :: visibleAround t id rest

/-- The tree after an action; one that fails leaves it as it is. -/
def act (t : ScopeTree) (a : ScopeAction) : ScopeTree :=
  match a.perform t with
  | .ok t' => t'
  | .error _ => t

/-- The tree after actions in turn, from no scope on. -/
def after (history : List ScopeAction) : ScopeTree :=
  history.foldl act .empty

variable {t : ScopeTree}

theorem along_none (t : ScopeTree) (parent : Scope → Option ScopeId) (fuel : Nat) :
    t.along parent fuel none = [] := by
  cases fuel <;> rfl

theorem chainUpTo_eq_along (t : ScopeTree) (fuel : Nat) (start : Option ScopeId) :
    t.chainUpTo fuel start = t.along Scope.logicalParent fuel start := by
  induction fuel generalizing start with
  | zero => rfl
  | succ fuel ih =>
      cases start with
      | none => rfl
      | some id =>
          simp only [chainUpTo, along]
          cases t.get? id with
          | none => rfl
          | some s => exact congrArg _ (ih s.logicalParent)

section

variable {parent : Scope → Option ScopeId}
  (hparent : ∀ id s p, t.get? id = some s → parent s = some p → p < id)

include hparent

/-- Where parents are earlier, enough fuel is as good as more. -/
theorem along_stable {fuel fuel' : Nat} {start : Option ScopeId}
    (hfuel : ∀ id, start = some id → id < fuel ∧ id < fuel') :
    t.along parent fuel start = t.along parent fuel' start := by
  induction fuel generalizing fuel' start with
  | zero =>
      cases start with
      | none => cases fuel' <;> rfl
      | some id => exact absurd (hfuel id rfl).1 (Nat.not_lt_zero id)
  | succ fuel ih =>
      cases start with
      | none => cases fuel' <;> rfl
      | some id =>
          obtain ⟨hid, hid'⟩ := hfuel id rfl
          cases fuel' with
          | zero => exact absurd hid' (Nat.not_lt_zero id)
          | succ fuel' =>
              simp only [along]
              cases hs : t.get? id with
              | none => rfl
              | some s =>
                  refine congrArg _ (ih fun p hp => ?_)
                  have hlt := hparent id s p hs hp
                  exact ⟨Nat.lt_of_lt_of_le hlt (Nat.le_of_lt_succ hid),
                    Nat.lt_of_lt_of_le hlt (Nat.le_of_lt_succ hid')⟩

/-- The way from a scope goes on from its parent. -/
theorem along_some {id : ScopeId} {s : Scope} (hs : t.get? id = some s) :
    t.along parent t.size (some id) = id :: t.along parent t.size (parent s) := by
  have hlt : id < t.size := get?_isSome_iff.1 ⟨s, hs⟩
  obtain ⟨fuel, hfuel⟩ := Nat.exists_eq_add_one_of_ne_zero (Nat.ne_zero_of_lt hlt)
  rw [hfuel] at hlt ⊢
  simp only [along, hs]
  refine congrArg _ (along_stable hparent fun p hp => ?_)
  have hlt' := hparent id s p hs hp
  exact ⟨Nat.lt_of_lt_of_le hlt' (Nat.le_of_lt_succ hlt), Nat.lt_trans hlt' hlt⟩

/-- The way from a scope ends at a scope without a parent. -/
theorem links_along {id : ScopeId} (hid : id < t.size) :
    t.Links parent (some id) (t.along parent t.size (some id)) := by
  induction id using Nat.strongRecOn with
  | ind id ih =>
      obtain ⟨s, hs⟩ := get?_isSome_iff.2 hid
      rw [along_some hparent hs]
      refine .next hs ?_
      cases hp : parent s with
      | none =>
          rw [along_none]
          exact .done
      | some p =>
          have hlt := hparent id s p hs hp
          exact ih p hlt (Nat.lt_trans hlt hid)

end

theorem chain_none (t : ScopeTree) : t.chain none = [] := by
  rw [chain, chainUpTo_eq_along, along_none]

section

variable (h : Nested t.frames t.current)

include h

theorem physicalParent_lt (id : ScopeId) (s : Scope) (p : ScopeId) (hs : t.get? id = some s)
    (hp : s.physicalParent = some p) : p < id :=
  h.physical_lt id s.frame p (frame_of_get? hs) hp

theorem logicalParent_lt (id : ScopeId) (s : Scope) (p : ScopeId) (hs : t.get? id = some s)
    (hp : s.logicalParent = some p) : p < id :=
  (h.logical_parent (frame_of_get? hs) hp).1

/-- The chain of a scope goes on from its logical parent. -/
theorem chain_some {id : ScopeId} {s : Scope} (hs : t.get? id = some s) :
    t.chain (some id) = id :: t.chain s.logicalParent := by
  simp only [chain, chainUpTo_eq_along]
  exact along_some (logicalParent_lt h) hs

/-- The nearest scope that satisfies a condition is the first one or is found
from its logical parent on. -/
theorem nearest?_some {id : ScopeId} {s : Scope} (hs : t.get? id = some s)
    (p : Scope → Bool) :
    t.nearest? (some id) p = if p s then some id else t.nearest? s.logicalParent p := by
  simp only [nearest?, chain_some h hs, List.find?_cons, hs, Option.any_some]
  cases p s <;> rfl

/-- The nearest scope from the logical parent of an uncorrelated block that is
no such block is that parent. -/
theorem nearest?_logicalParent {id : ScopeId} {s : Scope} (hs : t.get? id = some s)
    (hblock : s.isUncorrelatedBlock) :
    t.nearest? s.logicalParent (fun s => !s.isUncorrelatedBlock) = s.logicalParent := by
  cases hp : s.logicalParent with
  | none => simp [nearest?, chain_none]
  | some p =>
      obtain ⟨hlt, hsees⟩ := h.logical_parent (frame_of_get? hs) hp
      have hid : id < t.size := get?_isSome_iff.1 ⟨s, hs⟩
      obtain ⟨outer, houter⟩ := get?_isSome_iff.2 (Nat.lt_trans hlt hid)
      have hsees' : ¬ outer.isUncorrelatedBlock := hsees hblock _ (frame_of_get? houter)
      rw [nearest?_some h houter]
      simp [hsees']

/-- **The law holds of an entered scope.** -/
theorem seenParent_fresh (owner : NodeId) (kind : NodeKind) (correlated : Bool) :
    (t.fresh owner kind correlated).frame.seenParent t.frames =
      t.logicalParentFor kind correlated := by
  have hkind : (t.fresh owner kind correlated).frame.isUncorrelatedBlock =
      decide (kind = .selectExpression ∧ ¬ correlated) := by
    cases correlated <;> simp [Scope.frame, fresh, Frame.isUncorrelatedBlock, beq_eq_decide]
  unfold Frame.seenParent
  rw [hkind]
  simp only [Scope.frame, fresh, logicalParentFor]
  cases hcurrent : t.current with
  | none => simp [nearest?, chain_none]
  | some id =>
      have hlt := h.current_lt id hcurrent
      rw [length_frames] at hlt
      obtain ⟨s, hs⟩ := get?_isSome_iff.2 hlt
      simp only [Option.bind_some, frame_of_get? hs, nearest?_some h hs]
      have hframe : s.frame.isUncorrelatedBlock = s.isUncorrelatedBlock := rfl
      rw [hframe]
      by_cases hblock : s.isUncorrelatedBlock
      · rw [nearest?_logicalParent h hs hblock]
        simp [hblock, Scope.frame]
      · simp [hblock]

end

/-- **Actions keep the law.** -/
theorem nested_act (h : Nested t.frames t.current) (a : ScopeAction) :
    Nested (t.act a).frames (t.act a).current := by
  unfold act
  cases hperform : a.perform t with
  | error fault => exact h
  | ok t' =>
      cases a with
      | enter owner kind correlated =>
          obtain ⟨-, rfl⟩ := enter_eq_ok_iff.1 hperform
          rw [frames_push, ← length_frames]
          exact h.push rfl (seenParent_fresh h owner kind correlated).symm
      | leave =>
          obtain ⟨id, hid, rfl⟩ := leave_eq_ok_iff.1 hperform
          refine ⟨fun p hp => ?_, h.physical_lt, h.logical_eq⟩
          obtain ⟨s, hs, hp⟩ := Option.bind_eq_some_iff.1 hp
          exact Nat.lt_trans (physicalParent_lt h id s p hs hp) (h.current_lt id hid)
      | leaveAll =>
          cases hperform
          exact ⟨fun _ hid => (by cases hid), h.physical_lt, h.logical_eq⟩
      | register r =>
          obtain ⟨id, -, rfl⟩ := changeCurrent_eq_ok_iff.1 hperform
          simpa using h
      | registerAt id r =>
          cases hperform
          simpa using h

/-- **The law holds of every tree of scopes.** -/
theorem nested_after (history : List ScopeAction) :
    Nested (after history).frames (after history).current := by
  have hfold : ∀ t : ScopeTree, Nested t.frames t.current →
      Nested (history.foldl ScopeTree.act t).frames (history.foldl ScopeTree.act t).current := by
    induction history with
    | nil => exact fun t h => h
    | cons a rest ih => exact fun t h => ih (t.act a) (nested_act h a)
  refine hfold .empty ⟨?_, ?_, ?_⟩ <;> simp [ScopeTree.empty, frames]

section

variable (h : Nested t.frames t.current)

include h

/-- The chain behind a scope is what can be seen of the scopes around it. -/
theorem chain_logicalParent {id : ScopeId} {s : Scope} (hs : t.get? id = some s) :
    t.chain s.logicalParent = t.visibleAround id (t.physicalChain s.physicalParent) := by
  induction id using Nat.strongRecOn generalizing s with
  | ind id ih =>
      have hlogical := h.logical_eq id s.frame (frame_of_get? hs)
      have hid : id < t.size := get?_isSome_iff.1 ⟨s, hs⟩
      unfold Frame.seenParent at hlogical
      simp only [Scope.frame] at hlogical
      cases hp : s.physicalParent with
      | none =>
          simp only [hp, Option.bind_none] at hlogical
          rw [hlogical, chain_none, physicalChain, along_none]
          rfl
      | some p =>
          have hlt := physicalParent_lt h id s p hs hp
          obtain ⟨outer, houter⟩ := get?_isSome_iff.2 (Nat.lt_trans hlt hid)
          have hrest := ih p hlt houter
          have hchain : t.physicalChain (some p) = p :: t.physicalChain outer.physicalParent :=
            along_some (physicalParent_lt h) houter
          have hblock : t.isUncorrelatedBlock id = s.isUncorrelatedBlock := by
            simp [ScopeTree.isUncorrelatedBlock, hs]
          have hblock' : t.isUncorrelatedBlock p = outer.isUncorrelatedBlock := by
            simp [ScopeTree.isUncorrelatedBlock, houter]
          -- The physical parent is seen unless both are uncorrelated blocks, and then the
          -- logical parent is that of the physical one, which the induction covers.
          simp only [hp, Option.bind_some, frame_of_get? houter] at hlogical
          rw [hchain, visibleAround, hblock, hblock', ← hrest, hlogical]
          change t.chain (if s.isUncorrelatedBlock && outer.isUncorrelatedBlock then
            outer.logicalParent else some p) = _
          split
          · rfl
          · exact chain_some h houter

/-- **What a scope sees.**  The chain of a scope is what can be seen of the
scopes that it stands in physically. -/
theorem chain_eq_visible {id : ScopeId} (hid : id < t.size) :
    t.chain (some id) = t.visible (t.physicalChain (some id)) := by
  obtain ⟨s, hs⟩ := get?_isSome_iff.2 hid
  have hchain : t.physicalChain (some id) = id :: t.physicalChain s.physicalParent :=
    along_some (physicalParent_lt h) hs
  rw [hchain, chain_some h hs, visible, chain_logicalParent h hs]

end

/-- What holds of the uncorrelated blocks holds of the scopes around a scope if
it holds of those that can be seen. -/
theorem forall_visibleAround {P : ScopeId → Prop}
    (hblock : ∀ id, t.isUncorrelatedBlock id → P id) (inner : ScopeId) (ids : List ScopeId) :
    (∀ id ∈ t.visibleAround inner ids, P id) ↔ ∀ id ∈ ids, P id := by
  induction ids generalizing inner with
  | nil => rfl
  | cons id rest ih =>
      rw [visibleAround, List.forall_mem_cons]
      split
      · rename_i hblocks
        have hid : P id := hblock id (by simp_all)
        simp [ih id, hid]
      · rw [List.forall_mem_cons, ih id]

/-- A correlated scope cannot be entered exactly where nothing but query blocks
is around. -/
theorem enter_correlated_eq_error_iff (h : Nested t.frames t.current) (owner : NodeId)
    (kind : NodeKind) (fault : StructureFault) :
    t.enter owner kind true = .error fault ↔
      fault = .correlatedWithoutStatement owner ∧
        ∀ id ∈ t.physicalChain t.current, ∀ s, t.get? id = some s →
          s.kind = .selectExpression := by
  have hseen : (t.nearest? t.current (fun s => s.kind != .selectExpression)).isNone ↔
      ∀ id ∈ t.chain t.current, ∀ s, t.get? id = some s → s.kind = .selectExpression := by
    simp only [nearest?, Option.isNone_iff_eq_none, List.find?_eq_none]
    refine forall₂_congr fun id _ => ?_
    cases t.get? id <;> simp
  have hphysical : (∀ id ∈ t.chain t.current, ∀ s, t.get? id = some s →
        s.kind = .selectExpression) ↔
      ∀ id ∈ t.physicalChain t.current, ∀ s, t.get? id = some s →
        s.kind = .selectExpression := by
    cases hcurrent : t.current with
    | none => simp [chain_none, physicalChain, along_none]
    | some id =>
        have hid := h.current_lt id hcurrent
        rw [length_frames] at hid
        rw [chain_eq_visible h hid]
        cases t.physicalChain (some id) with
        | nil => rfl
        | cons first rest =>
            rw [visible, List.forall_mem_cons, List.forall_mem_cons, forall_visibleAround]
            intro id hblock s hs
            simp only [ScopeTree.isUncorrelatedBlock, hs, Option.any_some,
              Scope.isUncorrelatedBlock] at hblock
            simp_all
  rw [← hphysical, ← hseen]
  unfold enter
  split
  · rename_i hblocked
    rw [Except.error.injEq, eq_comm]
    exact (and_iff_left hblocked.2).symm
  · rename_i hfree
    refine ⟨fun hfault => (by cases hfault), fun hblocked => ?_⟩
    exact (hfree ⟨rfl, hblocked.2⟩).elim

/-- **Visibility.**  Whatever was done to a tree of scopes, the chain of each
scope ends, and it is the physical chain without the uncorrelated blocks right
around an uncorrelated block.  A correlated scope cannot be entered exactly
where nothing but query blocks is around.  An action that fails leaves the tree
as it is. -/
theorem visibility_after (history : List ScopeAction) :
    (∀ id < (after history).size,
      (after history).Links Scope.logicalParent (some id) ((after history).chain (some id)) ∧
      (after history).Links Scope.physicalParent (some id)
        ((after history).physicalChain (some id)) ∧
      (after history).chain (some id) =
        (after history).visible ((after history).physicalChain (some id))) ∧
    (∀ owner kind fault, (after history).enter owner kind true = .error fault ↔
      fault = .correlatedWithoutStatement owner ∧
        ∀ id ∈ (after history).physicalChain (after history).current,
          ∀ s, (after history).get? id = some s → s.kind = .selectExpression) ∧
    (∀ a fault, ScopeAction.perform a (after history) = .error fault →
      after (history ++ [a]) = after history) := by
  have h := nested_after history
  refine ⟨fun id hid => ⟨?_, links_along (physicalParent_lt h) hid, chain_eq_visible h hid⟩,
    fun owner kind fault => enter_correlated_eq_error_iff h owner kind fault,
    fun a fault ha => ?_⟩
  · rw [chain, chainUpTo_eq_along]
    exact links_along (logicalParent_lt h) hid
  · rw [after, List.foldl_append, ← after]
    simp [act, ha]

/-- A derived table in a derived table in a correlated block does not see the
outer derived table, but sees the correlated block and all around it. -/
theorem visibility_after_derived_tables :
    let t := after [.enter 0 .select false, .enter 1 .selectExpression false,
      .enter 2 .selectExpression true, .enter 3 .selectExpression false,
      .enter 4 .selectExpression false]
    4 < t.size ∧ t.physicalChain (some 4) = [4, 3, 2, 1, 0] ∧
      t.chain (some 4) = [4, 2, 1, 0] :=
  ⟨by decide, by decide, ((visibility_after _).1 4 (by decide)).2.2.trans (by decide)⟩

end ScopeTree

end UnionScript
