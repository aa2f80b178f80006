import UnionScript.Scope.Basic

/-!
# The frame of a scope

What a scope belongs to and where it stands is fixed when it is entered: its
owner, its kind, its correlation and its two parents.  This is its frame.  All
that happens to a scope later is that names are registered in it, and that
leaves the frame alone (`Registration.frame_apply`).  So the frames of a tree
of scopes only grow: entering a scope adds one, and nothing else changes them.
-/

namespace UnionScript

/-- What is fixed about a scope when it is entered. -/
structure Frame where
  owner : NodeId
  kind : NodeKind
  correlated : Bool
  logicalParent : Option ScopeId
  physicalParent : Option ScopeId
deriving DecidableEq, Repr

/-- The frame of a query block that does not see the table names around it. -/
def Frame.isUncorrelatedBlock (f : Frame) : Bool :=
  f.kind == .selectExpression && !f.correlated

/-- The frame of a scope. -/
def Scope.frame (s : Scope) : Frame :=
  ⟨s.owner, s.kind, s.correlated, s.logicalParent, s.physicalParent⟩

/-- A name that is registered in a scope, and what it stands for. -/
inductive Registration where
  | table (name : String) (source : TableSource)
  | aliasName (name : String) (target : AliasTarget)
  | variableType (name : String) (type : VariableType)
  | column (identifier : String) (binding : Binding)

/-- Registers a name. -/
def Registration.apply : Registration → Scope → Scope
  | .table name source => Scope.addTable name source
  | .aliasName name target => Scope.addAlias name target
  | .variableType name type => Scope.addVariable name type
  | .column identifier binding => Scope.addColumn identifier binding

/-- Names are registered within the frame of a scope. -/
@[simp]
theorem Registration.frame_apply (r : Registration) (s : Scope) :
    (r.apply s).frame = s.frame := by
  cases r <;> rfl

namespace ScopeTree

variable {t t' : ScopeTree}

/-- The frames of all scopes, in the order in which they were entered. -/
def frames (t : ScopeTree) : List Frame :=
  t.scopes.toList.map Scope.frame

@[simp]
theorem length_frames (t : ScopeTree) : t.frames.length = t.size := by
  simp [frames, size]

theorem getElem?_frames (t : ScopeTree) (id : ScopeId) :
    t.frames[id]? = (t.get? id).map Scope.frame := by
  simp [frames, get?]

theorem map_owner_frames (t : ScopeTree) :
    t.frames.map Frame.owner = t.scopes.toList.map Scope.owner := by
  simp [frames, Function.comp_def, Scope.frame]

/-- The frame of a known scope. -/
theorem frame_of_get? {id : ScopeId} {s : Scope} (h : t.get? id = some s) :
    t.frames[id]? = some s.frame := by
  simp [getElem?_frames, h]

/-- A frame belongs to a scope. -/
theorem exists_of_frame {id : ScopeId} {f : Frame} (h : t.frames[id]? = some f) :
    ∃ s, t.get? id = some s ∧ s.frame = f := by
  simpa [getElem?_frames] using h

theorem get?_isSome_iff {id : ScopeId} : (∃ s, t.get? id = some s) ↔ id < t.size := by
  simp [get?, size, ← Option.isSome_iff_exists]

/-- The scope that is entered for an owner. -/
def fresh (t : ScopeTree) (owner : NodeId) (kind : NodeKind) (correlated : Bool) : Scope :=
  { owner, kind, correlated
    logicalParent := t.logicalParentFor kind correlated
    physicalParent := t.current }

/-- A scope is entered at the end and becomes current, unless it is correlated
to query blocks only. -/
theorem enter_eq_ok_iff {owner : NodeId} {kind : NodeKind} {correlated : Bool} :
    t.enter owner kind correlated = .ok t' ↔
      (correlated → ∃ id, t.nearest? t.current (fun s => s.kind != .selectExpression) = some id) ∧
        t' = ⟨t.scopes.push (t.fresh owner kind correlated), some t.size⟩ := by
  unfold enter
  split
  · rename_i hblocked
    refine ⟨fun h => (by cases h), ?_⟩
    rintro ⟨hfound, -⟩
    obtain ⟨id, hid⟩ := hfound hblocked.1
    simp [hid] at hblocked
  · rename_i hfree
    refine ⟨fun h => ?_, fun h => congrArg _ h.2.symm⟩
    cases h
    refine ⟨fun hc => Option.isSome_iff_exists.1 ?_, rfl⟩
    simpa [hc, Option.isSome_iff_ne_none] using hfree

/-- The current scope is left for its physical parent. -/
theorem leave_eq_ok_iff :
    t.leave = .ok t' ↔
      ∃ id, t.current = some id ∧
        t' = ⟨t.scopes, (t.get? id).bind Scope.physicalParent⟩ := by
  cases h : t.current <;> simp [leave, h, eq_comm]

/-- The current scope is changed if there is one. -/
theorem changeCurrent_eq_ok_iff {f : Scope → Scope} :
    t.changeCurrent f = .ok t' ↔ ∃ id, t.current = some id ∧ t' = t.change id f := by
  cases h : t.current <;> simp [changeCurrent, h, eq_comm]

@[simp]
theorem current_change (t : ScopeTree) (id : ScopeId) (f : Scope → Scope) :
    (t.change id f).current = t.current := rfl

/-- What a change makes of the scopes. -/
theorem get?_change (t : ScopeTree) (id i : ScopeId) (f : Scope → Scope) :
    (t.change id f).get? i = (t.get? i).map (fun s => if id = i then f s else s) := by
  simp only [change, get?, Array.getElem?_modify]
  split <;> simp

/-- Registering a name changes no frame. -/
@[simp]
theorem frames_change (t : ScopeTree) (id : ScopeId) (r : Registration) :
    (t.change id r.apply).frames = t.frames := by
  refine List.ext_getElem? fun i => ?_
  rw [getElem?_frames, getElem?_frames, get?_change, Option.map_map]
  congr 1
  funext s
  simp only [Function.comp_apply]
  split <;> simp

/-- Entering a scope adds its frame. -/
theorem frames_push (t : ScopeTree) (s : Scope) (current : Option ScopeId) :
    ScopeTree.frames ⟨t.scopes.push s, current⟩ = t.frames ++ [s.frame] := by
  simp [frames]

/-- The frame of the current scope. -/
def currentFrame? (t : ScopeTree) : Option Frame :=
  t.current.bind (fun id => t.frames[id]?)

/-- The scope that is entered is added at the end and is current. -/
theorem frames_of_enter {owner : NodeId} {kind : NodeKind} {correlated : Bool}
    (h : t.enter owner kind correlated = .ok t') :
    t'.frames = t.frames ++ [(t.fresh owner kind correlated).frame] ∧
      t'.currentFrame? = some (t.fresh owner kind correlated).frame := by
  obtain ⟨-, rfl⟩ := enter_eq_ok_iff.1 h
  have hframes := frames_push t (t.fresh owner kind correlated) (some t.size)
  refine ⟨hframes, ?_⟩
  rw [ScopeTree.currentFrame?, Option.bind_some, hframes, ← length_frames]
  exact List.getElem?_concat_length

/-- The size grows with the frames. -/
theorem size_le_of_frames (h : t.frames <+: t'.frames) : t.size ≤ t'.size := by
  have hle := h.length_le
  rwa [length_frames, length_frames] at hle

theorem size_of_enter {owner : NodeId} {kind : NodeKind} {correlated : Bool}
    (hentered : t.enter owner kind correlated = .ok t') : t'.size = t.size + 1 := by
  obtain ⟨-, rfl⟩ := enter_eq_ok_iff.1 hentered
  simp [size]

/-- An entered scope. -/
theorem get?_of_enter {owner : NodeId} {kind : NodeKind} {correlated : Bool}
    (hentered : t.enter owner kind correlated = .ok t') :
    t'.current = some t.size ∧ t'.get? t.size = some (t.fresh owner kind correlated) := by
  obtain ⟨-, rfl⟩ := enter_eq_ok_iff.1 hentered
  simp [get?, size]

/-- The current scope is left for the one that it stands in. -/
theorem frames_of_leave (h : t.leave = .ok t') {f : Frame} (hf : t.currentFrame? = some f) :
    t'.frames = t.frames ∧ t'.current = f.physicalParent := by
  obtain ⟨id, hid, rfl⟩ := leave_eq_ok_iff.1 h
  rw [ScopeTree.currentFrame?, hid, Option.bind_some, getElem?_frames] at hf
  obtain ⟨scope, hscope, rfl⟩ := Option.map_eq_some_iff.1 hf
  exact ⟨rfl, by simp [hscope, Scope.frame]⟩

end ScopeTree

end UnionScript
