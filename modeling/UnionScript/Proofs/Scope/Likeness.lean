import Mathlib.Data.List.Forall2
import UnionScript.Proofs.Results
import UnionScript.Proofs.Scope.Frame

/-!
# Alike scopes

Two walks are compared scope by scope: their scopes are *alike* when they have the
same frames and hold alike things under the same names.  What counts as alike is
said once for each comparison (`Likeness`).

Looking something up in alike scopes gives alike answers (`ScopeTree.Alike.lookup?`),
and scopes stay alike when a scope is entered or left in both or when alike things
are registered in both.
-/

namespace UnionScript

namespace Directory

variable {κ α : Type} {R : α → α → Prop} {d d' : Directory κ α}

/-- The same keys in the same order, with related values. -/
def Alike (R : α → α → Prop) (d d' : Directory κ α) : Prop :=
  List.Forall₂ (fun e e' => e.1 = e'.1 ∧ R e.2 e'.2) d.entries d'.entries

namespace Alike

theorem empty : Alike R (.empty : Directory κ α) .empty :=
  .nil

/-- The values are related one by one. -/
theorem values (h : d.Alike R d') : List.Forall₂ R d.values d'.values := by
  rw [Directory.values, Directory.values, List.forall₂_map_left_iff, List.forall₂_map_right_iff]
  exact h.imp fun _ _ he => he.2

theorem head? (h : d.Alike R d') : Option.Rel R d.values.head? d'.values.head? := by
  have hvalues := h.values
  generalize d.values = l at hvalues ⊢
  generalize d'.values = l' at hvalues ⊢
  cases hvalues with
  | nil => exact .none
  | cons ha _ => exact .some ha

theorem size (h : d.Alike R d') : d.size = d'.size :=
  h.length_eq

/-- Directories with equal values under the same keys are equal. -/
theorem eq (h : d.Alike (· = ·) d') : d = d' := by
  obtain ⟨l, hl⟩ := d
  obtain ⟨l', hl'⟩ := d'
  have hentries : List.Forall₂ (· = ·) l l' := h.imp fun _ _ he => Prod.ext he.1 he.2
  obtain rfl : l = l' := by rwa [List.forall₂_eq_eq_eq] at hentries
  rfl

variable [DecidableEq κ]

/-- What is found under a key is related. -/
theorem find? (h : d.Alike R d') (k : κ) : Option.Rel R (d.find? k) (d'.find? k) := by
  unfold Alike at h
  unfold Directory.find?
  generalize d.entries = l at h
  generalize d'.entries = l' at h
  induction h with
  | nil => exact .none
  | @cons e e' _ _ he _ ih =>
      by_cases hk : e.1 = k
      · have hk' : e'.1 = k := he.1.symm.trans hk
        simp only [List.find?_cons, hk, hk', decide_true, Option.map_some]
        exact .some he.2
      · have hk' : ¬ e'.1 = k := fun h => hk (he.1.trans h)
        simpa [hk, hk'] using ih

/-- Registering related values under one key keeps directories alike. -/
theorem insert (h : d.Alike R d') (k : κ) {a a' : α} (ha : R a a') :
    (d.insert k a).Alike R (d'.insert k a') := by
  change List.Forall₂ _ (put k a d.entries) (put k a' d'.entries)
  unfold Alike at h
  generalize d.entries = l at h
  generalize d'.entries = l' at h
  induction h with
  | nil => exact .cons ⟨rfl, ha⟩ .nil
  | @cons e e' _ _ he hrest ih =>
      obtain ⟨j, b⟩ := e
      obtain ⟨j', b'⟩ := e'
      obtain ⟨rfl, hb⟩ := he
      by_cases hk : j = k
      · rw [put, put, if_pos hk, if_pos hk]
        exact .cons ⟨rfl, ha⟩ hrest
      · rw [put, put, if_neg hk, if_neg hk]
        exact .cons ⟨rfl, hb⟩ ih

end Alike

end Directory

/-- What counts as alike when two walks are compared.  About resolved columns more
may be asked than that they are related one by one. -/
structure Likeness where
  table : TableSource → TableSource → Prop
  variableType : VariableType → VariableType → Prop
  columns : Directory String Binding → Directory String Binding → Prop
  columns_empty : columns .empty .empty

variable {L : Likeness}

/-- Aliases of one node for alike tables. -/
structure AliasTarget.Alike (L : Likeness) (a a' : AliasTarget) : Prop where
  node : a.node = a'.node
  source : L.table a.source a'.source

/-- Scopes with one frame that hold alike things under the same names. -/
structure Scope.Alike (L : Likeness) (s s' : Scope) : Prop where
  frame : s.frame = s'.frame
  tables : s.tables.Alike L.table s'.tables
  aliases : s.aliases.Alike (AliasTarget.Alike L) s'.aliases
  variableTypes : s.variableTypes.Alike L.variableType s'.variableTypes
  columns : L.columns s.columns s'.columns

namespace Scope.Alike

variable {s s' : Scope} {name name' : String}

theorem logicalParent (h : s.Alike L s') : s.logicalParent = s'.logicalParent :=
  congrArg Frame.logicalParent h.frame

theorem physicalParent (h : s.Alike L s') : s.physicalParent = s'.physicalParent :=
  congrArg Frame.physicalParent h.frame

/-- Alike tables under names with the same key. -/
theorem addTable (h : s.Alike L s') (hname : nameKey name = nameKey name')
    {source source' : TableSource} (hsource : L.table source source') :
    (s.addTable name source).Alike L (s'.addTable name' source') := by
  refine ⟨h.frame, ?_, h.aliases, h.variableTypes, h.columns⟩
  rw [Scope.addTable, Scope.addTable, hname]
  exact h.tables.insert (nameKey name') hsource

/-- Alike tables under aliases with the same key, at the same node. -/
theorem addAlias (h : s.Alike L s') (hname : nameKey name = nameKey name') (n : NodeId)
    {source source' : TableSource} (hsource : L.table source source') :
    (s.addAlias name ⟨n, source⟩).Alike L (s'.addAlias name' ⟨n, source'⟩) := by
  refine ⟨h.frame, h.tables, ?_, h.variableTypes, h.columns⟩
  rw [Scope.addAlias, Scope.addAlias, hname]
  exact h.aliases.insert (nameKey name') ⟨rfl, hsource⟩

/-- Alike types under names with the same key. -/
theorem addVariable (h : s.Alike L s') (hname : nameKey name = nameKey name')
    {type type' : VariableType} (htype : L.variableType type type') :
    (s.addVariable name type).Alike L (s'.addVariable name' type') := by
  refine ⟨h.frame, h.tables, h.aliases, ?_, h.columns⟩
  rw [Scope.addVariable, Scope.addVariable, hname]
  exact h.variableTypes.insert (nameKey name') htype

/-- Scopes stay alike with other columns, if these are alike. -/
theorem withColumns (h : s.Alike L s') {columns columns' : Directory String Binding}
    (hcolumns : L.columns columns columns') :
    Scope.Alike L { s with columns } { s' with columns := columns' } :=
  ⟨h.frame, h.tables, h.aliases, h.variableTypes, hcolumns⟩

end Scope.Alike

/-- Trees of alike scopes with one current scope. -/
structure ScopeTree.Alike (L : Likeness) (t t' : ScopeTree) : Prop where
  scopes : ∀ id, Option.Rel (Scope.Alike L) (t.get? id) (t'.get? id)
  current : t.current = t'.current

namespace ScopeTree.Alike

variable {t t' : ScopeTree} {α β : Type}

theorem empty : ScopeTree.empty.Alike L ScopeTree.empty :=
  ⟨fun _ => .none, rfl⟩

/-- Alike scopes are nested in the same way. -/
theorem frames (h : t.Alike L t') : t.frames = t'.frames := by
  refine List.ext_getElem? fun id => ?_
  rw [getElem?_frames, getElem?_frames]
  rcases rel_cases (h.scopes id) with ⟨hs, hs'⟩ | ⟨s, s', hs, hs', hsame⟩
  · rw [hs, hs']
  · rw [hs, hs', Option.map_some, Option.map_some, hsame.frame]

theorem size (h : t.Alike L t') : t.size = t'.size := by
  rw [← length_frames, h.frames, length_frames]

/-- Alike scopes see the same scopes. -/
theorem chain (h : t.Alike L t') (start : Option ScopeId) : t.chain start = t'.chain start := by
  unfold ScopeTree.chain
  rw [h.size]
  generalize t'.size = fuel
  induction fuel generalizing start with
  | zero => rfl
  | succ fuel ih =>
      cases start with
      | none => rfl
      | some id =>
          rcases rel_cases (h.scopes id) with ⟨hs, hs'⟩ | ⟨s, s', hs, hs', hsame⟩
          · simp only [chainUpTo, hs, hs']
          · simp only [chainUpTo, hs, hs', hsame.logicalParent, ih]

/-- The nearest scope of a kind is the same in alike scopes. -/
theorem nearest? (h : t.Alike L t') (start : Option ScopeId) {p : Scope → Bool}
    (hp : ∀ s s' : Scope, s.frame = s'.frame → p s = p s') :
    t.nearest? start p = t'.nearest? start p := by
  unfold ScopeTree.nearest?
  rw [h.chain start]
  refine congrArg (fun q => (t'.chain start).find? q) (funext fun id => ?_)
  rcases rel_cases (h.scopes id) with ⟨hs, hs'⟩ | ⟨s, s', hs, hs', hsame⟩
  · rw [hs, hs']
  · rw [hs, hs', Option.any_some, Option.any_some, hp s s' hsame.frame]

/-- **Look-ups in alike scopes** that are alike in each of them are alike. -/
theorem lookup? (h : t.Alike L t') {R : α → β → Prop} {f : Scope → Option α}
    {f' : Scope → Option β} (hf : ∀ s s', s.Alike L s' → Option.Rel R (f s) (f' s')) :
    Option.Rel R (t.lookup? f) (t'.lookup? f') := by
  unfold ScopeTree.lookup?
  rw [h.chain, h.current]
  induction t'.chain t'.current with
  | nil => exact .none
  | cons id rest ih =>
      simp only [List.findSome?_cons]
      rcases rel_cases (rel_bind (h.scopes id) hf) with ⟨ha, hb⟩ | ⟨x, y, ha, hb, hr⟩
      · rw [ha, hb]
        exact ih
      · rw [ha, hb]
        exact .some hr

/-- The current scopes are alike, or there is none in either. -/
theorem currentScope? (h : t.Alike L t') :
    Option.Rel (Scope.Alike L) t.currentScope? t'.currentScope? := by
  unfold ScopeTree.currentScope?
  rw [h.current]
  cases t'.current with
  | none => exact .none
  | some id => exact h.scopes id

/-- A scope that is entered in alike scopes is alike. -/
theorem enter (h : t.Alike L t') (owner : NodeId) (kind : NodeKind) (correlated : Bool) :
    Agree (ScopeTree.Alike L) (t.enter owner kind correlated) (t'.enter owner kind correlated) := by
  have hstatement := h.nearest? t.current (p := fun s => s.kind != .selectExpression)
    fun s s' hs => by rw [show s.kind = s'.kind from congrArg Frame.kind hs]
  have hblock := h.nearest? t.current (p := fun s => !s.isUncorrelatedBlock)
    fun s s' hs => by
      rw [show s.isUncorrelatedBlock = s'.isUncorrelatedBlock from
        congrArg Frame.isUncorrelatedBlock hs]
  have hparent : t.logicalParentFor kind correlated = t'.logicalParentFor kind correlated := by
    unfold logicalParentFor
    rw [hblock, h.current]
  unfold ScopeTree.enter
  rw [hstatement, h.current, hparent, h.size]
  split
  · exact .error _
  · refine .ok ⟨fun id => ?_, rfl⟩
    have hid := h.scopes id
    have hsize : t.scopes.size = t'.scopes.size := h.size
    simp only [ScopeTree.get?, Array.getElem?_push, hsize] at hid ⊢
    split
    · exact .some ⟨rfl, .empty, .empty, .empty, L.columns_empty⟩
    · exact hid

/-- Alike scopes are left for the same one. -/
theorem leave (h : t.Alike L t') : Agree (ScopeTree.Alike L) t.leave t'.leave := by
  unfold ScopeTree.leave
  rw [h.current]
  cases t'.current with
  | none => exact .error _
  | some id =>
      refine .ok ⟨h.scopes, eq_of_rel_eq (rel_bind (h.scopes id) fun s s' hs => ?_)⟩
      rw [hs.physicalParent]
      cases s'.physicalParent with
      | none => exact .none
      | some p => exact .some rfl

/-- Alike scopes that are changed alike are alike. -/
theorem change (h : t.Alike L t') (id : ScopeId) {f f' : Scope → Scope}
    (hf : ∀ s s', s.Alike L s' → (f s).Alike L (f' s')) :
    (t.change id f).Alike L (t'.change id f') := by
  refine ⟨fun i => ?_, h.current⟩
  rw [get?_change, get?_change]
  rcases rel_cases (h.scopes i) with ⟨hs, hs'⟩ | ⟨s, s', hs, hs', hsame⟩
  · rw [hs, hs']
    exact .none
  · rw [hs, hs']
    refine .some ?_
    split
    · exact hf s s' hsame
    · exact hsame

/-- A change on one side only keeps scopes alike if it does so scope by scope. -/
theorem change_right (h : t.Alike L t') (id : ScopeId) {f : Scope → Scope}
    (hf : ∀ s s' : Scope, s.Alike L s' → s.Alike L (f s')) : t.Alike L (t'.change id f) := by
  refine ⟨fun i => ?_, h.current⟩
  rw [get?_change]
  rcases rel_cases (h.scopes i) with ⟨hs, hs'⟩ | ⟨s, s', hs, hs', hsame⟩
  · rw [hs, hs']
    exact .none
  · rw [hs, hs']
    refine .some ?_
    split
    · exact hf s s' hsame
    · exact hsame

/-- **Alike changes.**  Changing both current scopes alike keeps all scopes alike, and fails in
both or in neither. -/
theorem changeCurrent (h : t.Alike L t') {f f' : Scope → Scope}
    (hf : ∀ s s', s.Alike L s' → (f s).Alike L (f' s')) :
    Agree (ScopeTree.Alike L) (t.changeCurrent f) (t'.changeCurrent f') := by
  unfold ScopeTree.changeCurrent
  rw [h.current]
  cases t'.current with
  | none => exact .error _
  | some id => exact .ok (h.change id hf)

end ScopeTree.Alike

end UnionScript
