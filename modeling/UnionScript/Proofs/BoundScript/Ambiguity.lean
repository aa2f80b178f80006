import Mathlib.Data.List.Perm.Subperm
import UnionScript.Proofs.BoundScript.Meaning
import UnionScript.Proofs.BoundScript.Skeleton
import UnionScript.Proofs.BoundScript.Strictness
import UnionScript.Proofs.BoundScript.Tables
import UnionScript.Proofs.Directory
import UnionScript.Proofs.Lists
import UnionScript.Proofs.Walk.Aliases
import UnionScript.Proofs.Walk.Precedence
import UnionScript.Proofs.Walk.Segment

/-!
# Names that several tables have a column for

A query block reads the tables that its clause joins, and a column that it projects may be named
without a qualifier.  Under strict rules such a name stands for a column only if a single table
that the block knows has one of that name; otherwise it is reported.

The tables of a block are known by their aliases, and of two tables with one alias, in whatever
case it is written, only the later one is known (`Tree.Knows`).  So two tables that have the column
are two as long as each keeps its alias.  If one has lost it to the other, the column of the other
one is taken without a report: see `sameAliases`.

* `Walk.exists_split_of_column` — a column is visited behind all tables of its block;
* `Walk.exists_scope_of_column` — the scope of the block has the tables that are known there;
* `ambiguous_columns_are_reported` — the main statement.
-/

namespace UnionScript

namespace Tree

/-- The tables that a clause joins, in any nesting.  A clause without a join is a table itself. -/
inductive Joins (t : Tree) : NodeId → NodeId → Prop
  | reference {n : NodeId} {identifier : String} {aliasName : Option String}
      (hx : t.get? n = some (.tableReference identifier aliasName)) : Joins t n n
  | derived {n query : NodeId} {aliasName : String}
      (hx : t.get? n = some (.tableExpression query aliasName)) : Joins t n n
  | left {n left right table : NodeId} {join : JoinType} {condition : Option NodeId}
      (hx : t.get? n = some (.tableJoin join left right condition))
      (hleft : Joins t left table) : Joins t n table
  | right {n left right table : NodeId} {join : JoinType} {condition : Option NodeId}
      (hx : t.get? n = some (.tableJoin join left right condition))
      (hright : Joins t right table) : Joins t n table

/-- A query block with a clause of tables projects a column that is named without a qualifier. -/
structure ProjectsPlain (t : Tree) (n clause reference : NodeId) (name : String) : Prop where
  block : ∃ b column aliasName, t.get? n = some (.selectExpression b) ∧ b.source = some clause ∧
    column ∈ b.columns ∧ t.get? column = some (.columnExpression reference aliasName)
  reference : t.get? reference = some (.columnReference name)
  plain : '.' ∉ name.toList

/-- The nodes that a walk is about, in the order of their visits. -/
def visits (t : Tree) (limit : Nat) (root : NodeId) : List NodeId :=
  Walk.subjects (t.walk limit root)

/-- No other table that is found in the block has the alias of a table and is visited between the
table and a reference. -/
def KeepsAlias (t : Tree) (order : List NodeId) (bindings : Bindings)
    (n reference table : NodeId) : Prop :=
  ∀ other, [table, other, reference].Sublist order → t.Encloses n other →
    t.aliasKey? other = t.aliasKey? table → bindings.find? other = none

/-- A reference knows a table of its block: the table has been found before, and it still has its
alias. -/
structure Knows (t : Tree) (order : List NodeId) (bindings : Bindings)
    (n reference table : NodeId) (source : TableSource) : Prop where
  hasAlias : (t.aliasKey? table).isSome
  inside : t.Encloses n table
  found : bindings.find? table = some (.table source)
  before : [table, reference].Sublist order
  latest : t.KeepsAlias order bindings n reference table

/-- Among the tables that a reference knows a single one has a column of a name, and what that
column is. -/
def KnowsOnly (t : Tree) (order : List NodeId) (bindings : Bindings) (n reference : NodeId)
    (name : String) (b : Binding) : Prop :=
  ∃ table source, t.columnOf? source name = some b ∧
    t.Knows order bindings n reference table source ∧
    ∀ other source', (t.columnOf? source' name).isSome →
      t.Knows order bindings n reference other source' → other = table

/-- A node is reported: each of the diagnostics is about a node of its own, and one of them is
about this one. -/
def Reported (t : Tree) (diagnostics : List Diagnostic) (n : NodeId) : Prop :=
  ∃ nodes : List NodeId, nodes.Nodup ∧ n ∈ nodes ∧ List.Forall₂ t.Reports nodes diagnostics

variable {t : Tree} {clause table n : NodeId}

theorem ProjectsPlain.reaches {root reference : NodeId} {name : String}
    (h : t.ProjectsPlain n clause reference name) (hn : t.Reaches root n) :
    t.Reaches root reference := by
  obtain ⟨b, column, aliasName, hx, -, hmem, hcolumn⟩ := h.block
  have hchild : t.Reaches root column := hn.tail ⟨_, hx, by simp [Node.children, hmem]⟩
  exact hchild.tail ⟨_, hcolumn, by simp [Node.children]⟩

theorem ProjectsPlain.encloses {reference : NodeId} {name : String}
    (h : t.ProjectsPlain n clause reference name) : t.Encloses n clause := by
  obtain ⟨b, -, -, hx, hclause, -⟩ := h.block
  exact .child hx rfl (by simp [Node.children, hclause])

theorem Joins.reaches (h : t.Joins clause table) : t.Reaches clause table := by
  induction h with
  | reference | derived => exact .refl
  | left hx _ ih => exact ih.head ⟨_, hx, by simp [Node.children]⟩
  | right hx _ ih => exact ih.head ⟨_, hx, by simp [Node.children]⟩

/-- Joined tables are in the scope of their clause. -/
theorem Joins.encloses (h : t.Joins clause table) (hclause : t.Encloses n clause) :
    t.Encloses n table := by
  induction h with
  | reference | derived => exact hclause
  | left hx _ ih => exact ih (.through hclause hx rfl (by simp [Node.children]))
  | right hx _ ih => exact ih (.through hclause hx rfl (by simp [Node.children]))

/-- A walk has a step about each joined table, and the table has an alias. -/
theorem Joins.exists_step (h : t.Joins clause table) :
    ∃ x, t.get? table = some x ∧ x.kind.hasStep ∧ (t.aliasKey? table).isSome := by
  induction h with
  | reference hx | derived hx => exact ⟨_, hx, rfl, by simp [aliasKey?, hx]⟩
  | left _ _ ih | right _ _ ih => exact ih

end Tree

namespace Scope

variable {scope : Scope} {tree : Tree} {name : String} {key key' : String}
  {target target' : AliasTarget}

/-- **No choice between two.**  A name that two tables have a column for stands for nothing. -/
theorem unqualified?_eq_none (h : scope.aliases.find? key = some target)
    (h' : scope.aliases.find? key' = some target') (hne : key ≠ key')
    (hcolumn : (tree.columnOf? target.source name).isSome)
    (hcolumn' : (tree.columnOf? target'.source name).isSome) :
    scope.unqualified? tree true name = none := by
  have hlength : 2 ≤ (scope.aliases.values.filterMap
      (fun target => tree.columnOf? target.source name)).length := by
    rw [Directory.values, List.filterMap_map, List.length_filterMap_eq_countP,
      List.countP_eq_length_filter]
    have hnodup : [(key, target), (key', target')].Nodup := by simp [hne]
    refine (List.Nodup.subperm hnodup fun entry hentry => ?_).length_le
    rw [List.mem_filter]
    rcases List.mem_pair.1 hentry with rfl | rfl
    · exact ⟨Directory.find?_eq_some_iff.1 h, hcolumn⟩
    · exact ⟨Directory.find?_eq_some_iff.1 h', hcolumn'⟩
  unfold unqualified?
  split
  · rfl
  · rename_i hone
    simp [hone] at hlength
  · rfl

/-- A name that a single table has a column for stands for that column. -/
theorem unqualified?_eq_columnOf? (h : scope.aliases.find? key = some target)
    (hcolumn : (tree.columnOf? target.source name).isSome)
    (honly : ∀ key' target', scope.aliases.find? key' = some target' → key' ≠ key →
      tree.columnOf? target'.source name = none) (strict : Bool) :
    scope.unqualified? tree strict name = tree.columnOf? target.source name := by
  obtain ⟨binding, hbinding⟩ := Option.isSome_iff_exists.1 hcolumn
  obtain ⟨before, behind, hentries⟩ := List.append_of_mem (Directory.find?_eq_some_iff.1 h)
  have hnodup := scope.aliases.nodup
  rw [hentries, List.map_append, List.map_cons, List.nodup_append, List.nodup_cons] at hnodup
  obtain ⟨-, ⟨hbehind, -⟩, hbefore⟩ := hnodup
  have hnone : ∀ entry ∈ scope.aliases.entries, entry.1 ≠ key →
      tree.columnOf? entry.2.source name = none := by
    intro entry hentry hne
    exact honly entry.1 entry.2 (Directory.find?_eq_some_iff.2 hentry) hne
  have hvalues : scope.aliases.values.filterMap
      (fun target => tree.columnOf? target.source name) = [binding] := by
    have hfirst : before.filterMap (fun entry => tree.columnOf? entry.2.source name) = [] := by
      refine List.filterMap_eq_nil_iff.2 fun entry hentry => ?_
      refine hnone entry (by simp [hentries, hentry]) ?_
      exact hbefore _ (List.mem_map_of_mem hentry) key List.mem_cons_self
    have hlast : behind.filterMap (fun entry => tree.columnOf? entry.2.source name) = [] := by
      refine List.filterMap_eq_nil_iff.2 fun entry hentry => ?_
      refine hnone entry (by simp [hentries, hentry]) fun heq => hbehind ?_
      exact List.mem_map.2 ⟨entry, hentry, heq⟩
    simp only [Directory.values, List.filterMap_map, hentries, List.filterMap_append,
      List.filterMap_cons, Function.comp_def, hfirst, hlast, hbinding, List.nil_append]
  rw [unqualified?, hvalues, hbinding]

/-- **The only column.**  Under strict rules a name without a qualifier stands for the column of
the only table that has one of the name. -/
theorem unqualified?_eq_some_iff {b : Binding} :
    scope.unqualified? tree true name = some b ↔
      ∃ key target, scope.aliases.find? key = some target ∧
        tree.columnOf? target.source name = some b ∧
        ∀ key' target', scope.aliases.find? key' = some target' →
          (tree.columnOf? target'.source name).isSome → key' = key := by
  constructor
  · intro h
    obtain ⟨target, hmem, hcolumn⟩ := exists_columnOf?_of_unqualified? h
    obtain ⟨⟨key, _⟩, hentry, rfl⟩ := List.mem_map.1 hmem
    have hfind := Directory.find?_eq_some_iff.2 hentry
    refine ⟨key, _, hfind, hcolumn, fun key' target' hfind' hcolumn' => ?_⟩
    by_contra hne
    rw [unqualified?_eq_none hfind' hfind hne hcolumn' (by simp [hcolumn])] at h
    cases h
  · rintro ⟨key, target, hfind, hcolumn, honly⟩
    rw [unqualified?_eq_columnOf? hfind (by simp [hcolumn]), hcolumn]
    intro key' target' hfind' hne
    rw [← Option.not_isSome_iff_eq_none]
    exact fun hcolumn' => hne (honly key' target' hfind' hcolumn')

end Scope

/-- Without a qualifier, strict rules look among all tables of the current scope, be it one or
several. -/
theorem ScopeTree.resolveColumn_plain {t : ScopeTree} {scope : Scope}
    (hscope : t.currentScope? = some scope) (tree : Tree) (name : String) :
    t.resolveColumn tree true "" name = scope.unqualified? tree true name := by
  by_cases hseveral : 1 < scope.aliases.size
  · simp [resolveColumn, hasSeveralTables, hscope, hseveral]
  · have hlength : scope.aliases.values.length ≤ 1 := by
      rw [Directory.values, List.length_map]
      exact Nat.not_lt.1 hseveral
    have hfirst : t.resolveColumn tree true "" name =
        scope.aliases.values.head?.bind (fun target => tree.columnOf? target.source name) := by
      simp [resolveColumn, hasSeveralTables, hscope, hseveral, aliasTarget?]
    rw [hfirst, Scope.unqualified?]
    cases hvalues : scope.aliases.values with
    | nil => rfl
    | cons target rest =>
        have hrest : rest = [] := by
          rw [hvalues, List.length_cons] at hlength
          exact List.length_eq_zero_iff.1 (by omega)
        subst hrest
        cases hcolumn : tree.columnOf? target.source name <;> simp [hcolumn]

/-- A name without a qualifier is bound to what it is resolved to. -/
theorem Step.find?_of_useColumn {s : Surroundings} {p q : Progress} {n : NodeId} {name : String}
    (h : (Step.useColumn n name).perform s p = .finished q) (hplain : '.' ∉ name.toList)
    (hfresh : p.bindings.find? n = none) :
    q.bindings.find? n = p.scopes.resolveColumn s.tree s.strict "" name := by
  have hmember : enumMember s name = .ok none := by
    simp [enumMember, List.count_eq_zero.2 hplain]
  simp only [perform, hmember, Progress.ask, Progress.bindColumn,
    splitQualified_eq_self hplain] at h
  cases hcolumn : p.scopes.resolveColumn s.tree s.strict "" name with
  | none =>
      rw [hcolumn] at h
      cases h
      exact hfresh
  | some binding =>
      rw [hcolumn] at h
      obtain ⟨scopes, -, rfl⟩ := changeScopes_eq_finished h
      exact Directory.find?_insert_self _ _ _

/-- **Known tables.**  When a reference is visited, a scope has the tables under aliases that the
reference knows of the block with that scope. -/
theorem Progress.Aliased.find?_aliases_iff {tree : Tree} {p : Progress}
    {visited rest : List NodeId} {reference : NodeId} {bindings : Bindings} {id : ScopeId}
    {scope : Scope} (hp : p.Aliased tree visited) (hscope : p.scopes.get? id = some scope)
    (hshape : tree.TreeShaped) (howners : (p.scopes.frames.map Frame.owner).Nodup)
    (hnodup : (visited ++ reference :: rest).Nodup)
    (hsame : ∀ n ∈ visited, bindings.find? n = p.bindings.find? n) (key : String)
    (target : AliasTarget) :
    scope.aliases.find? key = some target ↔ tree.aliasKey? target.node = some key ∧
      tree.Knows (visited ++ reference :: rest) bindings scope.owner reference target.node
        target.source := by
  have hvisited : visited.Nodup := (List.nodup_append.1 hnodup).1
  constructor
  · intro htarget
    obtain ⟨hkey, hbinding, hencloses⟩ := hp.of_scope hscope htarget
    have hseen : target.node ∈ visited := hp.seen (by simp [hbinding])
    refine ⟨hkey, by simp [hkey], hencloses, (hsame _ hseen).trans hbinding, ?_, ?_⟩
    · exact pair_sublist_append hseen List.mem_cons_self
    · intro other hbetween hother hkeys
      have horder := sublist_of_append_singleton [target.node, other] hnodup hbetween
      rw [hsame other (horder.subset (by simp))]
      by_contra hbound
      obtain ⟨target', htarget', hlast⟩ := hp.exists_target hscope hshape howners hother
        (hkeys.trans hkey) (Option.isSome_iff_ne_none.2 hbound)
      obtain rfl := Option.some.inj (htarget.symm.trans htarget')
      rcases hlast with rfl | hlast
      · exact not_sublist_swap hvisited horder horder
      · exact not_sublist_swap hvisited horder hlast
  · rintro ⟨hkey, hknows⟩
    have hseen : target.node ∈ visited := List.singleton_sublist.1
      (sublist_of_append_singleton [target.node] hnodup hknows.before)
    have hbinding : p.bindings.find? target.node = some (.table target.source) :=
      (hsame _ hseen).symm.trans hknows.found
    obtain ⟨target', htarget', hlast⟩ := hp.exists_target hscope hshape howners hknows.inside hkey
      (by simp [hbinding])
    obtain ⟨hkey', hbinding', hencloses'⟩ := hp.of_scope hscope htarget'
    rcases hlast with hnode | hlast
    · have htargets : target' = target := by
        rw [← hnode, hbinding] at hbinding'
        cases target
        cases target'
        cases hnode
        cases hbinding'
        rfl
      rw [htarget', htargets]
    · -- A table that took the alias later is one that was found.
      have hnone := hknows.latest target'.node
        (hlast.append (List.singleton_sublist.2 List.mem_cons_self)) hencloses'
        (hkey'.trans hkey.symm)
      rw [hsame _ (hlast.subset (by simp)), hbinding'] at hnone
      cases hnone

namespace Walk

variable {tree : Tree} {s : Surroundings} {q : Progress} {l : List Step}
  {root owner n clause reference : NodeId} {name : String}

/-- The walk over a projected column that is a name. -/
theorem Spells.column_eq {column : NodeId} {aliasName : Option String}
    (h : Spells tree owner (.visit column) l) (hlegal : Legal l)
    (hcolumn : tree.get? column = some (.columnExpression reference aliasName))
    (hreference : tree.get? reference = some (.columnReference name)) :
    l = [.useColumn reference name] := by
  have hstages : stages tree column = [.visit reference] := by simp [stages, hcolumn, nodeStages]
  have hstages' : stages tree reference = [.own (.useColumn reference name)] := by
    simp [stages, hreference, nodeStages]
  rcases h.visit_cases with ⟨word, rfl, hword⟩ | ⟨fault, rfl⟩
  · rw [hstages] at hword hlegal ⊢
    rw [List.flatMap_singleton] at hlegal ⊢
    rcases (hword _ (List.mem_singleton_self _)).visit_cases with ⟨word', heq, hword'⟩ |
      ⟨fault, heq⟩
    · rw [hstages'] at hword' heq
      rw [List.flatMap_singleton] at heq
      rw [heq] at hlegal ⊢
      exact (hword' _ (List.mem_singleton_self _)).own_eq hlegal
    · exact (hlegal fault (by simp [heq])).elim
  · exact (hlegal fault (List.mem_singleton_self _)).elim

theorem subjects_useColumn (done rest : List Step) :
    subjects (done ++ .useColumn reference name :: rest) =
      subjects done ++ reference :: subjects rest := by
  simp [subjects, Step.subject?]

/-- A block visits its clause and all its columns, the clause first. -/
theorem exists_split_blockBody {b : SelectExpression} {column : NodeId}
    (hclause : b.source = some clause) (hcolumn : column ∈ b.columns) :
    ∃ front behind, blockBody b = front ++ .visit column :: behind ∧
      .visit clause ∈ front ∧ ∀ stage ∈ front, stage.isQuiet := by
  obtain ⟨first, others, hcolumns⟩ := List.append_of_mem hcolumn
  obtain ⟨behind, hbody⟩ : ∃ behind, blockBody b =
      (.visit clause :: (visitOption b.top ++ visitAll first)) ++ .visit column :: behind := by
    simp [blockBody, hclause, hcolumns, visitOption, visitAll]
  refine ⟨_, behind, hbody, List.mem_cons_self, fun stage hstage => ?_⟩
  rcases List.mem_cons.1 hstage with rfl | hstage
  · rfl
  · rcases List.mem_append.1 hstage with htop | hfirst
    · obtain ⟨_, -, rfl⟩ := List.mem_map.1 htop
      rfl
    · obtain ⟨_, -, rfl⟩ := List.mem_map.1 hfirst
      rfl

section

variable (hspells : Spells tree root (.visit root) l) (hlegal : Legal l)
  (hreach : tree.Reaches root n) (hprojects : tree.ProjectsPlain n clause reference name)

include hspells hlegal hreach hprojects

/-- **The place of a projected name.**  It is visited in the scope of its block, behind all of
the clause. -/
theorem exists_split_of_column :
    ∃ before correlated middle rest,
      l = before ++ .enter n .selectExpression correlated ::
        (middle ++ .useColumn reference name :: rest) ∧
      Balanced middle ∧ Finished tree middle clause := by
  obtain ⟨b, column, aliasName, hx, hclause, hmem, hcolumn⟩ := hprojects.block
  obtain ⟨correlated, word, hword, hpart⟩ := hspells.holds_block hlegal rfl hreach hx
  obtain ⟨front, behind, hbody, hfront, hquiet⟩ := exists_split_blockBody hclause hmem
  have hlegal' : Legal ((block n b correlated).flatMap word) :=
    fun fault hfault => hlegal fault (hpart.subset hfault)
  have hin : ∀ stage ∈ blockBody b, stage ∈ block n b correlated := by
    intro stage hstage
    simp [block, inScope, hstage]
  have hinFront : ∀ stage ∈ front, stage ∈ block n b correlated := by
    intro stage hstage
    exact hin stage (by simp [hbody, hstage])
  have hvisit : word (.visit column) = [.useColumn reference name] := by
    have hstage : Stage.visit column ∈ block n b correlated := hin _ (by simp [hbody])
    exact (hword _ hstage).column_eq (hlegal'.of_mem_flatMap hstage) hcolumn hprojects.reference
  obtain ⟨before, after, rfl⟩ := hpart
  refine ⟨before, correlated, front.flatMap word, behind.flatMap word ++ .leave :: after,
    ?_, ?_, ?_⟩
  · rw [block, inScope_eq hword hlegal', hbody]
    simp [hvisit]
  · refine .flatMap fun stage hstage => ?_
    have hstage' := hinFront stage hstage
    exact (hword _ hstage').balanced (hlegal'.of_mem_flatMap hstage') (hquiet stage hstage)
  · have hstage' := hinFront _ hfront
    have hcovers := (hword _ hstage').covers (hlegal'.of_mem_flatMap hstage') rfl
    have hfinished : Finished tree (word (.visit clause)) clause := hcovers.complete
    exact hfinished.mono fun step hstep => List.mem_flatMap.2 ⟨_, hfront, hstep⟩

end

/-- A scope that was entered is current again behind steps that leave what they enter. -/
theorem exists_scope_of_entered {p : Progress} {before middle : List Step} {kind : NodeKind}
    {correlated : Bool} (hbalanced : Balanced middle)
    (h : run s (before ++ .enter n kind correlated :: middle) p = .finished q) :
    ∃ id scope, q.scopes.current = some id ∧ q.scopes.get? id = some scope ∧ scope.owner = n := by
  obtain ⟨p₀, -, hinside⟩ := run_append_eq_finished h
  obtain ⟨p₁, henter, hmiddle⟩ := run_cons_eq_finished hinside
  simp only [Step.perform] at henter
  obtain ⟨scopes, hscopes, rfl⟩ := Step.changeScopes_eq_finished henter
  have hreturns := hbalanced.returns hmiddle
  obtain ⟨hcurrent, hget⟩ := ScopeTree.get?_of_enter hscopes
  obtain ⟨scope, hscope, hframe⟩ := ScopeTree.exists_of_frame
    (ScopeTree.frame_persists hreturns.frames (ScopeTree.frame_of_get? hget))
  exact ⟨_, scope, hreturns.current.trans hcurrent, hscope, congrArg Frame.owner hframe⟩

/-- **The scope of a projected name.**  When the name is visited, its block has the tables that the
name knows, and the name is bound to what it is resolved to among them. -/
theorem exists_scope_of_column (hshape : s.tree.TreeShaped)
    (hspells : Spells s.tree root (.visit root) l) (hrun : run s l {} = .finished q)
    (hreach : s.tree.Reaches root n) (hprojects : s.tree.ProjectsPlain n clause reference name) :
    ∃ (scopes : ScopeTree) (scope : Scope), scopes.currentScope? = some scope ∧
      (∀ key target, scope.aliases.find? key = some target ↔
        s.tree.aliasKey? target.node = some key ∧
          s.tree.Knows (subjects l) q.bindings n reference target.node target.source) ∧
      q.bindings.find? reference = scopes.resolveColumn s.tree s.strict "" name := by
  have hlegal := legal_of_run hrun
  have hnodup := (hspells.covers hlegal rfl).nodup hshape
  have hkeeps : Keeps s (Step.InPlace s.tree) l {} := hspells.keeps_inPlace rfl nofun
  have hfits := hspells.fits trivial
  obtain ⟨before, correlated, middle, rest, hl, hbalanced, -⟩ :=
    exists_split_of_column hspells hlegal hreach hprojects
  obtain ⟨done, hdone⟩ : ∃ done, done = before ++ .enter n .selectExpression correlated :: middle :=
    ⟨_, rfl⟩
  have hsplit : l = done ++ ([.useColumn reference name] ++ rest) := by simp [hl, hdone]
  have horder : subjects l = subjects done ++ reference :: subjects rest :=
    hsplit ▸ subjects_useColumn done rest
  rw [hsplit] at hrun hkeeps hfits
  obtain ⟨p, hdoneRun, hlast⟩ := run_append_eq_finished hrun
  obtain ⟨p', hstep, hend⟩ := run_cons_eq_finished hlast
  obtain ⟨hfresh, hkept⟩ :=
    run_frame (hsplit ▸ hnodup) hdoneRun hend (List.mem_singleton_self reference)
  have hnodup' : (subjects done).Nodup :=
    hnodup.sublist (horder ▸ List.sublist_append_left _ _)
  have haliased : p.Aliased s.tree (subjects done) := run_aliased hdoneRun
    (Progress.aliased_empty _) hkeeps.left
    (fun step hstep => hfits step (List.mem_append_left _ hstep)) hnodup'
  have hsame : ∀ m ∈ subjects done, q.bindings.find? m = p.bindings.find? m := by
    intro m hm
    exact run_find?_of_not_mem hlast (not_mem_subjects_of_nodup (hsplit ▸ hnodup) hm)
  have howners : (p.scopes.frames.map Frame.owner).Nodup := by
    rw [run_owners hdoneRun]
    exact hnodup'.sublist (filterMap_sublist_subjects (fun _ _ => Step.subject?_of_entered?) done)
  obtain ⟨id, scope, hcurrent, hscope, rfl⟩ := exists_scope_of_entered hbalanced (hdone ▸ hdoneRun)
  refine ⟨p.scopes, scope, ?_, fun key target => ?_,
    hkept.trans (Step.find?_of_useColumn hstep hprojects.plain hfresh)⟩
  · rw [ScopeTree.currentScope?, hcurrent, Option.bind_some, hscope]
  · rw [horder] at hnodup ⊢
    exact haliased.find?_aliases_iff hscope hshape howners hnodup hsame key target

/-- The tables of a block are visited before a name that the block projects. -/
theorem visited_before_column (hspells : Spells tree root (.visit root) l) (hlegal : Legal l)
    (hreach : tree.Reaches root n) (hprojects : tree.ProjectsPlain n clause reference name)
    {table : NodeId} (hjoins : tree.Joins clause table) :
    [table, reference].Sublist (subjects l) := by
  obtain ⟨before, correlated, middle, rest, rfl, -, hfinished⟩ :=
    exists_split_of_column hspells hlegal hreach hprojects
  obtain ⟨x, hx, hstep, -⟩ := hjoins.exists_step
  have hmem : table ∈ subjects (before ++ .enter n .selectExpression correlated :: middle) := by
    refine hfinished.mono ?_ table x hjoins.reaches hx hstep
    simp
  rw [← List.cons_append, ← List.append_assoc, subjects_useColumn]
  exact pair_sublist_append hmem List.mem_cons_self

/-- A reference that is left without a binding is reported. -/
theorem reported_of_unbound (hshape : tree.TreeShaped)
    (hspells : Spells tree root (.visit root) l) (hrun : run s l {} = .finished q)
    (hreach : tree.Reaches root n) (href : tree.IsReference n)
    (hunbound : q.bindings.find? n = none) : tree.Reported q.diagnostics.toList n := by
  have hnodup := (hspells.covers (legal_of_run hrun) rfl).nodup hshape
  exact ⟨unresolved q.bindings l, hnodup.sublist (unresolved_sublist q.bindings l),
    (mem_unresolved_iff hrun hspells).2 ⟨hreach, href, hunbound⟩,
    forall₂_diagnostics hrun hspells hshape⟩

end Walk

/-- A scope with the tables that a reference knows resolves a name to the only column among them. -/
theorem Scope.unqualified?_eq_some_iff_knowsOnly {scope : Scope} {tree : Tree}
    {order : List NodeId} {bindings : Bindings} {n reference : NodeId} {name : String}
    {b : Binding} (hknown : ∀ key target, scope.aliases.find? key = some target ↔
      tree.aliasKey? target.node = some key ∧
        tree.Knows order bindings n reference target.node target.source) :
    scope.unqualified? tree true name = some b ↔
      tree.KnowsOnly order bindings n reference name b := by
  rw [unqualified?_eq_some_iff]
  constructor
  · rintro ⟨key, target, hfind, hcolumn, honly⟩
    obtain ⟨-, hknows⟩ := (hknown key target).1 hfind
    refine ⟨target.node, target.source, hcolumn, hknows, fun other source' hcolumn' hknows' => ?_⟩
    obtain ⟨key', hkey'⟩ := Option.isSome_iff_exists.1 hknows'.hasAlias
    have hfind' := (hknown key' ⟨other, source'⟩).2 ⟨hkey', hknows'⟩
    obtain rfl := honly key' _ hfind' hcolumn'
    exact congrArg AliasTarget.node (Option.some.inj (hfind'.symm.trans hfind))
  · rintro ⟨table, source, hcolumn, hknows, honly⟩
    obtain ⟨key, hkey⟩ := Option.isSome_iff_exists.1 hknows.hasAlias
    refine ⟨key, ⟨table, source⟩, (hknown key ⟨table, source⟩).2 ⟨hkey, hknows⟩, hcolumn, ?_⟩
    intro key' target' hfind' hcolumn'
    obtain ⟨hkey', hknows'⟩ := (hknown key' target').1 hfind'
    rw [honly _ _ hcolumn' hknows', hkey] at hkey'
    exact (Option.some.inj hkey').symm

/-- **Ambiguous names are reported.**  Under strict rules a tree-shaped script is bound without a
failure of the schema, and a query block anywhere in it projects a name without a qualifier.  If
two tables that the clause of the block joins have a column of the name, and each keeps its alias,
then the name is left without a binding and reported.  It has a binding exactly if a single table
that it knows has such a column, and then it is bound to that one. -/
theorem ambiguous_columns_are_reported {config : Config} {tree : Tree} {provider : Provider}
    {root n clause reference : NodeId} {name : String} {bound : BoundScript}
    (hstrict : config.strict = true) (hshape : tree.TreeShaped)
    (hbind : bindScript config tree provider root = .ok bound)
    (hschema : ∀ detail, Diagnostic.schema detail ∉ bound.diagnostics)
    (hreach : tree.Reaches root n) (hprojects : tree.ProjectsPlain n clause reference name) :
    (∀ table table' source source', tree.Joins clause table → tree.Joins clause table' →
      table ≠ table' → bound.bindings.find? table = some (.table source) →
      bound.bindings.find? table' = some (.table source') →
      (tree.columnOf? source name).isSome → (tree.columnOf? source' name).isSome →
      tree.KeepsAlias (tree.visits config.maxDepth root) bound.bindings n reference table →
      tree.KeepsAlias (tree.visits config.maxDepth root) bound.bindings n reference table' →
      bound.bindings.find? reference = none ∧ tree.Reported bound.diagnostics reference) ∧
    ∀ b, bound.bindings.find? reference = some b ↔
      tree.KnowsOnly (tree.visits config.maxDepth root) bound.bindings n reference name b := by
  obtain ⟨q, hrun, rfl⟩ := exists_run_of_bindScript hbind hschema
  have hspells : Walk.Spells tree root _ _ := Walk.walk_spells config.maxDepth root
  obtain ⟨scopes, scope, hscope, hknown, hfound⟩ :=
    Walk.exists_scope_of_column hshape hspells hrun hreach hprojects
  rw [hstrict, ScopeTree.resolveColumn_plain hscope] at hfound
  have honly : ∀ b, q.bindings.find? reference = some b ↔
      tree.KnowsOnly (tree.visits config.maxDepth root) q.bindings n reference name b := by
    intro b
    rw [hfound]
    exact Scope.unqualified?_eq_some_iff_knowsOnly hknown
  refine ⟨?_, honly⟩
  intro table table' source source' hjoins hjoins' hne hsource hsource' hcolumn hcolumn' hkeeps
    hkeeps'
  have hknows : ∀ {table source}, tree.Joins clause table →
      q.bindings.find? table = some (.table source) →
      tree.KeepsAlias (tree.visits config.maxDepth root) q.bindings n reference table →
      tree.Knows (tree.visits config.maxDepth root) q.bindings n reference table source := by
    intro table source hjoins hsource hkeeps
    obtain ⟨-, -, -, halias⟩ := hjoins.exists_step
    exact ⟨halias, hjoins.encloses hprojects.encloses, hsource,
      Walk.visited_before_column hspells (Walk.legal_of_run hrun) hreach hprojects hjoins, hkeeps⟩
  have hunbound : q.bindings.find? reference = none := by
    cases hbinding : q.bindings.find? reference with
    | none => rfl
    | some b =>
        obtain ⟨single, -, -, -, hsingle⟩ := (honly b).1 hbinding
        have heq := hsingle _ _ hcolumn (hknows hjoins hsource hkeeps)
        have heq' := hsingle _ _ hcolumn' (hknows hjoins' hsource' hkeeps')
        exact (hne (heq.trans heq'.symm)).elim
  refine ⟨hunbound, Walk.reported_of_unbound hshape hspells hrun ?_ ?_ hunbound⟩
  · exact hprojects.reaches hreach
  · exact ⟨.column, name, .columnName hprojects.reference⟩

/-- A schema object with a number. -/
def paymentsDefinition : Definition :=
  ⟨10, "Payments", "t_payments", [.ofType "Total" "c_sum" (.ofKind .numeric)]⟩

/-- A schema object with a text and a number of the same name. -/
def refundsDefinition : Definition :=
  ⟨12, "Refunds", "t_refunds",
    [.ofType "Reason" "c_reason" (.ofKind .string), .ofType "Total" "c_total" (.ofKind .numeric)]⟩

/-- The catalog of payments and refunds. -/
def totalsCatalog : Catalog :=
  ⟨.ofList [("payments", paymentsDefinition), ("refunds", refundsDefinition)], .empty⟩

/-- A query that joins payments, refunds under the same alias, and a derived table.  All three
have a total. -/
def joinedTotals : Tree :=
  ⟨#[.tableReference "Payments" (some "x"), .tableReference "Refunds" (some "X"),
    .tableReference "Payments" none, .columnReference "Total", .columnExpression 3 none,
    .selectExpression { columns := [4], source := some 2 }, .tableExpression 5 "z",
    .tableJoin .left 1 6 none, .tableJoin .inner 0 7 none, .columnReference "Total",
    .columnExpression 9 (some "sum"), .selectExpression { columns := [10], source := some 8 },
    .select none 11, .script [12]]⟩

/-- The payments have lost their alias to the refunds, but the refunds and the derived table are
still two tables with a total.  Inside of the derived table there is only one. -/
theorem joinedTotals_are_reported :
    ∃ bound, bindScript { strict := true } joinedTotals totalsCatalog.toProvider 13 = .ok bound ∧
      joinedTotals.TreeShaped ∧ bound.diagnostics = [.unresolved .column "Total"] ∧
      joinedTotals.ProjectsPlain 11 8 9 "Total" ∧ joinedTotals.ProjectsPlain 5 2 3 "Total" ∧
      bound.bindings.find? 1 = some (.table (.entity refundsDefinition)) ∧
      bound.bindings.find? 6 = some (.table (.derived 5)) ∧
      (bound.bindings.find? 9 = none ∧ joinedTotals.Reported bound.diagnostics 9) ∧
      joinedTotals.KnowsOnly (joinedTotals.visits 256 13) bound.bindings 5 3 "Total"
        (.property paymentsDefinition 0) := by
  obtain ⟨bound, hbind, hdiagnostics, hrefunds, hderived, hinner, hlatest⟩ :
      ∃ bound, bindScript { strict := true } joinedTotals totalsCatalog.toProvider 13 = .ok bound ∧
        bound.diagnostics = [.unresolved .column "Total"] ∧
        bound.bindings.find? 1 = some (.table (.entity refundsDefinition)) ∧
        bound.bindings.find? 6 = some (.table (.derived 5)) ∧
        bound.bindings.find? 3 = some (.property paymentsDefinition 0) ∧
        ∀ table ∈ [1, 6], ∀ other ∈ joinedTotals.visits 256 13,
          [table, other, 9].Sublist (joinedTotals.visits 256 13) →
          joinedTotals.aliasKey? other = joinedTotals.aliasKey? table →
          bound.bindings.find? other = none :=
    ⟨_, rfl, rfl, rfl, rfl, rfl, by decide +kernel⟩
  have hshape : joinedTotals.TreeShaped := by decide
  have hschema : ∀ detail, Diagnostic.schema detail ∉ bound.diagnostics := by simp [hdiagnostics]
  have houter : joinedTotals.ProjectsPlain 11 8 9 "Total" :=
    ⟨⟨_, 10, _, rfl, rfl, by decide, rfl⟩, rfl, by decide⟩
  have hplain : joinedTotals.ProjectsPlain 5 2 3 "Total" :=
    ⟨⟨_, 4, _, rfl, rfl, by decide, rfl⟩, rfl, by decide⟩
  have hselect : joinedTotals.Reaches 13 12 := .single ⟨_, rfl, by decide⟩
  have hreach : joinedTotals.Reaches 13 11 := hselect.tail ⟨_, rfl, by decide⟩
  have hclause : joinedTotals.Reaches 13 8 := hreach.tail ⟨_, rfl, by decide⟩
  have hjoin : joinedTotals.Reaches 13 7 := hclause.tail ⟨_, rfl, by decide⟩
  have htable : joinedTotals.Reaches 13 6 := hjoin.tail ⟨_, rfl, by decide⟩
  have hreach' : joinedTotals.Reaches 13 5 := htable.tail ⟨_, rfl, by decide⟩
  have hkeeps : ∀ table ∈ [1, 6], joinedTotals.KeepsAlias (joinedTotals.visits 256 13)
      bound.bindings 11 9 table := by
    intro table hmem other hbetween _ hkey
    exact hlatest table hmem other (hbetween.subset (by simp)) hbetween hkey
  refine ⟨bound, hbind, hshape, hdiagnostics, houter, hplain, hrefunds, hderived, ?_, ?_⟩
  · exact (ambiguous_columns_are_reported rfl hshape hbind hschema hreach houter).1 1 6 _ _
      (.right rfl (.left rfl (.reference rfl))) (.right rfl (.right rfl (.derived rfl)))
      (by decide) hrefunds hderived (by decide) (by decide) (hkeeps 1 (by decide))
      (hkeeps 6 (by decide))
  · exact ((ambiguous_columns_are_reported rfl hshape hbind hschema hreach' hplain).2 _).1 hinner

/-- A query that joins payments and refunds under aliases that differ in case only. -/
def sameAliases : Tree :=
  ⟨#[.tableReference "Payments" (some "x"), .tableReference "Refunds" (some "X"),
    .tableJoin .inner 0 1 none, .columnReference "Total", .columnExpression 3 none,
    .selectExpression { columns := [4], source := some 2 }, .select none 5, .script [6]]⟩

/-- **Ambiguity behind one alias.**  Both tables are bound and have a total, and nothing is
reported: the name stands for the total of the later table. -/
theorem sameAliases_take_the_later_total :
    sameAliases.TreeShaped ∧ sameAliases.Reaches 7 5 ∧ sameAliases.ProjectsPlain 5 2 3 "Total" ∧
      sameAliases.Joins 2 0 ∧ sameAliases.Joins 2 1 ∧
      (sameAliases.columnOf? (.entity paymentsDefinition) "Total").isSome ∧
      (sameAliases.columnOf? (.entity refundsDefinition) "Total").isSome ∧
      ∃ bound, bindScript { strict := true } sameAliases totalsCatalog.toProvider 7 = .ok bound ∧
        bound.bindings.find? 0 = some (.table (.entity paymentsDefinition)) ∧
        bound.bindings.find? 1 = some (.table (.entity refundsDefinition)) ∧
        bound.bindings.find? 3 = some (.property refundsDefinition 1) ∧
        bound.diagnostics = [] := by
  have hselect : sameAliases.Reaches 7 6 := .single ⟨_, rfl, by decide⟩
  refine ⟨by decide, hselect.tail ⟨_, rfl, by decide⟩, ?_, ?_, ?_, by decide, by decide,
    _, rfl, rfl, rfl, rfl, rfl⟩
  · exact ⟨⟨_, 4, _, rfl, rfl, by decide, rfl⟩, rfl, by decide⟩
  · exact .left rfl (.reference rfl)
  · exact .right rfl (.reference rfl)

end UnionScript
