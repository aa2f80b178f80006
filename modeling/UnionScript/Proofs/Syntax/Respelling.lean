import UnionScript.Proofs.Scope.Likeness
import UnionScript.Proofs.Syntax.Leftmost
import UnionScript.Proofs.Text.Lowercase
import UnionScript.Walk.Perform

/-!
# Trees that differ in the case of names

Names are compared under their keys, but not always as a whole: the qualifier and the
last part of a dotted name have keys of their own, and so has a variable without its
at-signs.  A text *respells* another when all of these keys are the same.  (They do
not follow from one another: a capital sigma before a dot is lower-cased by what
stands behind the dot.)

A tree respells another when its nodes are the same up to respelled names.  Such trees
project the same columns (`Tree.Respelled.columnOf?`), and under bindings that are the
same up to respelled names all nodes have the same types
(`Typing.infer?_type_of_respelled`).
-/

namespace UnionScript

/-- A text is the same name as another, and so is each of its parts. -/
structure Respells (a b : String) : Prop where
  whole : nameKey a = nameKey b
  qualifier : nameKey (splitQualified a).1 = nameKey (splitQualified b).1
  last : nameKey (lastPart a) = nameKey (lastPart b)
  bare : nameKey (bareVariable a) = nameKey (bareVariable b)

instance (a b : String) : Decidable (Respells a b) :=
  decidable_of_iff (nameKey a = nameKey b ∧
      nameKey (splitQualified a).1 = nameKey (splitQualified b).1 ∧
      nameKey (lastPart a) = nameKey (lastPart b) ∧
      nameKey (bareVariable a) = nameKey (bareVariable b))
    ⟨fun h => ⟨h.1, h.2.1, h.2.2.1, h.2.2.2⟩, fun h => ⟨h.whole, h.qualifier, h.last, h.bare⟩⟩

theorem Respells.refl (a : String) : Respells a a :=
  ⟨rfl, rfl, rfl, rfl⟩

theorem sameName_congr {a a' b b' : String} (ha : nameKey a = nameKey a')
    (hb : nameKey b = nameKey b') : sameName a b = sameName a' b' := by
  unfold sameName
  rw [ha, hb]

/-- Nodes that hold the same nodes, and the same names up to respelling. -/
inductive Node.Respelled : Node → Node → Prop
  | same (x : Node) : Respelled x x
  | declare {name name' : String} (h : Respells name name') (type : NodeId)
      (initializer : Option NodeId) :
      Respelled (.declare name type initializer) (.declare name' type initializer)
  | typeIdentifier {name name' : String} (h : Respells name name') :
      Respelled (.typeIdentifier name) (.typeIdentifier name')
  | commonTable {name name' : String} (h : Respells name name') (query : NodeId) :
      Respelled (.commonTable name query) (.commonTable name' query)
  | tableReference {identifier identifier' : String} (h : Respells identifier identifier')
      {aliasName aliasName' : Option String} (ha : Option.Rel Respells aliasName aliasName') :
      Respelled (.tableReference identifier aliasName) (.tableReference identifier' aliasName')
  | tableExpression (query : NodeId) {aliasName aliasName' : String}
      (h : Respells aliasName aliasName') :
      Respelled (.tableExpression query aliasName) (.tableExpression query aliasName')
  | columnExpression (expression : NodeId) {aliasName aliasName' : Option String}
      (ha : Option.Rel Respells aliasName aliasName') :
      Respelled (.columnExpression expression aliasName) (.columnExpression expression aliasName')
  | columnReference {identifier identifier' : String} (h : Respells identifier identifier') :
      Respelled (.columnReference identifier) (.columnReference identifier')
  | variableReference {name name' : String} (h : Respells name name') :
      Respelled (.variableReference name) (.variableReference name')
  | functionCall {name name' : String} (h : Respells name name') (arguments : List NodeId)
      (window : Option NodeId) :
      Respelled (.functionCall name arguments window) (.functionCall name' arguments window)
  | into {target target' : String} (h : Respells target target') :
      Respelled (.into target) (.into target')

/-- Trees whose nodes are the same up to respelled names. -/
def Tree.Respelled (t t' : Tree) : Prop :=
  ∀ n, Option.Rel Node.Respelled (t.get? n) (t'.get? n)

/-- Trees are respelled node by node. -/
theorem Tree.respelled_of_nodes {t t' : Tree}
    (h : List.Forall₂ Node.Respelled t.nodes.toList t'.nodes.toList) : t.Respelled t' := by
  intro n
  unfold Tree.get?
  rw [← Array.getElem?_toList, ← Array.getElem?_toList]
  generalize t.nodes.toList = nodes at h ⊢
  generalize t'.nodes.toList = nodes' at h ⊢
  induction h generalizing n with
  | nil => exact .none
  | cons hx _ ih =>
      cases n with
      | zero => exact .some hx
      | succ n => exact ih n

/-- Tables that are the same up to the names recorded with them. -/
inductive TableSource.Respelled : TableSource → TableSource → Prop
  | same (source : TableSource) : Respelled source source
  | parameter {name name' : String} (h : Respells name name') (definition : Definition) :
      Respelled (.parameter name definition) (.parameter name' definition)
  | temporaryTable {name name' : String} (h : Respells name name') (source : NodeId) :
      Respelled (.temporaryTable name source) (.temporaryTable name' source)
  | tableVariable {name name' : String} (h : Respells name name') (source : NodeId) :
      Respelled (.tableVariable name source) (.tableVariable name' source)

/-- Bindings that are the same up to the names recorded with tables. -/
inductive Binding.Respelled : Binding → Binding → Prop
  | same (b : Binding) : Respelled b b
  | table {source source' : TableSource} (h : source.Respelled source') :
      Respelled (.table source) (.table source')

/-- A node that is bound to a table is bound to a table under both spellings. -/
theorem Binding.Respelled.table? {b b' : Binding} (h : b.Respelled b') :
    Option.Rel TableSource.Respelled b.table? b'.table? := by
  cases h with
  | table h => exact .some h
  | same =>
      cases b with
      | table source => exact .some (.same source)
      | _ => exact .none

namespace Tree.Respelled

variable {t t' : Tree} (h : t.Respelled t')

include h

theorem size : t.size = t'.size := by
  have hlt : ∀ n, n < t.size ↔ n < t'.size := by
    intro n
    have hget : (t.get? n).isSome ↔ (t'.get? n).isSome := by
      rcases rel_cases (h n) with ⟨hx, hx'⟩ | ⟨x, x', hx, hx', -⟩
      · rw [hx, hx']
      · rw [hx, hx', Option.isSome_some, Option.isSome_some]
    simpa [Tree.get?, Tree.size] using hget
  have hle := (hlt t'.size).not.2 (Nat.lt_irrefl _)
  have hge := (hlt t.size).not.1 (Nat.lt_irrefl _)
  omega

/-- The last parts of names have the same keys. -/
theorem referenceName? (expression : NodeId) :
    Option.Rel (fun own own' => nameKey own = nameKey own') (t.referenceName? expression)
      (t'.referenceName? expression) := by
  unfold Tree.referenceName?
  rcases rel_cases (h expression) with ⟨hx, hx'⟩ | ⟨x, x', hx, hx', hsame⟩
  · rw [hx, hx']
    exact .none
  · rw [hx, hx']
    cases hsame with
    | columnReference hs => exact .some hs.last
    | variableReference hs => exact .some hs.bare
    | same =>
        cases x with
        | columnReference | variableReference => exact .some rfl
        | _ => exact .none
    | declare | typeIdentifier | commonTable | tableReference | tableExpression
    | columnExpression | functionCall | into => exact .none

/-- Projected columns have the same names of their own. -/
theorem columnName? (column : NodeId) :
    Option.Rel (fun own own' => nameKey own = nameKey own') (t.columnName? column)
      (t'.columnName? column) := by
  unfold Tree.columnName?
  rcases rel_cases (h column) with ⟨hx, hx'⟩ | ⟨x, x', hx, hx', hsame⟩
  · rw [hx, hx']
    exact .none
  · rw [hx, hx']
    cases hsame with
    | columnExpression expression ha =>
        cases ha with
        | none => exact h.referenceName? expression
        | some ha => exact .some ha.whole
    | same =>
        cases x with
        | columnExpression expression aliasName =>
            cases aliasName with
            | none => exact h.referenceName? expression
            | some aliasName => exact .some rfl
        | _ => exact .none
    | declare | typeIdentifier | commonTable | tableReference | tableExpression
    | columnReference | variableReference | functionCall | into => exact .none

/-- A node projects a column under the same names. -/
theorem projects {name name' : String} (hname : nameKey name = nameKey name') (column : NodeId) :
    t.projects name column = t'.projects name' column := by
  rw [Tree.projects_eq, Tree.projects_eq]
  rcases rel_cases (h.columnName? column) with ⟨hown, hown'⟩ | ⟨own, own', hown, hown', hsame⟩
  · rw [hown, hown', Option.any_none, Option.any_none]
  · rw [hown, hown', Option.any_some, Option.any_some]
    exact sameName_congr hsame hname

/-- Row sources project the same columns. -/
theorem projectionWithin (fuel : Nat) (n : NodeId) :
    t.projectionWithin fuel n = t'.projectionWithin fuel n := by
  induction fuel generalizing n with
  | zero => rfl
  | succ fuel ih =>
      unfold Tree.projectionWithin
      rcases rel_cases (h n) with ⟨hx, hx'⟩ | ⟨x, x', hx, hx', hsame⟩
      · rw [hx, hx']
      · rw [hx, hx']
        cases hsame with
        | same => cases x <;> simp only [ih]
        | commonTable _ query => exact ih query
        | declare | typeIdentifier | tableReference | tableExpression | columnExpression
        | columnReference | variableReference | functionCall | into => rfl

/-- **Columns of tables.**  Tables that are the same up to recorded names have the same
column under one name. -/
theorem columnOf? {source source' : TableSource} (hsource : source.Respelled source')
    {name name' : String} (hname : nameKey name = nameKey name') :
    t.columnOf? source name = t'.columnOf? source' name' := by
  have hcolumn : ∀ n, t.projectedColumn? n name = t'.projectedColumn? n name' := by
    intro n
    unfold projectedColumn? projection
    rw [h.size, h.projectionWithin, funext (h.projects hname)]
  have hindex : ∀ d : Definition, d.indexOf? name = d.indexOf? name' := by
    intro d
    unfold Definition.indexOf?
    rw [funext fun p : Property => sameName_congr (rfl : nameKey p.name = _) hname]
  have hdefinition : source.definition? = source'.definition? := by cases hsource <;> rfl
  have hnode : source.node? = source'.node? := by cases hsource <;> rfl
  unfold Tree.columnOf?
  rw [hdefinition, hnode]
  simp only [hindex, hcolumn]

end Tree.Respelled

namespace Typing

variable {infer infer' : NodeId → Option Inferred} {bindings bindings' : Bindings}

section

variable (hinfer : ∀ n, (infer n).map Inferred.type = (infer' n).map Inferred.type)

include hinfer

/-- Merging asks for types only, so inferences that agree on them may be exchanged. -/
theorem merged_type_congr (nodes : List NodeId) :
    (merged infer nodes).type = (merged infer' nodes).type := by
  simp only [merged, List.map_filterMap, hinfer]

/-- Respelled bindings give a column the same type, whatever its name. -/
theorem column_type_congr (identifier identifier' : String) {b b' : Binding}
    (hb : b.Respelled b') :
    (column infer identifier b).map Inferred.type =
      (column infer' identifier' b').map Inferred.type := by
  cases hb with
  | table => rfl
  | same =>
      cases b with
      | column projected =>
          simpa [column, Function.comp_def, Inferred.rename] using hinfer projected
      | _ => rfl

/-- **One link.**  Respelled nodes have the same type if those that they lead to do. -/
theorem node_type_congr (hbindings : bindings.Alike Binding.Respelled bindings') (n : NodeId)
    {x x' : Node} (hx : x.Respelled x') :
    (node infer bindings n x).map Inferred.type =
      (node infer' bindings' n x').map Inferred.type := by
  have hcolumn : ∀ identifier identifier',
      ((bindings.find? n).bind (column infer identifier)).map Inferred.type =
        ((bindings'.find? n).bind (column infer' identifier')).map Inferred.type := by
    intro identifier identifier'
    rcases rel_cases (hbindings.find? n) with ⟨hb, hb'⟩ | ⟨b, b', hb, hb', hsame⟩
    · rw [hb, hb', Option.bind_none, Option.bind_none]
    · rw [hb, hb', Option.bind_some, Option.bind_some]
      exact column_type_congr hinfer identifier identifier' hsame
  have hvariable : ((bindings.find? n).bind Binding.variableType?).bind VariableType.scalar? =
      ((bindings'.find? n).bind Binding.variableType?).bind VariableType.scalar? := by
    rcases rel_cases (hbindings.find? n) with ⟨hb, hb'⟩ | ⟨b, b', hb, hb', hsame⟩
    · rw [hb, hb']
    · rw [hb, hb']
      cases hsame <;> rfl
  cases hx with
  | columnReference => exact hcolumn _ _
  | variableReference => simp only [node, hvariable, Option.map_map, Function.comp_def]
  | columnExpression expression =>
      simpa [node, Function.comp_def, Inferred.rename] using hinfer expression
  | functionCall h arguments window =>
      simp only [node, builtin_of_nameKey_eq h.whole]
      split
      · rfl
      · exact congrArg some (merged_type_congr hinfer arguments)
  | declare | typeIdentifier | commonTable | tableReference | tableExpression | into => rfl
  | same =>
      cases x with
      | columnReference identifier => exact hcolumn identifier identifier
      | variableReference name => simp only [node, hvariable]
      | columnExpression expression aliasName =>
          simpa [node, Function.comp_def, Inferred.rename] using hinfer expression
      | functionCall name arguments window =>
          simp only [node]
          split
          · rfl
          · exact congrArg some (merged_type_congr hinfer arguments)
      | caseExpression branches otherwise => exact congrArg some (merged_type_congr hinfer _)
      | binary op left right => exact congrArg some (merged_type_congr hinfer _)
      | whenClause condition result => exact hinfer result
      | group expression => exact hinfer expression
      | tableUnion left right all => exact hinfer left
      | unary op operand =>
          cases op with
          | minus => simpa [node, Function.comp_def] using hinfer operand
          | not => rfl
      | selectExpression block =>
          simp only [node]
          cases block.columns.head? with
          | none => rfl
          | some column => exact hinfer column
      | _ => rfl

end

/-- **Types do not depend on spelling.** -/
theorem infer?_type_of_respelled {t t' : Tree} (ht : t.Respelled t')
    (hbindings : bindings.Alike Binding.Respelled bindings') (n : NodeId) :
    (infer? t bindings n).map Inferred.type = (infer? t' bindings' n).map Inferred.type := by
  unfold infer?
  generalize maxLinks + 1 = links
  induction links generalizing n with
  | zero => rfl
  | succ links ih =>
      unfold inferWithin
      rcases rel_cases (ht n) with ⟨hx, hx'⟩ | ⟨x, x', hx, hx', hsame⟩
      · rw [hx, hx', Option.bind_none, Option.bind_none]
      · rw [hx, hx', Option.bind_some, Option.bind_some]
        exact node_type_congr ih hbindings n hsame

/-- A reference variable is given the same object type. -/
theorem narrowed_of_respelled {t t' : Tree} (ht : t.Respelled t')
    (hbindings : bindings.Alike Binding.Respelled bindings') (initializer : Option NodeId) :
    narrowed t bindings initializer = narrowed t' bindings' initializer := by
  have hreference : ∀ n, (infer? t bindings n).bind (·.type.singleReference?) =
      (infer? t' bindings' n).bind (·.type.singleReference?) := by
    intro n
    have htype := congrArg (Option.bind · UnionType.singleReference?)
      (infer?_type_of_respelled ht hbindings n)
    simpa only [Option.bind_map, Function.comp_def] using htype
  cases initializer with
  | none => rfl
  | some n =>
      unfold narrowed
      rcases rel_cases (ht n) with ⟨hx, hx'⟩ | ⟨x, x', hx, hx', hsame⟩
      · simp only [Option.bind_some, hx, hx', hreference]
      · cases hsame with
        | same =>
            simp only [Option.bind_some, hx, hx', Option.bind_assoc, hreference]
        | _ => simp only [Option.bind_some, hx, hx', hreference]

end Typing

end UnionScript
