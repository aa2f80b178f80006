import UnionScript.Typing
import UnionScript.Walk.Resolve
import UnionScript.Walk.Step

/-!
# Taking the steps of a walk

Each step changes what is known so far: the scopes, the bindings of nodes, the diagnostics, and the
tables under assignment.  A step that cannot be taken ends the walk: if the schema failed, what was
known before the step is kept.

* `Step.perform` — one step;
* `Walk.run` — a list of steps, up to the first that cannot be taken.
-/

namespace UnionScript

/-- What names are resolved against. -/
structure Surroundings where
  tree : Tree
  provider : Provider
  strict : Bool

/-- What is known after some steps. -/
structure Progress where
  scopes : ScopeTree := .empty
  bindings : Bindings := .empty
  diagnostics : Array Diagnostic := #[]
  targets : List (Option TableSource) := []

/-- Where steps lead to: on from what is known, or to the end of the walk since the schema failed or
the tree is malformed. -/
inductive Outcome where
  | finished (progress : Progress)
  | schemaFailed (progress : Progress) (detail : String)
  | malformed (fault : StructureFault)

/-- Goes on from where steps lead to, unless the walk ended. -/
@[inline]
def Outcome.andThen (outcome : Outcome) (next : Progress → Outcome) : Outcome :=
  match outcome with
  | .finished p => next p
  | .schemaFailed p detail => .schemaFailed p detail
  | .malformed fault => .malformed fault

namespace Progress

/-- Binds a node. -/
def bind (p : Progress) (n : NodeId) (binding : Binding) : Progress :=
  { p with bindings := p.bindings.insert n binding }

/-- Reports a name that could not be resolved. -/
def report (p : Progress) (kind : NameKind) (identifier : String) : Progress :=
  { p with diagnostics := p.diagnostics.push (.unresolved kind identifier) }

/-- Changes the scopes, if that is possible. -/
def changeScopes (change : ScopeTree → Except StructureFault ScopeTree) : Progress → Outcome
  | ⟨scopes, bindings, diagnostics, targets⟩ =>
    match change scopes with
    | .ok changed => .finished ⟨changed, bindings, diagnostics, targets⟩
    | .error fault => .malformed fault

/-- Goes on with the answer of a schema, unless it failed. -/
def ask {α : Type} (p : Progress) (answer : Except Error α) (next : α → Progress → Outcome) :
    Outcome :=
  match answer with
  | .ok a => next a p
  | .error e => .schemaFailed p e.asSchemaDetail

/-- The table that a node is bound to. -/
def table? (p : Progress) (n : NodeId) : Option TableSource :=
  (p.bindings.find? n).bind Binding.table?

end Progress

/-- The initializer of a reference variable gives it an object type if it has exactly one: an
expression does by its type, a block by the type of its only column. -/
def narrowed (tree : Tree) (bindings : Bindings) (initializer : Option NodeId) : Entity :=
  let source? : Option NodeId := initializer.bind fun n =>
    match tree.get? n with
    | some (.selectExpression b) =>
      match b.columns with
      | [column] => some column
      | _ => none
    | _ => some n
  match (source?.bind (Typing.infer? tree bindings)).bind (·.type.singleReference?) with
  | some code => Entity.ofType code
  | none => Entity.undefined

/-- The type that a declaration names. -/
def declaredVariable (s : Surroundings) (bindings : Bindings) (typeName : String)
    (initializer : Option NodeId) : Except Error (Option VariableType) :=
  match Kind.ofTypeName? typeName with
  | some .entity => .ok (some (.entity (narrowed s.tree bindings initializer)))
  | some kind => .ok (some (.primitive (.ofKind kind)))
  | none => (s.provider.object typeName).map (·.map VariableType.record)

/-- The member of an enumeration that an identifier names; only those with two dots can. -/
def enumMember (s : Surroundings) (identifier : String) : Except Error (Option EnumMember) :=
  if 2 ≤ identifier.toList.count '.' then s.provider.member identifier
  else .ok none

/-- Where the rows of a statement are stored: beside the statement, so that later statements see
them.  Inside of a destructive read that is beside the read, whatever statement is nearer. -/
def storageScope? (scopes : ScopeTree) : Option ScopeId :=
  match (scopes.ancestor? .consume).or (scopes.ancestorWhere? NodeKind.isStatement) with
  | some owner => ((scopes.get? owner).bind Scope.logicalParent).or (some owner)
  | none => scopes.current

/-- The table that rows are stored in. -/
def storedTable (target : String) (source : NodeId) : TableSource :=
  if isVariableTarget target then .tableVariable target source
  else .temporaryTable target source

/-- Binds a table reference to its table and registers the alias of the table. -/
def Progress.bindTable (n : NodeId) (identifier aliasName : String) (source : Option TableSource)
    (p : Progress) : Outcome :=
  match source with
  | some source =>
    (p.bind n (.table source)).changeScopes (·.addAlias aliasName ⟨n, source⟩)
  | none => .finished (p.report .table identifier)

/-- Binds a column reference to an enumeration member or, if it names none, to a column. -/
def Progress.bindColumn (s : Surroundings) (n : NodeId) (identifier : String)
    (member : Option EnumMember) (p : Progress) : Outcome :=
  match member with
  | some member => .finished (p.bind n (.enumValue member))
  | none =>
    let (qualifier, name) := splitQualified identifier
    match p.scopes.resolveColumn s.tree s.strict qualifier name with
    | some binding => (p.bind n binding).changeScopes (·.addColumn identifier binding)
    | none => .finished (p.report .column identifier)

/-- Binds the type of a declaration and registers its variable. -/
def Progress.bindType (n : NodeId) (typeName name : String) (type : Option VariableType)
    (p : Progress) : Outcome :=
  match type with
  | some type => (p.bind n (.type type)).changeScopes (·.addVariable name type)
  | none => .finished (p.report .type typeName)

/-- Takes one step. -/
def Step.perform (s : Surroundings) : Step → Progress → Outcome
  | .enter owner kind correlated, p => p.changeScopes (·.enter owner kind correlated)
  | .leave, p => p.changeScopes ScopeTree.leave
  | .defineTable n name, p =>
    (p.bind n (.table (.commonTable n))).changeScopes (·.addTable name (.commonTable n))
  | .deriveTable n query aliasName, p =>
    (p.bind n (.table (.derived query))).changeScopes (·.addAlias aliasName ⟨n, .derived query⟩)
  | .useTable n identifier aliasName, p =>
    p.ask (p.scopes.resolveTable s.provider identifier) (Progress.bindTable n identifier aliasName)
  | .useColumn n identifier, p =>
    p.ask (enumMember s identifier) (Progress.bindColumn s n identifier)
  | .useProjection reference column, p => .finished (p.bind reference (.column column))
  | .useVariable n name, p =>
    match p.scopes.variableType? name with
    | some type => .finished (p.bind n (.variable type))
    | none => .finished (p.report .variable name)
  | .callFunction n name, p =>
    match Builtin.find? name with
    | some f => .finished (p.bind n (.function f))
    | none => .finished p
  | .storeInto n source target, p =>
    match storageScope? p.scopes with
    | some id =>
      (p.bind n (.table (storedTable target source))).changeScopes
        (fun t => .ok (t.addTableTo id target (storedTable target source)))
    | none => .malformed (.intoWithoutScope n)
  | .declare n typeName name initializer, p =>
    p.ask (declaredVariable s p.bindings typeName initializer) (Progress.bindType n typeName name)
  | .beginSet target, p => .finished { p with targets := p.table? target :: p.targets }
  | .setColumn n identifier, p =>
    match p.targets.head?.join.bind (s.tree.columnOf? · (lastPart identifier)) with
    | some binding => .finished (p.bind n binding)
    | none => .finished (p.report .column identifier)
  | .endSet, p => .finished { p with targets := p.targets.tail }
  | .reject fault, _ => .malformed fault

/-- Takes steps in turn, up to the first that cannot be taken. -/
def Walk.run (s : Surroundings) : List Step → Progress → Outcome
  | [], p => .finished p
  | step :: rest, p => (step.perform s p).andThen (Walk.run s rest)

end UnionScript
