import ScriptIr.Lower.Statement
import ScriptIr.Proofs.Tree.Lexical

/-!
# Static semantics

What there is to be checked about a program, read off its tree alone: the names that each scope holds,
how each name that is read or written stands to the declaration it refers to, and whether each jump is
inside a loop. Parts that are not lowered are found as well.

The names of a list of statements are bound in the order of lowering: those of its functions first, then
those of a declaration one after another, each when its value is there. Until then a name is pending in
its own scope, and in no other one.

* `Env`: the names in scope at a place of a tree.
-/
namespace ScriptIr

def Scope.Table.names (t : Table α) : List String := t.map (·.1)

namespace Static

/-! ## Environments -/

/-- What names stand for at a place of a program. -/
structure Env where
  /-- The names of the innermost scope that have not been bound yet. -/
  pending : List String := []
  /-- The names of each scope, the innermost first, and whether they may not be assigned to. -/
  scopes : List (Scope.Table Bool) := []

variable (env : Env)

namespace Env

/-- Whether the declaration that a name refers to is constant, if there is one. -/
def constant? (name : String) : Option Bool := env.scopes.findSome? (·.find? name)

def enter (names : Scope.Table Bool) (pending : List String) : Env :=
  { pending, scopes := names :: env.scopes }

/-- After some names have been bound. -/
def bind (names : List String) : Env :=
  { env with pending := env.pending.filter (· ∉ names) }

end Env

/-! ## Findings -/

/-- One thing to be checked. -/
inductive Finding where
  /-- A scope holds these names. -/
  | scope (names : List String)
  /-- A name is read or written. It may be pending, and it may be constant. -/
  | use (name : String) (write pending constant : Bool)
  /-- A jump to the end or to the next round of a loop, inside one or not. -/
  | jump (inLoop : Bool)
  /-- A part that is not lowered. -/
  | refused (e : Error)

/-- Whether a scope holds no name twice, a name is bound when it is used and not constant when it is
written, and a jump is inside a loop. -/
def Finding.Fine : Finding → Prop
  | scope names => names.Nodup
  | use _ write pending constant => pending = false ∧ (write && constant) = false
  | jump inLoop => inLoop = true
  | refused _ => False

/-- All is as it should be. -/
def Fine (fs : List Finding) : Prop := ∀ f ∈ fs, f.Fine

/-- A name is read or written at a place. -/
def Env.use (name : String) (write : Bool) : Finding :=
  .use name write (decide (name ∈ env.pending)) (env.constant? name == some true)

/-- What is found where something is needed that may be refused. -/
def refusal : Except Error α → List Finding
  | .ok _ => []
  | .error e => [.refused e]

/-- A part that is not lowered if a condition holds. -/
def refusedIf (p : Prop) [Decidable p] (construct : Construct) (loc : Option Location) : List Finding :=
  if p then [.refused (.unsupported construct loc)] else []

end Static

namespace Tree

open Static Scope Lower

/-! ## Names -/

def Declaration.table (d : Declaration) : Table Bool := d.boundNames.map (·, d.isConstant)

def Statement.hoistedTable : Statement → Table Bool
  | .function f => (f.id.map fun id => (id.name, false)).toList
  | _ => []

def Statement.placedTable : Statement → Table Bool
  | .declaration d => d.table
  | _ => []

def Statement.table (s : Statement) : Table Bool := s.hoistedTable ++ s.placedTable

variable (body : List Statement)

def listTable : Table Bool := body.flatMap Statement.table

def hoistedTable : Table Bool := body.flatMap Statement.hoistedTable

def placedTable : Table Bool := body.flatMap Statement.placedTable

def headTable : Option ForInit → Table Bool
  | some (.declaration d) => d.table
  | _ => []

/-- The names that the head of a loop over elements declares. -/
def ForTarget.table : ForTarget → Table Bool
  | .declaration d => d.table
  | .target _ => []

def Pattern.restName? : Pattern → Option String
  | .rest (.identifier id) _ => some id.name
  | _ => none

/-- The names of the arguments of a function: the parameters, the list of all arguments unless it is an
arrow function or a parameter has that name, and the rest parameter. -/
def argumentNames (kind : FunctionKind) (params : List Pattern) : List String :=
  let names := params.filterMap Pattern.plainName?
  names ++ ((if kind = .function ∧ "arguments" ∉ names then ["arguments"] else []) ++
    params.filterMap Pattern.restName?)

def argumentTable (kind : FunctionKind) (params : List Pattern) : Table Bool :=
  (argumentNames kind params).map (·, false)

/-! ## Parts that are not lowered -/

def Declaration.refusals (d : Declaration) : List Finding :=
  refusedIf (d.kind = .functionWide) .varDeclaration d.loc

def Statement.refusals : Statement → List Finding
  | .declaration d => d.refusals
  | .function f => refusedIf (f.id = none) .anonymousFunction f.loc
  | _ => []

/-- A list may not declare anything that is not lowered. -/
def listRefusals : List Finding := body.flatMap Statement.refusals

def Literal.refusals (l : Literal) : List Finding :=
  if l.regex.isSome then []
  else refusedIf l.bigint.isSome .bigInt l.loc ++ refusedIf (l.value = .other) .literal l.loc

/-- Some number of texts of a template have to be there. -/
def textRefusals (loc : Option Location) : List (Option String) → Nat → List Finding
  | _, 0 => []
  | texts, n + 1 =>
    match nextText loc texts with
    | .ok (_, texts) => textRefusals loc texts n
    | .error e => [.refused e]

/-- Members of the superclass are not lowered. -/
def superRefusals : Expression → List Finding
  | .bare .superclass loc => [.refused (.unsupported .superProperty loc)]
  | _ => []

/-- A member that is not written in brackets has a name. -/
def memberRefusals (object property : Expression) (computed : Bool) : List Finding :=
  superRefusals object ++ if computed then [] else refusal (memberKey property)

/-- What can be stepped is a variable or a member. -/
def stepRefusals : Expression → List Finding
  | .identifier _ | .member .. => []
  | e => [.refused (.invalidAssignmentTarget e.kindName)]

def deleteRefusals : Expression → List Finding
  | .member .. => []
  | e => [.refused (.unsupported .deleteNonMember e.loc)]

/-- Logical assignments are not lowered. -/
def AssignmentOperator.refusals (op : AssignmentOperator) (loc : Option Location) : List Finding :=
  match op with
  | .logical _ => [.refused (.unsupported .logicalAssignment loc)]
  | _ => []

/-- Functions that are not lowered. -/
def headerRefusals (params : List Pattern) (generator isAsync : Bool) (loc : Option Location) :
    List Finding :=
  refusedIf generator .generator loc ++
    (refusedIf isAsync .asyncFunction loc ++ refusal (parameterNames params))

def Declaration.targetRefusals : Declaration → List Finding
  | .mk kind ds loc =>
    (Declaration.mk kind ds loc).refusals ++ refusedIf (ds.length ≠ 1) .manyLoopBindings loc

/-- Statements without parts that are not lowered. -/
def BareStatement.refusals (kind : BareStatement) (loc : Option Location) : List Finding :=
  match bareConstruct? kind with
  | some construct => [.refused (.unsupported construct loc)]
  | none => []

/-! ## Findings of nodes -/

/-- What is to be checked in a list of statements that has a scope, in which there are some arguments
already: the names of the scope, and then the functions of the list and its other statements. -/
def listFindings (args : Table Bool) (body : List Statement)
    (hoisted inPlace : Static.Env → List Finding) (env : Static.Env) : List Finding :=
  let table := args ++ listTable body
  let env := env.enter table (listTable body).names
  listRefusals body ++ .scope table.names :: (hoisted env ++ inPlace (env.bind (hoistedTable body).names))

mutual

def Expression.findings : Expression → Static.Env → List Finding
  | .identifier id, env => [env.use id.name false]
  | .literal l, _ => l.refusals
  | .this _, _ => []
  | .array es, env => elementsFindings es env
  | .object ms _, env => membersFindings ms env
  | .function f, env => f.findings env
  | .arrow params body isAsync loc, env =>
    headerRefusals params false isAsync loc ++ body.findings (argumentTable .arrow params) env
  | .unary op e, env => (if op = .delete then deleteRefusals e else []) ++ e.findings env
  | .update _ _ e, env => stepRefusals e ++ e.writeFindings env
  | .binary _ l r, env | .logical _ l r, env => l.findings env ++ r.findings env
  | .assignment op t e, env => op.refusals e.loc ++ (t.findings env ++ e.findings env)
  | .conditional t a b, env => t.findings env ++ (a.findings env ++ b.findings env)
  | .call e args, env | .construct e args, env => e.findings env ++ expressionsFindings args env
  | .member o p computed _, env =>
    memberRefusals o p computed ++ (o.findings env ++ if computed then p.findings env else [])
  | .sequence es, env => expressionsFindings es env
  | .template texts es loc, env => textRefusals loc texts (es.length + 1) ++ expressionsFindings es env
  | .spread _ loc, _ => [.refused (.unsupported .spreadElement loc)]
  | .bare kind loc, _ => [.refused (.unsupported (.node kind.kindName) loc)]

/-- What is to be checked in an expression that is written as well as read. -/
def Expression.writeFindings : Expression → Static.Env → List Finding
  | .identifier id, env => [env.use id.name true]
  | .member o p computed _, env =>
    memberRefusals o p computed ++ (o.findings env ++ if computed then p.findings env else [])
  | _, _ => []

def Expression.spreadFindings? : Expression → Static.Env → Option (List Finding)
  | .spread e _, env => some (e.findings env)
  | _, _ => none

def expressionsFindings : List Expression → Static.Env → List Finding
  | [], _ => []
  | e :: es, env => e.findings env ++ expressionsFindings es env

def elementsFindings : List (Option Expression) → Static.Env → List Finding
  | [], _ => []
  | none :: es, env => elementsFindings es env
  | some e :: es, env => (e.spreadFindings? env).getD (e.findings env) ++ elementsFindings es env

def membersFindings : List ObjectMember → Static.Env → List Finding
  | [], _ => []
  | m :: ms, env => refusal (memberName m) ++ (m.findings env ++ membersFindings ms env)

def ObjectMember.findings : ObjectMember → Static.Env → List Finding
  | .property _ e _ _ _ _, env => e.findings env
  | .spread loc, _ => [.refused (.unsupported .objectSpread loc)]

def AssignmentTarget.findings : AssignmentTarget → Static.Env → List Finding
  | .identifier id, env => [env.use id.name true]
  | .member o p computed, env =>
    memberRefusals o p computed ++ (o.findings env ++ if computed then p.findings env else [])
  | .pattern loc, _ => [.refused (.unsupported .destructuringAssignment loc)]

def Function.findings : Function → Static.Env → List Finding
  | .mk _ params body generator isAsync loc, env =>
    headerRefusals params generator isAsync loc ++
      listFindings (argumentTable .function params) body (hoistedFindings body)
        (inPlaceFindings false body) env

def ArrowBody.findings : ArrowBody → Table Bool → Static.Env → List Finding
  | .block body, args, env =>
    listFindings args body (hoistedFindings body) (inPlaceFindings false body) env
  | .expression e, args, env => .scope args.names :: e.findings (env.enter args [])

/-- What is to be checked in a pattern. A default value is evaluated before the names are bound. -/
def Pattern.findings : Pattern → Static.Env → List Finding
  | .identifier _, _ => []
  | .array ps, env => patternElementsFindings ps env
  | .object ms, env => patternMembersFindings ms env
  | .withDefault p e, env => e.findings env ++ p.findings env
  | .rest _ loc, _ => [.refused (.unsupported .restElement loc)]
  | .member loc, _ => [.refused (.unsupported .memberPattern loc)]

def patternElementsFindings : List (Option Pattern) → Static.Env → List Finding
  | [], _ => []
  | none :: ps, env => patternElementsFindings ps env
  | some p :: ps, env => p.findings env ++ patternElementsFindings ps (env.bind p.boundNames)

def patternMembersFindings : List PatternMember → Static.Env → List Finding
  | [], _ => []
  | .property key p computed loc :: ms, env =>
    refusal (patternKey key computed loc) ++
      (p.findings env ++ patternMembersFindings ms (env.bind p.boundNames))
  | .rest _ loc :: _, _ => [.refused (.unsupported .objectRest loc)]

def optionalFindings : Option Expression → Static.Env → List Finding
  | none, _ => []
  | some e, env => e.findings env

def declaratorsFindings : List Declarator → Static.Env → List Finding
  | [], _ => []
  | .mk p init :: ds, env =>
    optionalFindings init env ++ (p.findings env ++ declaratorsFindings ds (env.bind p.boundNames))

def Declaration.findings : Declaration → Static.Env → List Finding
  | .mk kind ds loc, env => (Declaration.mk kind ds loc).refusals ++ declaratorsFindings ds env

def headFindings : Option ForInit → Static.Env → List Finding
  | none, _ => []
  | some init, env => init.findings env

def ForInit.findings : ForInit → Static.Env → List Finding
  | .declaration d, env => d.findings env
  | .expression e, env => e.findings env

def targetsFindings : List Declarator → Static.Env → List Finding
  | [], _ => []
  | .mk p _ :: ds, env => p.findings env ++ targetsFindings ds (env.bind p.boundNames)

/-- What is to be checked in what receives each element of a loop. A declaration has no initial
value. -/
def ForTarget.findings : ForTarget → Static.Env → List Finding
  | .declaration (.mk kind ds loc), env =>
    (Declaration.mk kind ds loc).targetRefusals ++ targetsFindings ds env
  | .target t, env => t.findings env

/-- What is to be checked in a statement in its place, which is inside a loop or not. -/
def Statement.findings : Bool → Statement → Static.Env → List Finding
  | _, .declaration d, env => d.findings env
  | _, .function f, _ => [.refused (.unsupported .nestedFunction f.loc)]
  | _, .expression e, env => e.findings env
  | loop, .block body, env =>
    listFindings [] body (hoistedFindings body) (inPlaceFindings loop body) env
  | _, .returns e, env => optionalFindings e env
  | loop, .breaks label loc, _ => refusedIf label.isSome .labeledBreak loc ++ [.jump loop]
  | loop, .continues label loc, _ => refusedIf label.isSome .labeledContinue loc ++ [.jump loop]
  | loop, .ifElse t a b, env =>
    t.findings env ++ (a.findings loop env ++ optionalStatementFindings loop b env)
  | _, .whileLoop t body, env =>
    let env := env.enter [] []
    t.findings env ++ body.findings true env
  | _, .doWhile t body, env =>
    let env := env.enter [] []
    body.findings true env ++ t.findings env
  | _, .forLoop init test update body, env =>
    let table := headTable init
    let env := env.enter table table.names
    let bound := env.bind table.names
    .scope table.names :: (headFindings init env ++
      (optionalFindings test bound ++ (body.findings true bound ++ optionalFindings update bound)))
  | _, .forIn t e body isAwait loc, env | _, .forOf t e body isAwait loc, env =>
    refusedIf isAwait .forAwait loc ++ (e.findings env ++
      let env := env.enter t.table t.table.names
      .scope t.table.names :: (t.findings env ++ body.findings true (env.bind t.table.names)))
  | _, .bare kind loc, _ => kind.refusals loc

def optionalStatementFindings : Bool → Option Statement → Static.Env → List Finding
  | _, none, _ => []
  | loop, some s, env => s.findings loop env

def closureFindings : Statement → Static.Env → List Finding
  | .function f, env => (Statement.function f).refusals ++ f.findings env
  | _, _ => []

/-- What is to be checked in the functions that a list declares. -/
def hoistedFindings : List Statement → Static.Env → List Finding
  | [], _ => []
  | s :: ss, env => closureFindings s env ++ hoistedFindings ss (env.bind s.hoistedTable.names)

/-- What is to be checked in the other statements of a list. -/
def inPlaceFindings : Bool → List Statement → Static.Env → List Finding
  | _, [], _ => []
  | loop, s :: ss, env =>
    (match s with
      | .function _ => []
      | s => s.findings loop env) ++ inPlaceFindings loop ss (env.bind s.placedTable.names)

end

def Program.findings (p : Program) : List Finding :=
  listFindings [] p.body (hoistedFindings p.body) (inPlaceFindings false p.body) {}

end Tree

end ScriptIr
