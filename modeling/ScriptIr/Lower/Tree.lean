import ScriptIr.Lower.Loop

/-!
# Trees

What each node of a tree stands for, by recursion on the tree: the parts of a node are put together
as the modules on expressions, patterns, functions, statements and loops say.

* `expression`, `pattern`, `statement`: what nodes stand for.
* `items`: what a list of statements stands for.
-/
namespace ScriptIr.Lower

open ScriptIr.Tree

mutual

/-- What an expression stands for. -/
def expression : Expression → ExprCode
  | .identifier id => readIdentifier id.name
  | .literal l => literalCode l
  | .this _ => instCode .this
  | .array es => arrayCode (elements es)
  | .object ms _ => objectCode (objectMembers ms)
  | .function f => function f
  | .arrow params body isAsync loc =>
    closureCode { kind := .arrow, name := "<arrow>", params, generator := false, isAsync, loc }
      (arrowBody body)
  | .unary op e => unaryCode op e (target? e) (expression e)
  | .update op prefixed e => updateCode op prefixed (expressionPlace e (target? e))
  | .binary op l r => binaryCode op (expression l) (expression r)
  | .logical op l r => logicalCode op (expression l) (expression r)
  | .assignment op t e => assignmentCode op e.loc (place t) (expression e)
  | .conditional t a b => conditionalCode (expression t) (expression a) (expression b)
  | .call e args => callCode (target? e) (expression e) (arguments args)
  | .construct e args => constructCode (expression e) (arguments args)
  | .member o p computed _ => memberCode (memberTarget o p computed (expression o) (expression p))
  | .sequence es => sequenceCode (expressions es)
  | .template texts es loc => templateCode texts (expressions es) loc
  | .spread _ loc => failing (.unsupported .spreadElement loc)
  | .bare kind loc => failing (.unsupported (.node kind.kindName) loc)

/-- The object and the key of an expression that reads a member. -/
def target? : Expression → Option TargetCode
  | .member o p computed _ => some (memberTarget o p computed (expression o) (expression p))
  | _ => none

/-- What an element spreads, if it does. -/
def spread? : Expression → Option ExprCode
  | .spread e _ => some (expression e)
  | _ => none

def optional : Option Expression → Option ExprCode
  | none => none
  | some e => some (expression e)

def expressions : List Expression → List ExprCode
  | [] => []
  | e :: es => expression e :: expressions es

def arguments : List Expression → List ExprCode
  | [] => []
  | e :: es => argumentCode e (expression e) :: arguments es

/-- What the elements of an array literal stand for. -/
def elements : List (Option Expression) → List Element
  | [] => []
  | none :: es => .hole :: elements es
  | some e :: es =>
    (match spread? e with
      | some code => .spread code
      | none => .value (expression e)) :: elements es

/-- The keys and the values of an object literal. -/
def objectMembers : List ObjectMember → List (Except Error String × ExprCode)
  | [] => []
  | m :: ms => (memberName m, objectMember m) :: objectMembers ms

def objectMember : ObjectMember → ExprCode
  | .property _ e _ _ _ _ => expression e
  | .spread loc => failing (.unsupported .objectSpread loc)

/-- What an assignment writes to. -/
def place : AssignmentTarget → PlaceCode
  | .identifier id => identifierPlace id.name
  | .member o p computed => memberPlace (memberTarget o p computed (expression o) (expression p))
  | .pattern loc => fun _ _ => unsupported .destructuringAssignment loc

/-- The closure that a function stands for. -/
def function : Function → ExprCode
  | .mk id params body generator isAsync loc =>
    closureCode
      { kind := .function, name := (id.map (·.name)).getD "<anonymous>", params, generator, isAsync,
        loc }
      (statementBody (listCode (items body)))

/-- What the body of an arrow function stands for. -/
def arrowBody : ArrowBody → BodyCode
  | .block body => statementBody (listCode (items body))
  | .expression e => expressionBody (expression e)

/-- How a pattern binds its names to the parts of a value. -/
def pattern : Pattern → BindCode
  | .identifier id => bindName id.name
  | .array ps => bindArray (patternElements ps)
  | .object ms => bindObject (patternMembers ms)
  | .withDefault p e => bindDefault (pattern p) (expression e)
  | .rest _ loc => bindFailing .restElement loc
  | .member loc => bindFailing .memberPattern loc

def patternElements : List (Option Pattern) → List ElementBind
  | [] => []
  | none :: ps => .hole :: patternElements ps
  | some p :: ps => elementBind p (pattern p) :: patternElements ps

/-- The keys of an object pattern, and how the value of each is bound. -/
def patternMembers : List PatternMember → List (Except Error String × BindCode)
  | [] => []
  | .property key p computed loc :: ms =>
    (patternKey key computed loc, pattern p) :: patternMembers ms
  | .rest _ loc :: ms =>
    (.error (.unsupported .objectRest loc), bindFailing .objectRest loc) :: patternMembers ms

/-- The patterns of a declaration with their initial values. -/
def binders : List Declarator → List Binder
  | [] => []
  | .mk p init :: ds => ⟨optional init, pattern p⟩ :: binders ds

def declaration : Declaration → StmtCode
  | .mk kind ds loc => declarationCode (.mk kind ds loc) (binders ds)

/-- What the first part of a loop's head stands for. -/
def forHead : ForInit → HeadCode
  | .declaration d => declarationHead d (declaration d)
  | .expression e => expressionHead (expression e)

/-- What an optional first part of a loop's head stands for. -/
def optionalHead : Option ForInit → HeadCode
  | none => emptyHead
  | some init => forHead init

/-- What a declaration in the head of a loop over elements stands for. -/
def declaredElement : Declaration → ElementCode
  | .mk kind ds loc => declareElement (.mk kind ds loc) (binders ds)

/-- How a loop over elements receives one. -/
def forTarget : ForTarget → ElementCode
  | .declaration d => declaredElement d
  | .target t => assignElement (place t)

/-- What a statement stands for in its place. -/
def statement : Statement → StmtCode
  | .declaration d => declaration d
  | .function f => fun _ _ => unsupported .nestedFunction f.loc
  | .expression e => expressionCode (expression e)
  | .block body => blockCode (items body)
  | .returns e => returnCode (optional e)
  | .breaks label loc => breakCode label loc
  | .continues label loc => continueCode label loc
  | .ifElse t a b => ifCode (expression t) (statement a) (optionalStatement b)
  | .whileLoop t body => whileCode (expression t) (statement body)
  | .doWhile t body => doWhileCode (expression t) (statement body)
  | .forLoop init test update body =>
    forCode (optionalHead init) (optional test) (optional update) (statement body)
  | .forIn t e body isAwait loc =>
    forEachCode keysProtocol (expression e) (forTarget t) (statement body) isAwait loc
  | .forOf t e body isAwait loc =>
    forEachCode itemsProtocol (expression e) (forTarget t) (statement body) isAwait loc
  | .bare kind loc => bareCode kind loc

def optionalStatement : Option Statement → Option StmtCode
  | none => none
  | some s => some (statement s)

/-- The closure that a function declaration makes. -/
def closure? : Statement → Option ExprCode
  | .function f => some (function f)
  | _ => none

/-- The members of a list of statements. -/
def items : List Statement → List Item
  | [] => []
  | s :: ss => Item.of s (statement s) (closure? s) :: items ss

end

end ScriptIr.Lower
