import ScriptIr.Json.Shape
import ScriptIr.Tree.Basic

/-!
# Reading syntax trees

A tree is written as nested nodes, each tagged with its kind. A node may hold nodes of every sort, so
the readers of one level are built from those of the level below; as many levels are used as a value
may be nested, hence none is ever missed.

* `readExpression?`, `readPattern?`, `readStatement?`, `readProgram?`: trees from text.
-/
namespace ScriptIr.Tree

open Json (Value Outline Fields)

/-! ## Parts without nodes -/

def position? (v : Value) : Option Position := do
  let f ← Fields.of? ["line", "column"] v
  return ⟨← f.required "line" Value.word?, ← f.required "column" Value.word?⟩

def location? (v : Value) : Option Location := do
  let f ← Fields.of? ["start", "end", "source"] v
  return ⟨← f.required "start" position?, ← f.required "end" position?,
    ← f.optional "source" Value.text?⟩

/-- The place of a node, if it is given. -/
def locField (f : Fields) : Option (Option Location) := f.optional "loc" location?

/-- A node of which only the place is read. -/
def bareNode? (v : Value) : Option (Option Location) := do locField (← Fields.of? ["loc"] v)

def identifier? (v : Value) : Option Identifier := do
  let f ← Fields.of? ["name", "loc"] v
  return ⟨← f.required "name" Value.text?, ← locField f⟩

/-- The value of a literal. Lists and records are all alike. -/
def literalValue : Value → LiteralValue
  | .null => .null
  | .bool b => .boolean b
  | .number n => .number n.bits
  | .text s => .text s
  | _ => .other

def regex? (v : Value) : Option Regex := do
  let f ← Fields.of? ["pattern", "flags"] v
  return ⟨← f.required "pattern" Value.text?, ← f.required "flags" Value.text?⟩

def literal? (v : Value) : Option Literal := do
  let f ← Fields.of? ["value", "raw", "regex", "bigint", "loc"] v
  return {
    value := ← f.withDefault "value" (fun v => some (literalValue v)) .null
    raw := ← f.optional "raw" Value.text?
    regex := ← f.optional "regex" regex?
    bigint := ← f.optional "bigint" Value.text?
    loc := ← locField f }

/-- The text of a piece of a template, `none` inside when it has a bad escape. -/
def templateText? (v : Value) : Option (Option String) := do
  let f ← Fields.of? ["value"] v
  f.required "value" fun v => do
    let f ← Fields.of? ["raw", "cooked"] v
    let _ ← f.required "raw" Value.text?
    f.optional "cooked" Value.text?

/-! ## Names of operators and kinds -/

def unaryOperators : List (String × UnaryOperator) :=
  [("-", .minus), ("+", .plus), ("!", .logicalNot), ("~", .bitNot), ("typeof", .typeOf),
    ("void", .void), ("delete", .delete)]

def updateOperators : List (String × UpdateOperator) := [("++", .increment), ("--", .decrement)]

def binaryOperators : List (String × BinaryOperator) :=
  [("==", .equal), ("!=", .notEqual), ("===", .strictEqual), ("!==", .strictNotEqual), ("<", .less),
    ("<=", .lessEqual), (">", .greater), (">=", .greaterEqual), ("<<", .leftShift),
    (">>", .rightShift), (">>>", .unsignedRightShift), ("+", .add), ("-", .subtract),
    ("*", .multiply), ("/", .divide), ("%", .modulo), ("**", .exponent), ("|", .bitOr),
    ("^", .bitXor), ("&", .bitAnd), ("in", .within), ("instanceof", .instanceOf)]

def logicalOperators : List (String × LogicalOperator) :=
  [("&&", .and), ("||", .or), ("??", .nullish)]

def assignmentOperators : List (String × AssignmentOperator) :=
  [("=", .assign), ("+=", .compound .add), ("-=", .compound .subtract), ("*=", .compound .multiply),
    ("/=", .compound .divide), ("%=", .compound .modulo), ("**=", .compound .exponent),
    ("<<=", .compound .leftShift), (">>=", .compound .rightShift),
    (">>>=", .compound .unsignedRightShift), ("|=", .compound .bitOr), ("^=", .compound .bitXor),
    ("&=", .compound .bitAnd), ("||=", .logical .or), ("&&=", .logical .and),
    ("??=", .logical .nullish)]

def declarationKinds : List (String × DeclarationKind) :=
  [("var", .functionWide), ("let", .blockWide), ("const", .constant)]

def propertyKinds : List (String × PropertyKind) :=
  [("init", .value), ("get", .getter), ("set", .setter)]

/-- The tags of expressions, in the order in which they may be numbered. -/
def expressionTags : List String :=
  ["Identifier", "Literal", "ThisExpression", "Super", "ArrayExpression", "ObjectExpression",
    "FunctionExpression", "ArrowFunctionExpression", "ClassExpression", "UnaryExpression",
    "UpdateExpression", "BinaryExpression", "LogicalExpression", "AssignmentExpression",
    "ConditionalExpression", "CallExpression", "NewExpression", "MemberExpression",
    "SequenceExpression", "TemplateLiteral", "TaggedTemplateExpression", "SpreadElement",
    "YieldExpression", "AwaitExpression", "ChainExpression", "ImportExpression", "MetaProperty",
    "PrivateIdentifier"]

/-- The tags of patterns, in that order. -/
def patternTags : List String :=
  ["Identifier", "ArrayPattern", "ObjectPattern", "AssignmentPattern", "RestElement",
    "MemberExpression"]

/-- The tags of statements, in that order. -/
def statementTags : List String :=
  ["VariableDeclaration", "FunctionDeclaration", "ClassDeclaration", "ExpressionStatement",
    "BlockStatement", "EmptyStatement", "DebuggerStatement", "WithStatement", "ReturnStatement",
    "LabeledStatement", "BreakStatement", "ContinueStatement", "IfStatement", "SwitchStatement",
    "ThrowStatement", "TryStatement", "WhileStatement", "DoWhileStatement", "ForStatement",
    "ForInStatement", "ForOfStatement", "ImportDeclaration", "ExportNamedDeclaration",
    "ExportDefaultDeclaration", "ExportAllDeclaration"]

/-! ## Nodes -/

/-- Readers for the nodes of one level. -/
structure Readers where
  expression : Value → Option Expression
  pattern : Value → Option Pattern
  statement : Value → Option Statement
  deriving Inhabited

namespace Readers

/-- The statements of a block. -/
def blockBody? (r : Readers) (v : Value) : Option (List Statement) := do
  let f ← Fields.of? ["body", "loc"] v
  let body ← f.required "body" (Value.listOf? r.statement)
  let _ ← locField f
  return body

def function? (r : Readers) (v : Value) : Option Function := do
  let f ← Fields.of? ["id", "params", "body", "generator", "async", "loc"] v
  return .mk (← f.optional "id" identifier?)
    (← f.required "params" (Value.listOf? r.pattern))
    (← f.required "body" r.blockBody?) (← f.flag "generator") (← f.flag "async") (← locField f)

/-- The body of an arrow function: a block if it can be read as one. -/
def arrowBody? (r : Readers) (v : Value) : Option ArrowBody :=
  (r.blockBody? v).map .block <|> (r.expression v).map .expression

def arrow? (r : Readers) (v : Value) : Option Expression := do
  let f ← Fields.of? ["params", "body", "async", "loc"] v
  return .arrow (← f.required "params" (Value.listOf? r.pattern))
    (← f.required "body" r.arrowBody?) (← f.flag "async") (← locField f)

/-- An object, a property and whether the property is computed. -/
def member? (r : Readers) (v : Value) :
    Option (Expression × Expression × Bool × Option Location) := do
  let f ← Fields.of? ["object", "property", "computed", "loc"] v
  return (← f.required "object" r.expression, ← f.required "property" r.expression,
    ← f.required "computed" Value.bool?, ← locField f)

/-- A node that has an argument only. -/
def argument? (node : Value → Option α) (v : Value) : Option (α × Option Location) := do
  let f ← Fields.of? ["argument", "loc"] v
  return (← f.required "argument" node, ← locField f)

def objectMember? (r : Readers) (v : Value) : Option ObjectMember := do
  match ← Json.tagged? true ["Property", "SpreadElement"] v with
  | ("Property", v) =>
    let f ← Fields.of? ["key", "value", "kind", "method", "shorthand", "computed", "loc"] v
    let _ ← f.flag "shorthand"
    return .property (← f.required "key" r.expression) (← f.required "value" r.expression)
      (← f.required "kind" (Json.choice? true propertyKinds)) (← f.flag "method")
      (← f.flag "computed") (← locField f)
  | (_, v) => return .spread (← argument? r.expression v).2

/-- What an assignment writes to, by the tag of its node. -/
def targetBody? (r : Readers) (tag : String) (v : Value) : Option AssignmentTarget :=
  match tag with
  | "Identifier" => (identifier? v).map .identifier
  | "MemberExpression" => do
    let (object, property, computed, _) ← r.member? v
    return .member object property computed
  | _ => (bareNode? v).map .pattern

def assignmentTarget? (r : Readers) (v : Value) : Option AssignmentTarget := do
  let (tag, v) ← Json.tagged? true
    ["Identifier", "MemberExpression", "ArrayPattern", "ObjectPattern"] v
  r.targetBody? tag v

def declarator? (r : Readers) (v : Value) : Option Declarator := do
  let f ← Fields.of? ["id", "init"] v
  return .mk (← f.required "id" r.pattern) (← f.optional "init" r.expression)

/-- A declaration; its kind is read as `lenient` says. -/
def declaration? (r : Readers) (lenient : Bool) (v : Value) : Option Declaration := do
  let f ← Fields.of? ["kind", "declarations", "loc"] v
  return .mk (← f.required "kind" (Json.choice? lenient declarationKinds))
    (← f.required "declarations" (Value.listOf? r.declarator?)) (← locField f)

/-- The first part of a `for` loop's head: a declaration if it can be read as one. -/
def forInit? (r : Readers) (v : Value) : Option ForInit :=
  (r.declaration? false v).map .declaration <|> (r.expression v).map .expression

def forTarget? (r : Readers) (v : Value) : Option ForTarget := do
  match ← Json.tagged? true
    ["VariableDeclaration", "Identifier", "MemberExpression", "ArrayPattern", "ObjectPattern"] v with
  | ("VariableDeclaration", v) => (r.declaration? true v).map .declaration
  | (tag, v) => (r.targetBody? tag v).map .target

def call? (r : Readers) (v : Value) : Option (Expression × List Expression) := do
  let f ← Fields.of? ["callee", "arguments"] v
  return (← f.required "callee" r.expression,
    ← f.required "arguments" (Value.listOf? r.expression))

/-- An operator of a table and its two operands. -/
def operands? (r : Readers) (operators : List (String × α)) (v : Value) :
    Option (α × Expression × Expression) := do
  let f ← Fields.of? ["operator", "left", "right"] v
  return (← f.required "operator" (Json.choice? true operators),
    ← f.required "left" r.expression, ← f.required "right" r.expression)

/-- The test and the body of a loop. -/
def loop? (r : Readers) (v : Value) : Option (Expression × Statement) := do
  let f ← Fields.of? ["test", "body"] v
  return (← f.required "test" r.expression, ← f.required "body" r.statement)

/-- The parts of a loop over elements. -/
def forEach? (r : Readers) (v : Value) :
    Option (ForTarget × Expression × Statement × Bool × Option Location) := do
  let f ← Fields.of? ["left", "right", "body", "await", "loc"] v
  return (← f.required "left" r.forTarget?, ← f.required "right" r.expression,
    ← f.required "body" r.statement, ← f.flag "await", ← locField f)

/-- The label of a jump, if it has one. -/
def jump? (v : Value) : Option (Option Identifier × Option Location) := do
  let f ← Fields.of? ["label", "loc"] v
  return (← f.optional "label" identifier?, ← locField f)

/-- An expression, by the tag of its node. -/
def expressionBody? (r : Readers) (tag : String) (v : Value) : Option Expression :=
  match tag with
  | "Identifier" => (identifier? v).map .identifier
  | "Literal" => (literal? v).map .literal
  | "ThisExpression" => (bareNode? v).map .this
  | "Super" => (bareNode? v).map (.bare .superclass)
  | "ArrayExpression" => do
    let f ← Fields.of? ["elements"] v
    return .array (← f.required "elements" (Value.listOf? (Value.nullable? r.expression)))
  | "ObjectExpression" => do
    let f ← Fields.of? ["properties", "loc"] v
    return .object (← f.required "properties" (Value.listOf? r.objectMember?)) (← locField f)
  | "FunctionExpression" => (r.function? v).map .function
  | "ArrowFunctionExpression" => r.arrow? v
  | "ClassExpression" => (bareNode? v).map (.bare .classExpression)
  | "UnaryExpression" => do
    let f ← Fields.of? ["operator", "argument"] v
    return .unary (← f.required "operator" (Json.choice? true unaryOperators))
      (← f.required "argument" r.expression)
  | "UpdateExpression" => do
    let f ← Fields.of? ["operator", "prefix", "argument"] v
    return .update (← f.required "operator" (Json.choice? true updateOperators))
      (← f.required "prefix" Value.bool?) (← f.required "argument" r.expression)
  | "BinaryExpression" => do
    let (op, left, right) ← r.operands? binaryOperators v
    return .binary op left right
  | "LogicalExpression" => do
    let (op, left, right) ← r.operands? logicalOperators v
    return .logical op left right
  | "AssignmentExpression" => do
    let f ← Fields.of? ["operator", "left", "right"] v
    return .assignment (← f.required "operator" (Json.choice? true assignmentOperators))
      (← f.required "left" r.assignmentTarget?) (← f.required "right" r.expression)
  | "ConditionalExpression" => do
    let f ← Fields.of? ["test", "consequent", "alternate"] v
    return .conditional (← f.required "test" r.expression)
      (← f.required "consequent" r.expression) (← f.required "alternate" r.expression)
  | "CallExpression" => do
    let (callee, arguments) ← r.call? v
    return .call callee arguments
  | "NewExpression" => do
    let (callee, arguments) ← r.call? v
    return .construct callee arguments
  | "MemberExpression" => do
    let (object, property, computed, loc) ← r.member? v
    return .member object property computed loc
  | "SequenceExpression" => do
    let f ← Fields.of? ["expressions"] v
    return .sequence (← f.required "expressions" (Value.listOf? r.expression))
  | "TemplateLiteral" => do
    let f ← Fields.of? ["quasis", "expressions", "loc"] v
    return .template (← f.required "quasis" (Value.listOf? templateText?))
      (← f.required "expressions" (Value.listOf? r.expression)) (← locField f)
  | "TaggedTemplateExpression" => (bareNode? v).map (.bare .taggedTemplate)
  | "SpreadElement" => do
    let (argument, loc) ← argument? r.expression v
    return .spread argument loc
  | "YieldExpression" => (bareNode? v).map (.bare .yield)
  | "AwaitExpression" => (bareNode? v).map (.bare .await)
  | "ChainExpression" => (bareNode? v).map (.bare .chain)
  | "ImportExpression" => (bareNode? v).map (.bare .importCall)
  | "MetaProperty" => (bareNode? v).map (.bare .metaProperty)
  | _ => (bareNode? v).map (.bare .privateName)

def patternMember? (r : Readers) (v : Value) : Option PatternMember := do
  match ← Json.tagged? true ["Property", "RestElement"] v with
  | ("Property", v) =>
    let f ← Fields.of? ["key", "value", "computed", "loc"] v
    return .property (← f.required "key" r.expression) (← f.required "value" r.pattern)
      (← f.flag "computed") (← locField f)
  | (_, v) =>
    let (argument, loc) ← argument? r.pattern v
    return .rest argument loc

/-- A pattern, by the tag of its node. -/
def patternBody? (r : Readers) (tag : String) (v : Value) : Option Pattern :=
  match tag with
  | "Identifier" => (identifier? v).map .identifier
  | "ArrayPattern" => do
    let f ← Fields.of? ["elements", "loc"] v
    let elements ← f.required "elements" (Value.listOf? (Value.nullable? r.pattern))
    let _ ← locField f
    return .array elements
  | "ObjectPattern" => do
    let f ← Fields.of? ["properties", "loc"] v
    let members ← f.required "properties" (Value.listOf? r.patternMember?)
    let _ ← locField f
    return .object members
  | "AssignmentPattern" => do
    let f ← Fields.of? ["left", "right"] v
    return .withDefault (← f.required "left" r.pattern) (← f.required "right" r.expression)
  | "RestElement" => do
    let (argument, loc) ← argument? r.pattern v
    return .rest argument loc
  | _ => (bareNode? v).map .member

/-- A statement, by the tag of its node. -/
def statementBody? (r : Readers) (tag : String) (v : Value) : Option Statement :=
  match tag with
  | "VariableDeclaration" => (r.declaration? true v).map .declaration
  | "FunctionDeclaration" => (r.function? v).map .function
  | "ClassDeclaration" => (bareNode? v).map (.bare .classDeclaration)
  | "ExpressionStatement" => do
    let f ← Fields.of? ["expression"] v
    return .expression (← f.required "expression" r.expression)
  | "BlockStatement" => (r.blockBody? v).map .block
  | "EmptyStatement" => (bareNode? v).map (.bare .empty)
  | "DebuggerStatement" => (bareNode? v).map (.bare .debugger)
  | "WithStatement" => (bareNode? v).map (.bare .withStatement)
  | "ReturnStatement" => do
    let f ← Fields.of? ["argument"] v
    return .returns (← f.optional "argument" r.expression)
  | "LabeledStatement" => (bareNode? v).map (.bare .labeled)
  | "BreakStatement" => do
    let (label, loc) ← jump? v
    return .breaks label loc
  | "ContinueStatement" => do
    let (label, loc) ← jump? v
    return .continues label loc
  | "IfStatement" => do
    let f ← Fields.of? ["test", "consequent", "alternate"] v
    return .ifElse (← f.required "test" r.expression) (← f.required "consequent" r.statement)
      (← f.optional "alternate" r.statement)
  | "SwitchStatement" => (bareNode? v).map (.bare .switchStatement)
  | "ThrowStatement" => (bareNode? v).map (.bare .throwStatement)
  | "TryStatement" => (bareNode? v).map (.bare .tryStatement)
  | "WhileStatement" => do
    let (test, body) ← r.loop? v
    return .whileLoop test body
  | "DoWhileStatement" => do
    let (test, body) ← r.loop? v
    return .doWhile test body
  | "ForStatement" => do
    let f ← Fields.of? ["init", "test", "update", "body"] v
    return .forLoop (← f.optional "init" r.forInit?) (← f.optional "test" r.expression)
      (← f.optional "update" r.expression) (← f.required "body" r.statement)
  | "ForInStatement" => do
    let (target, object, body, isAwait, loc) ← r.forEach? v
    return .forIn target object body isAwait loc
  | "ForOfStatement" => do
    let (target, iterable, body, isAwait, loc) ← r.forEach? v
    return .forOf target iterable body isAwait loc
  | "ImportDeclaration" => (bareNode? v).map (.bare .importDeclaration)
  | "ExportNamedDeclaration" => (bareNode? v).map (.bare .exportNamed)
  | "ExportDefaultDeclaration" => (bareNode? v).map (.bare .exportDefault)
  | _ => (bareNode? v).map (.bare .exportAll)

/-- An expression; a tag may be a number in an `inner` node. -/
def expression? (r : Readers) (inner : Bool) (v : Value) : Option Expression := do
  let (tag, v) ← Json.tagged? inner expressionTags v
  r.expressionBody? tag v

def pattern? (r : Readers) (inner : Bool) (v : Value) : Option Pattern := do
  let (tag, v) ← Json.tagged? inner patternTags v
  r.patternBody? tag v

def statement? (r : Readers) (inner : Bool) (v : Value) : Option Statement := do
  let (tag, v) ← Json.tagged? inner statementTags v
  r.statementBody? tag v

/-- Readers for nodes that are nested at most `depth` deep. -/
def level : (depth : Nat) → Readers
  | 0 => ⟨fun _ => none, fun _ => none, fun _ => none⟩
  | depth + 1 =>
    let r := level depth
    ⟨r.expression? true, r.pattern? true, r.statement? true⟩

/-- Readers for nodes that are nested as deep as values may be. -/
def all : Readers := level Json.maxDepth

end Readers

/-! ## Trees from text -/

def locationOutline : Outline :=
  let point : Outline := .members [("line", .whole), ("column", .whole)]
  .members [("start", point), ("end", point), ("source", .whole)]

def literalOutline : Outline :=
  .members [("value", .whole), ("raw", .whole),
    ("regex", .members [("pattern", .whole), ("flags", .whole)]), ("bigint", .whole),
    ("loc", locationOutline)]

/-- The parts of a program that are wanted. -/
def programOutline : Outline := .members [("body", .items .whole), ("loc", locationOutline)]

def readLocation? (text : String) : Option Location := do
  location? (← Value.read? locationOutline text)

def readLiteral? (text : String) : Option Literal := do
  literal? (← Value.read? literalOutline text)

def readAssignmentOperator? (text : String) : Option AssignmentOperator := do
  Json.choice? false assignmentOperators (← Value.read? .whole text)

def readExpression? (text : String) : Option Expression := do
  Readers.all.expression? false (← Value.read? .whole text)

def readPattern? (text : String) : Option Pattern := do
  Readers.all.pattern? false (← Value.read? .whole text)

def readStatement? (text : String) : Option Statement := do
  Readers.all.statement? false (← Value.read? .whole text)

def readProgram? (text : String) : Option Program := do
  let f ← Fields.of? ["body", "loc"] (← Value.read? programOutline text)
  let body ← f.required "body" (Value.listOf? (Readers.all.statement? false))
  let _ ← locField f
  return ⟨body⟩

end ScriptIr.Tree
