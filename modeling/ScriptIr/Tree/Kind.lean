import ScriptIr.Tree.Basic

/-!
# Kinds of nodes

Every node has a kind with a name, which tags the node in a document and names it in messages.
Some nodes also have a location.
-/
namespace ScriptIr.Tree

def BareExpression.kindName : BareExpression → String
  | superclass => "Super"
  | classExpression => "ClassExpression"
  | taggedTemplate => "TaggedTemplateExpression"
  | yield => "YieldExpression"
  | await => "AwaitExpression"
  | chain => "ChainExpression"
  | importCall => "ImportExpression"
  | metaProperty => "MetaProperty"
  | privateName => "PrivateIdentifier"

def BareStatement.kindName : BareStatement → String
  | classDeclaration => "ClassDeclaration"
  | empty => "EmptyStatement"
  | debugger => "DebuggerStatement"
  | withStatement => "WithStatement"
  | labeled => "LabeledStatement"
  | switchStatement => "SwitchStatement"
  | throwStatement => "ThrowStatement"
  | tryStatement => "TryStatement"
  | importDeclaration => "ImportDeclaration"
  | exportNamed => "ExportNamedDeclaration"
  | exportDefault => "ExportDefaultDeclaration"
  | exportAll => "ExportAllDeclaration"

def Expression.kindName : Expression → String
  | identifier _ => "Identifier"
  | literal _ => "Literal"
  | this _ => "ThisExpression"
  | array _ => "ArrayExpression"
  | object .. => "ObjectExpression"
  | function _ => "FunctionExpression"
  | arrow .. => "ArrowFunctionExpression"
  | unary .. => "UnaryExpression"
  | update .. => "UpdateExpression"
  | binary .. => "BinaryExpression"
  | logical .. => "LogicalExpression"
  | assignment .. => "AssignmentExpression"
  | conditional .. => "ConditionalExpression"
  | call .. => "CallExpression"
  | construct .. => "NewExpression"
  | member .. => "MemberExpression"
  | sequence _ => "SequenceExpression"
  | template .. => "TemplateLiteral"
  | spread .. => "SpreadElement"
  | bare kind _ => kind.kindName

def Expression.loc : Expression → Option Location
  | identifier id => id.loc
  | literal value => value.loc
  | function value => value.loc
  | this loc | object _ loc | arrow _ _ _ loc | member _ _ _ loc | spread _ loc | bare _ loc => loc
  | _ => none

def Pattern.kindName : Pattern → String
  | identifier _ => "Identifier"
  | array _ => "ArrayPattern"
  | object _ => "ObjectPattern"
  | withDefault .. => "AssignmentPattern"
  | rest .. => "RestElement"
  | member _ => "MemberExpression"

def Statement.kindName : Statement → String
  | declaration _ => "VariableDeclaration"
  | function _ => "FunctionDeclaration"
  | expression _ => "ExpressionStatement"
  | block _ => "BlockStatement"
  | returns _ => "ReturnStatement"
  | breaks .. => "BreakStatement"
  | continues .. => "ContinueStatement"
  | ifElse .. => "IfStatement"
  | whileLoop .. => "WhileStatement"
  | doWhile .. => "DoWhileStatement"
  | forLoop .. => "ForStatement"
  | forIn .. => "ForInStatement"
  | forOf .. => "ForOfStatement"
  | bare kind _ => kind.kindName

end ScriptIr.Tree
