import ScriptIr.Location
import ScriptIr.Number.Binary64

/-!
# Syntax trees

The program as a tree. Kinds of nodes that are recognised and never lowered keep only their location.
-/
namespace ScriptIr.Tree

structure Identifier where
  name : String
  loc : Option Location := none
  deriving DecidableEq, Repr, Inhabited

inductive LiteralValue where
  | null
  | boolean (b : Bool)
  | number (bits : Number.Bits)
  | text (s : String)
  /-- Anything else. -/
  | other
  deriving DecidableEq, Repr, Inhabited

structure Regex where
  pattern : String
  flags : String
  deriving DecidableEq, Repr, Inhabited

structure Literal where
  value : LiteralValue := .null
  /-- How the literal is written. -/
  raw : Option String := none
  regex : Option Regex := none
  bigint : Option String := none
  loc : Option Location := none
  deriving DecidableEq, Repr, Inhabited

inductive UnaryOperator where
  | minus | plus | logicalNot | bitNot | typeOf | void | delete
  deriving DecidableEq, Repr, Inhabited

inductive UpdateOperator where
  | increment | decrement
  deriving DecidableEq, Repr, Inhabited

/-- Operators between two operands that are both evaluated. -/
inductive BinaryOperator where
  | equal | notEqual | strictEqual | strictNotEqual | less | lessEqual | greater | greaterEqual
  | leftShift | rightShift | unsignedRightShift | add | subtract | multiply | divide | modulo
  | exponent | bitOr | bitXor | bitAnd | within | instanceOf
  deriving DecidableEq, Repr, Inhabited

/-- Operators that may skip their second operand. -/
inductive LogicalOperator where
  | and | or | nullish
  deriving DecidableEq, Repr, Inhabited

inductive AssignmentOperator where
  | assign
  /-- Combines the old value with the new one. -/
  | compound (op : BinaryOperator)
  /-- Assigns only if the old value calls for it. -/
  | logical (op : LogicalOperator)
  deriving DecidableEq, Repr, Inhabited

def AssignmentOperator.binary? : AssignmentOperator → Option BinaryOperator
  | compound op => some op
  | _ => none

inductive DeclarationKind where
  | functionWide
  | blockWide
  | constant
  deriving DecidableEq, Repr, Inhabited

inductive PropertyKind where
  | value | getter | setter
  deriving DecidableEq, Repr, Inhabited

/-- Expressions that are never lowered. -/
inductive BareExpression where
  | superclass | classExpression | taggedTemplate | yield | await | chain | importCall | metaProperty
  | privateName
  deriving DecidableEq, Repr, Inhabited

/-- Statements of which only the kind matters. -/
inductive BareStatement where
  | classDeclaration | empty | debugger | withStatement | labeled | switchStatement | throwStatement
  | tryStatement | importDeclaration | exportNamed | exportDefault | exportAll
  deriving DecidableEq, Repr, Inhabited

mutual

inductive Expression where
  | identifier (id : Identifier)
  | literal (value : Literal)
  | this (loc : Option Location)
  /-- An array literal; `none` is a hole. -/
  | array (elements : List (Option Expression))
  | object (members : List ObjectMember) (loc : Option Location)
  | function (value : Function)
  | arrow (params : List Pattern) (body : ArrowBody) (isAsync : Bool) (loc : Option Location)
  | unary (op : UnaryOperator) (operand : Expression)
  /-- `prefixed` tells whether the operator stands first. -/
  | update (op : UpdateOperator) (prefixed : Bool) (target : Expression)
  | binary (op : BinaryOperator) (left right : Expression)
  | logical (op : LogicalOperator) (left right : Expression)
  | assignment (op : AssignmentOperator) (target : AssignmentTarget) (value : Expression)
  | conditional (test consequent alternate : Expression)
  | call (callee : Expression) (arguments : List Expression)
  | construct (callee : Expression) (arguments : List Expression)
  /-- A member access; `computed` tells whether the property is written in brackets. -/
  | member (object property : Expression) (computed : Bool) (loc : Option Location)
  | sequence (expressions : List Expression)
  /-- A template: texts with expressions between them. A text is `none` if it has a bad escape. -/
  | template (texts : List (Option String)) (expressions : List Expression) (loc : Option Location)
  | spread (argument : Expression) (loc : Option Location)
  | bare (kind : BareExpression) (loc : Option Location)

inductive AssignmentTarget where
  | identifier (id : Identifier)
  | member (object property : Expression) (computed : Bool)
  | pattern (loc : Option Location)

inductive ObjectMember where
  | property (key value : Expression) (kind : PropertyKind) (method computed : Bool)
      (loc : Option Location)
  | spread (loc : Option Location)

inductive ArrowBody where
  | block (body : List Statement)
  | expression (value : Expression)

inductive Function where
  | mk (id : Option Identifier) (params : List Pattern) (body : List Statement)
      (generator isAsync : Bool) (loc : Option Location)

inductive Pattern where
  | identifier (id : Identifier)
  /-- Elements by position; `none` is a hole. -/
  | array (elements : List (Option Pattern))
  | object (members : List PatternMember)
  | withDefault (target : Pattern) (default : Expression)
  | rest (argument : Pattern) (loc : Option Location)
  /-- A member access, which binds no name. -/
  | member (loc : Option Location)

inductive PatternMember where
  | property (key : Expression) (value : Pattern) (computed : Bool) (loc : Option Location)
  | rest (argument : Pattern) (loc : Option Location)

inductive Declarator where
  | mk (target : Pattern) (init : Option Expression)

inductive Declaration where
  | mk (kind : DeclarationKind) (declarators : List Declarator) (loc : Option Location)

/-- The first part of a `for` loop's head. -/
inductive ForInit where
  | declaration (decl : Declaration)
  | expression (value : Expression)

inductive ForTarget where
  | declaration (decl : Declaration)
  | target (target : AssignmentTarget)

inductive Statement where
  | declaration (decl : Declaration)
  | function (value : Function)
  | expression (value : Expression)
  | block (body : List Statement)
  | returns (argument : Option Expression)
  | breaks (label : Option Identifier) (loc : Option Location)
  | continues (label : Option Identifier) (loc : Option Location)
  | ifElse (test : Expression) (consequent : Statement) (alternate : Option Statement)
  | whileLoop (test : Expression) (body : Statement)
  | doWhile (test : Expression) (body : Statement)
  | forLoop (init : Option ForInit) (test update : Option Expression) (body : Statement)
  | forIn (target : ForTarget) (object : Expression) (body : Statement) (isAwait : Bool)
      (loc : Option Location)
  | forOf (target : ForTarget) (iterable : Expression) (body : Statement) (isAwait : Bool)
      (loc : Option Location)
  | bare (kind : BareStatement) (loc : Option Location)

end

instance : Inhabited Expression := ⟨.this none⟩
instance : Inhabited Pattern := ⟨.member none⟩
instance : Inhabited Statement := ⟨.bare .empty none⟩

structure Program where
  body : List Statement
  deriving Inhabited

namespace Declarator

def target : Declarator → Pattern
  | mk target _ => target

def init : Declarator → Option Expression
  | mk _ init => init

end Declarator

namespace Declaration

def kind : Declaration → DeclarationKind
  | mk kind _ _ => kind

def declarators : Declaration → List Declarator
  | mk _ declarators _ => declarators

def loc : Declaration → Option Location
  | mk _ _ loc => loc

def isConstant (d : Declaration) : Bool := d.kind = .constant

end Declaration

namespace Function

def id : Function → Option Identifier
  | mk id .. => id

def loc : Function → Option Location
  | mk _ _ _ _ _ loc => loc

end Function

end ScriptIr.Tree
