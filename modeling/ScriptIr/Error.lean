import ScriptIr.Code.Id
import ScriptIr.Location
import ScriptIr.Text.Quoted

/-!
# Errors

Every failure is a cause; its wording is given once, by `Error.message`.

* `Error`, `Error.category`, `Error.message`: what the library's operations fail with.
-/
namespace ScriptIr

open Code (InstId BlockId FuncId showInst showBlock showFunc)

/-- A part of the language that is recognised and not lowered. -/
inductive Construct where
  | node (kind : String)
  | propertyKey (kind : String)
  | parameter (kind : String)
  | spreadElement
  | spreadArgument
  | objectSpread
  | superProperty
  | privateField
  | bigInt
  | literal
  | literalKey
  | accessor
  | method
  | computedKey
  | deleteNonMember
  | logicalAssignment
  | destructuringAssignment
  | invalidEscape
  | anonymousFunction
  | nestedFunction
  | classDeclaration
  | withStatement
  | labeledStatement
  | switchStatement
  | throwStatement
  | tryStatement
  | labeledBreak
  | labeledContinue
  | forAwait
  | varDeclaration
  | manyLoopBindings
  | arrayRest
  | objectRest
  | computedPatternKey
  | restElement
  | memberPattern
  | generator
  | asyncFunction
  | destructuringRest
  | defaultParameter
  deriving DecidableEq, Repr, Inhabited

namespace Construct

def describe : Construct → String
  | node kind => kind
  | propertyKey kind => kind ++ " as property key"
  | parameter kind => kind ++ " parameter"
  | spreadElement => "spread element"
  | spreadArgument => "spread argument"
  | objectSpread => "object spread"
  | superProperty => "super property access"
  | privateField => "private field access"
  | bigInt => "BigInt literal"
  | literal => "literal"
  | literalKey => "literal property key"
  | accessor => "accessor property"
  | method => "method property"
  | computedKey => "computed property key"
  | deleteNonMember => "delete of a non-member expression"
  | logicalAssignment => "logical assignment"
  | destructuringAssignment => "destructuring assignment"
  | invalidEscape => "template literal with an invalid escape"
  | anonymousFunction => "anonymous function declaration"
  | nestedFunction => "function declaration in single-statement context"
  | classDeclaration => "class declaration"
  | withStatement => "with statement"
  | labeledStatement => "labeled statement"
  | switchStatement => "switch statement"
  | throwStatement => "throw statement"
  | tryStatement => "try statement"
  | labeledBreak => "labeled break"
  | labeledContinue => "labeled continue"
  | forAwait => "for await"
  | varDeclaration => "var declaration"
  | manyLoopBindings => "multiple for-each bindings"
  | arrayRest => "rest element in array pattern"
  | objectRest => "rest element in object pattern"
  | computedPatternKey => "computed key in object pattern"
  | restElement => "rest element"
  | memberPattern => "member expression in declaration"
  | generator => "generator function"
  | asyncFunction => "async function"
  | destructuringRest => "destructuring rest parameter"
  | defaultParameter => "default parameter value"

end Construct

/-- A way in which a function's code is not well formed. -/
inductive Violation where
  | emptyBlock (block : BlockId)
  | unterminated (block : BlockId)
  | earlyTerminator (block : BlockId) (inst : InstId)
  | unplacedOperand (inst operand : InstId)
  | valuelessOperand (inst operand : InstId)
  | missingBlock (inst : InstId) (target : BlockId)
  | unknownFunction (target : FuncId)
  deriving DecidableEq, Repr, Inhabited

namespace Violation

def describe : Violation → String
  | emptyBlock b => showBlock b ++ " is empty"
  | unterminated b => showBlock b ++ " does not end in a terminator"
  | earlyTerminator b i => showBlock b ++ " has a terminator " ++ showInst i ++ " before its end"
  | unplacedOperand i v => showInst i ++ " uses " ++ showInst v ++ ", which is not placed in a block"
  | valuelessOperand i v => showInst i ++ " uses " ++ showInst v ++ ", which produces no value"
  | missingBlock i b => showInst i ++ " refers to missing " ++ showBlock b
  | unknownFunction f => "closure refers to unknown function " ++ showFunc f

end Violation

inductive Fault where
  | emptySequence
  /-- The name of a plain member access is a node of the named kind. -/
  | memberKey (kind : String)
  | missingSlot (name : String)
  | invisibleCapture (name : String)
  | lostFrame
  | lostLoopVariable (name : String)
  | unplaced (inst : InstId) (function : String)
  | violation (function : String) (cause : Violation)
  deriving DecidableEq, Repr, Inhabited

namespace Fault

def describe : Fault → String
  | emptySequence => "empty sequence expression"
  | memberKey kind => "non-computed member key is a " ++ kind
  | missingSlot name => "declaration of '" ++ name ++ "' has no slot"
  | invisibleCapture name => "captured name '" ++ name ++ "' is not visible at its capture site"
  | lostFrame => "scope frame lost its push_scope"
  | lostLoopVariable name => "loop variable '" ++ name ++ "' vanished"
  | unplaced inst function =>
    "instruction " ++ showInst inst ++ " in function " ++ Text.quoted function
      ++ " is not placed in any block"
  | violation function cause => "in function " ++ Text.quoted function ++ ": " ++ cause.describe

end Fault

inductive ModuleFault where
  | badMagic
  | truncated (offset : Nat)
  | pastEnd (offset : Nat)
  | loneSurrogate
  | unknownSection (code : UInt32)
  | misalignedSection (offset : UInt32)
  | detachedSection (offset : UInt32) (expected : Nat)
  | missingPool
  | secondPool
  | unknownTag (code : UInt32)
  | trailing (count : Nat) (function : String)
  | valueRange (offset : UInt32) (function : String)
  | blockRange (index : UInt32) (function : String)
  deriving DecidableEq, Repr, Inhabited

namespace ModuleFault

def describe : ModuleFault → String
  | badMagic => "bad magic"
  | truncated offset => "truncated section at offset " ++ toString offset
  | pastEnd offset => "offset " ++ toString offset ++ " is past the end of the section"
  | loneSurrogate => "bad string: invalid utf-16: lone surrogate found"
  | unknownSection code => "unknown section type " ++ toString code.toNat
  | misalignedSection offset =>
    "section offset " ++ toString offset.toNat ++ " is not 8-byte aligned"
  | detachedSection offset expected =>
    "section offset " ++ toString offset.toNat ++ " does not follow the previous section (expected "
      ++ toString expected ++ ")"
  | missingPool => "missing string pool section"
  | secondPool => "more than one string pool section"
  | unknownTag code => "unknown instruction tag " ++ toString code.toNat
  | trailing count function =>
    toString count ++ " trailing bytes after function " ++ Text.quoted function
  | valueRange offset function =>
    "operand " ++ toString offset.toNat ++ " out of range in function " ++ Text.quoted function
  | blockRange index function =>
    "block " ++ toString index.toNat ++ " out of range in function " ++ Text.quoted function

end ModuleFault

inductive StorageFault where
  | notFound
  | alreadyThere
  | notDirectory
  | isDirectory
  | nameTooLong
  | badName
  /-- The bytes of the file are not text. -/
  | notText
  | other (reason : String)
  deriving DecidableEq, Repr, Inhabited

/-- The reason in words, with the system's number for it if it has one. -/
def StorageFault.describe : StorageFault → String
  | notFound => "No such file or directory (os error 2)"
  | alreadyThere => "File exists (os error 17)"
  | notDirectory => "Not a directory (os error 20)"
  | isDirectory => "Is a directory (os error 21)"
  | nameTooLong => "File name too long (os error 36)"
  | badName => "file name contained an unexpected NUL byte"
  | notText => "stream did not contain valid UTF-8"
  | other reason => reason

inductive Error where
  | unsupported (construct : Construct) (loc : Option Location)
  | undefined (name : String)
  | redeclaration (name : String)
  | constAssignment (name : String)
  | illegalBreak
  | illegalContinue
  | invalidAssignmentTarget (kind : String)
  | internal (fault : Fault)
  /-- The document is not a syntax tree. -/
  | malformedTree
  | invalidModule (fault : ModuleFault)
  /-- A file could not be written. -/
  | storage (fault : StorageFault)
  deriving DecidableEq, Repr, Inhabited

/-- Who has to act on an error. -/
inductive Category where
  | unsupported
  | semantic
  | internal
  | input
  deriving DecidableEq, Repr, Inhabited

def Category.name : Category → String
  | unsupported => "Unsupported"
  | semantic => "Semantic"
  | internal => "Internal"
  | input => "Input"

namespace Error

def category : Error → Category
  | unsupported .. => .unsupported
  | undefined _ | redeclaration _ | constAssignment _ | illegalBreak | illegalContinue
  | invalidAssignmentTarget _ => .semantic
  | internal _ => .internal
  | malformedTree | invalidModule _ | storage _ => .input

def message : Error → String
  | unsupported construct none => construct.describe ++ " is not supported"
  | unsupported construct (some loc) =>
    construct.describe ++ " is not supported (at " ++ loc.display ++ ")"
  | undefined name => "ReferenceError: Cannot access '" ++ name ++ "' before initialization"
  | redeclaration name => "SyntaxError: Identifier '" ++ name ++ "' has already been declared"
  | constAssignment name => "TypeError: Assignment to constant variable '" ++ name ++ "'"
  | illegalBreak => "SyntaxError: Illegal break statement"
  | illegalContinue => "SyntaxError: Illegal continue statement"
  | invalidAssignmentTarget kind => "SyntaxError: Invalid left-hand side in " ++ kind
  | internal fault => "internal compiler error: " ++ fault.describe
  | malformedTree => "malformed syntax tree"
  | invalidModule fault => "invalid module: " ++ fault.describe
  | storage fault => "I/O error: " ++ fault.describe

end Error

end ScriptIr
