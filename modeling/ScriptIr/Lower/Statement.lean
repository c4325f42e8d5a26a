import ScriptIr.Lower.Frame
import ScriptIr.Lower.Function
import ScriptIr.Lower.Pattern

/-!
# Statements

What each kind of statement stands for, given what its parts stand for. A list of statements first
announces all names it declares, then makes its functions, then runs the other statements.

* `Item`, `listCode`: lists of statements.
-/
namespace ScriptIr.Lower

open Code (BlockId InstId Inst)
open ScriptIr.Tree (Expression Declaration Identifier BareStatement)

/-- A member of a list of statements. -/
inductive Item where
  | declaration (decl : Declaration) (code : StmtCode)
  | function (value : Tree.Function) (closure : ExprCode)
  | statement (code : StmtCode)
  deriving Inhabited

/-- A member of a list, from what it stands for in its place and the closure if it is a function. -/
def Item.of (s : Tree.Statement) (code : StmtCode) (closure : Option ExprCode) : Item :=
  match s, closure with
  | .declaration decl, _ => .declaration decl code
  | .function f, some closure => .function f closure
  | _, _ => .statement code

def functionName (f : Tree.Function) : Emit String :=
  match f.id with
  | some id => return id.name
  | none => unsupported .anonymousFunction f.loc

def announceItem (ctx : Ctx) (block : BlockId) : Item → Emit Unit
  | .declaration decl _ => announce ctx block decl
  | .function f _ => do
    let name ← functionName f
    announceNames ctx block false [name]
  | .statement _ => return ()

def announceItems (ctx : Ctx) (block : BlockId) : List Item → Emit Unit
  | [] => return ()
  | item :: items => do
    announceItem ctx block item
    announceItems ctx block items

def functionDeclarationCode (f : Tree.Function) (closure : ExprCode) : StmtCode :=
  fun ctx block => do
    let name ← functionName f
    let r ← closure ctx block
    let slot ← naming (Scope.Naming.declare ctx.scope name none false)
    perform ctx r.block (.store slot r.value)
    return r.block

/-- What making a function stands for, if the member is one. -/
def Item.hoisted? : Item → Option StmtCode
  | function f closure => some (functionDeclarationCode f closure)
  | _ => none

/-- What the member stands for in its place, unless it is a function. -/
def Item.inPlace? : Item → Option StmtCode
  | declaration _ code | statement code => some code
  | function .. => none

def runAll (ctx : Ctx) : BlockId → List StmtCode → Emit BlockId
  | block, [] => return block
  | block, code :: codes => do runAll ctx (← code ctx block) codes

/-- Names are announced first, then functions are made, then the other members run in turn. -/
def listCode (items : List Item) : StmtCode := fun ctx block => do
  announceItems ctx block items
  let block ← runAll ctx block (items.filterMap Item.hoisted?)
  runAll ctx block (items.filterMap Item.inPlace?)

/-- A block runs in a frame of its own. -/
def blockCode (items : List Item) : StmtCode := fun ctx block => do
  let scope ← newScope (some ctx.scope) .block
  let frame ← openFrame ctx scope
  perform ctx block (.jump frame.entry)
  let last ← listCode items (ctx.withScope scope) frame.body
  closeFrame ctx frame
  popScopes ctx last 1
  return last

def expressionCode (code : ExprCode) : StmtCode := fun ctx block => do
  return (← code ctx block).block

def returnCode (argument : Option ExprCode) : StmtCode := fun ctx block => do
  let r ← initCode argument ctx block
  popScopes ctx r.block (← scopes (·.scopesToFunction ctx.scope))
  perform ctx r.block (.ret r.value)
  newBlock ctx

/-- Jumps to a target and leaves the frames on the way. -/
def jumpCode (label : Option Identifier) (loc : Option Location) (labeled : Construct)
    (missing : Error) (find : Scope.Arena → Scope.ScopeId → Option (BlockId × Nat)) : StmtCode :=
  fun ctx block => do
    if label.isSome then unsupported labeled loc
    match ← scopes (find · ctx.scope) with
    | none => throw missing
    | some (target, pops) =>
      popScopes ctx block pops
      perform ctx block (.jump target)
      newBlock ctx

def breakCode (label : Option Identifier) (loc : Option Location) : StmtCode :=
  jumpCode label loc .labeledBreak .illegalBreak Scope.Arena.findBreak

def continueCode (label : Option Identifier) (loc : Option Location) : StmtCode :=
  jumpCode label loc .labeledContinue .illegalContinue Scope.Arena.findContinue

def ifCode (test : ExprCode) (consequent : StmtCode) (alternate : Option StmtCode) : StmtCode :=
  fun ctx block => do
    let t ← test ctx block
    let first ← newBlock ctx
    let following ← newBlock ctx
    match alternate with
    | none =>
      perform ctx t.block (.branch t.value first following)
      let last ← consequent ctx first
      perform ctx last (.jump following)
    | some alternate =>
      let second ← newBlock ctx
      perform ctx t.block (.branch t.value first second)
      let last ← consequent ctx first
      perform ctx last (.jump following)
      let last ← alternate ctx second
      perform ctx last (.jump following)
    return following

/-- The construct that a statement without parts stands for, if it is not lowered. -/
def bareConstruct? : BareStatement → Option Construct
  | .empty | .debugger => none
  | .classDeclaration => some .classDeclaration
  | .withStatement => some .withStatement
  | .labeled => some .labeledStatement
  | .switchStatement => some .switchStatement
  | .throwStatement => some .throwStatement
  | .tryStatement => some .tryStatement
  | kind => some (.node kind.kindName)

def bareCode (kind : BareStatement) (loc : Option Location) : StmtCode := fun ctx block => do
  if let some construct := bareConstruct? kind then unsupported construct loc
  if kind = .debugger then perform ctx block .debugger
  return block

end ScriptIr.Lower
