import ScriptIr.Lower.Expression

/-!
# Functions

A function becomes a function of the module, and a closure where it stands, which holds the slots it
captures. Parameters are plain names, of which the last may collect the rest.

* `parameterNames`: the names of the parameters.
* `closureCode`: the closure.
-/
namespace ScriptIr.Lower

open Code (BlockId InstId Inst)
open ScriptIr.Tree (Pattern)

/-- What the body of a function stands for, up to and including its last return. -/
abbrev BodyCode := Ctx → BlockId → Emit Unit

inductive FunctionKind where
  | function
  | arrow
  deriving DecidableEq, Repr, Inhabited

structure Header where
  kind : FunctionKind
  name : String
  params : List Pattern
  generator : Bool
  isAsync : Bool
  loc : Option Location
  deriving Inhabited

def parameterNames : List Pattern → Except Error (List String × Option String)
  | [] => .ok ([], none)
  | .identifier id :: params => do
    let (names, rest) ← parameterNames params
    return (id.name :: names, rest)
  | [.rest (.identifier id) _] => .ok ([], some id.name)
  | [.rest _ loc] => .error (.unsupported .destructuringRest loc)
  | .withDefault .. :: _ => .error (.unsupported .defaultParameter none)
  | p :: _ => .error (.unsupported (.parameter p.kindName) none)

def checkHeader (h : Header) : Emit Unit := do
  if h.generator then unsupported .generator h.loc
  if h.isAsync then unsupported .asyncFunction h.loc

def declareArguments (h : Header) (names : List String) (ctx : Ctx) (entry : BlockId) :
    Emit Unit := do
  if h.kind = .function && !names.contains "arguments" then
    let slot ← emit ctx entry .alloca
    let arguments ← emit ctx entry .arguments
    perform ctx entry (.store slot arguments)
    discard (naming (Scope.Naming.declare ctx.scope "arguments" (some slot) false))

/-- Declares the rest parameter: the arguments after the first `skip`, by `Array.prototype.slice`. -/
def declareRest (ctx : Ctx) (entry : BlockId) (skip : Nat) (name : String) : Emit Unit := do
  let array ← loadGlobal ctx entry "Array"
  let prototype ← getNamed ctx entry array "prototype"
  let slice ← getNamed ctx entry prototype "slice"
  let arguments ← emit ctx entry .arguments
  let start ← emitNumber ctx entry skip
  let rest ← callWith ctx entry slice arguments [start]
  let slot ← emit ctx entry .alloca
  perform ctx entry (.store slot rest)
  naming (Scope.Naming.setRest ctx.scope name slot)

/-- Lowers a function. It answers its id and the names that it captures. -/
def functionCode (h : Header) (body : BodyCode) (parent : Scope.ScopeId) :
    Emit (Code.FuncId × List String) := do
  checkHeader h
  let (names, rest) ← ofExcept (parameterNames h.params)
  let id := (← get).module.nextId
  let func ← newFunction h.name names.length
  let scope ← newScope (some parent) .function
  naming (Scope.Naming.setParams scope names)
  let ctx : Ctx := { func, scope }
  let entry ← newBlock ctx
  declareArguments h names ctx entry
  if let some rest := rest then declareRest ctx entry names.length rest
  body ctx entry
  return (id, ← capturedNames scope)

/-- Makes a closure of a function, with the slots that it captures. -/
def closureCode (h : Header) (body : BodyCode) : ExprCode := fun ctx block => do
  let (id, names) ← functionCode h body ctx.scope
  let captured ← capturedAddresses ctx block names
  let inst : Inst := match h.kind with
    | .function => .func id captured
    | .arrow => .arrow id captured
  return ⟨block, ← emit ctx block inst⟩

def expressionBody (code : ExprCode) : BodyCode := fun ctx entry => do
  let r ← code ctx entry
  perform ctx r.block (.ret r.value)

/-- A body of statements, which returns nothing when control reaches its end. -/
def statementBody (code : StmtCode) : BodyCode := fun ctx entry => do
  let last ← code ctx entry
  returnUndefined ctx last

end ScriptIr.Lower
