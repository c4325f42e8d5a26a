import ScriptIr.Code.Module
import ScriptIr.Number.Binary64
import ScriptIr.Scope.Arena

/-!
# Emitting code

Lowering appends instructions to blocks. A piece of source stands for an action that takes the
function and scope it is in and the block to append to, and answers the block where control
continues; the action of an expression also answers the instruction that holds its value.
-/
namespace ScriptIr.Lower

open Code (BlockId InstId Inst)
open Scope (ScopeId)

/-- The function and the scope that code is lowered in. -/
structure Ctx where
  /-- The function's position in the module. -/
  func : Nat
  scope : ScopeId
  deriving DecidableEq, Repr, Inhabited

def Ctx.withScope (ctx : Ctx) (scope : ScopeId) : Ctx := { ctx with scope }

/-- A place of the program that reads or writes a name, with the address that the name has there. -/
structure Use where
  /-- The function's position in the module. -/
  func : Nat
  name : String
  address : InstId
  deriving DecidableEq, Repr, Inhabited

/-- The module and the scopes built so far, and the uses of names in the order of lowering. -/
structure State where
  module : Code.Module
  scopes : Scope.Arena := .empty
  uses : Array Use := #[]
  deriving DecidableEq, Repr, Inhabited

/-- A computation that emits code. A failure keeps what was built before it. -/
abbrev Emit := EStateM Error State

/-- Where control is after an expression, and the expression's value. -/
structure Lowered where
  block : BlockId
  value : InstId
  deriving DecidableEq, Repr, Inhabited

/-- What an expression stands for. -/
abbrev ExprCode := Ctx → BlockId → Emit Lowered

/-- What a statement stands for. -/
abbrev StmtCode := Ctx → BlockId → Emit BlockId

def unsupported (construct : Construct) (loc : Option Location) : Emit α :=
  throw (.unsupported construct loc)

def failing (e : Error) : ExprCode := fun _ _ => throw e

/-- Runs a computation on the scopes. -/
def naming (x : Scope.Naming α) : Emit α := fun s =>
  match x s.scopes with
  | .ok a scopes => .ok a { s with scopes }
  | .error e scopes => .error e { s with scopes }

def scopes (read : Scope.Arena → α) : Emit α := return read (← get).scopes

def modifyScopes (change : Scope.Arena → Scope.Arena) : Emit Unit :=
  modify fun s => { s with scopes := change s.scopes }

/-- Takes down a use of a name. -/
def record (use : Use) : Emit Unit := modify fun s => { s with uses := s.uses.push use }

def newScope (parent : Option ScopeId) (kind : Scope.Kind) : Emit ScopeId :=
  modifyGet fun s =>
    let (scope, scopes) := s.scopes.push parent kind
    (scope, { s with scopes })

def newFunction (name : String) (paramCount : Nat) : Emit Nat :=
  modifyGet fun s =>
    let (func, module) := s.module.newFunc name paramCount.toUInt32
    (func, { s with module })

/-- A block is numbered by its position in the function. -/
def newBlock (ctx : Ctx) : Emit BlockId :=
  modifyGet fun s =>
    (((s.module.functions[ctx.func]?).map (·.blocks.size)).getD 0,
      { s with module := s.module.modify ctx.func fun f => f.newBlock.2 })

/-- Appends an instruction to a block; it has the next number of the function. -/
def emit (ctx : Ctx) (block : BlockId) (inst : Inst) : Emit InstId :=
  modifyGet fun s =>
    (((s.module.functions[ctx.func]?).map (·.insts.size)).getD 0,
      { s with module := s.module.modify ctx.func fun f => (f.push block inst).2 })

/-- Puts another instruction in the place of one. -/
def patch (ctx : Ctx) (id : InstId) (inst : Inst) : Emit Unit :=
  modify fun s => { s with module := s.module.modify ctx.func fun f => f.replace id inst }

/-- The instruction at a position of the current function. -/
def instAt? (ctx : Ctx) (id : InstId) : Emit (Option Inst) := do
  return ((← get).module.functions[ctx.func]?).bind fun f => f.insts[id]?

/-! ## Common sequences -/

/-- Appends an instruction whose value is not used. -/
def perform (ctx : Ctx) (block : BlockId) (inst : Inst) : Emit Unit := discard (emit ctx block inst)

def emitNumber (ctx : Ctx) (block : BlockId) (n : Nat) : Emit InstId :=
  emit ctx block (.number (Number.ofNat n))

/-- The value of a global variable. -/
def loadGlobal (ctx : Ctx) (block : BlockId) (name : String) : Emit InstId := do
  emit ctx block (.load (← emit ctx block (.getGlobal name)))

/-- The property of an object with the given name. -/
def getNamed (ctx : Ctx) (block : BlockId) (object : InstId) (name : String) : Emit InstId := do
  let key ← emit ctx block (.string name)
  emit ctx block (.getItem object key)

def callWith (ctx : Ctx) (block : BlockId) (callee receiver : InstId) (args : List InstId) :
    Emit InstId := do
  let args ← emit ctx block (.array args)
  emit ctx block (.call callee receiver args)

/-- Leaves so many frames. -/
def popScopes (ctx : Ctx) (block : BlockId) (count : Nat) : Emit Unit := do
  if 0 < count then perform ctx block (.popScope count.toUInt32)

def returnUndefined (ctx : Ctx) (block : BlockId) : Emit Unit := do
  perform ctx block (.ret (← emit ctx block .undefined))

end ScriptIr.Lower
