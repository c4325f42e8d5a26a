import ScriptIr.Lower.Expression
import ScriptIr.Tree.Names

/-!
# Declarations and patterns

The names of a declaration are announced first, with a slot each, and declared when their value is
there; until then they cannot be used in their own scope.

* `announceNames`, `announce`: slots and forward declarations.
* `bindName`, `bindElements`, `bindMembers`, `bindDefault`: how a value is taken apart.
* `declarationCode`: a declaration.
-/
namespace ScriptIr.Lower

open Code (BlockId InstId Inst)
open ScriptIr.Tree (Expression Declaration Pattern)

/-- How a pattern binds its names to the parts of a value. -/
abbrev BindCode := Ctx → BlockId → (value : InstId) → (constant : Bool) → Emit BlockId

/-- Gives each name a slot and a forward declaration. -/
def announceNames (ctx : Ctx) (block : BlockId) (constant : Bool) : List String → Emit Unit
  | [] => return ()
  | name :: names => do
    let slot ← emit ctx block .alloca
    naming (Scope.Naming.forwardDeclare ctx.scope name slot constant)
    announceNames ctx block constant names

def checkBlockWide (d : Declaration) : Emit Unit := do
  if d.kind = .functionWide then unsupported .varDeclaration d.loc

/-- Gives the names of a declaration their slots before it is reached. -/
def announce (ctx : Ctx) (block : BlockId) (d : Declaration) : Emit Unit := do
  checkBlockWide d
  announceNames ctx block d.isConstant d.boundNames

/-- A name that has been announced keeps its slot. -/
def bindName (name : String) : BindCode := fun ctx block value constant => do
  let announced ← scopes (·.hasLocal ctx.scope name)
  let given ← if announced then pure none else some <$> emit ctx block .alloca
  let slot ← naming (Scope.Naming.declare ctx.scope name given constant)
  perform ctx block (.store slot value)
  return block

def bindFailing (construct : Construct) (loc : Option Location) : BindCode :=
  fun _ _ _ _ => unsupported construct loc

inductive ElementBind where
  | hole
  | item (bind : BindCode)
  | rest (loc : Option Location)
  deriving Inhabited

def elementBind (p : Pattern) (bind : BindCode) : ElementBind :=
  match p with
  | .rest _ loc => .rest loc
  | _ => .item bind

def bindElements (ctx : Ctx) (value : InstId) (constant : Bool) :
    BlockId → (index : Nat) → List ElementBind → Emit BlockId
  | block, _, [] => return block
  | block, index, .hole :: elements => bindElements ctx value constant block (index + 1) elements
  | _, _, .rest loc :: _ => unsupported .arrayRest loc
  | block, index, .item bind :: elements => do
    let key ← emitNumber ctx block index
    let item ← emit ctx block (.getItem value key)
    let block ← bind ctx block item constant
    bindElements ctx value constant block (index + 1) elements

def bindArray (elements : List ElementBind) : BindCode := fun ctx block value constant =>
  bindElements ctx value constant block 0 elements

def patternKey (key : Expression) (computed : Bool) (loc : Option Location) : Except Error String :=
  if computed then .error (.unsupported .computedPatternKey loc) else propertyName key

def bindMembers (ctx : Ctx) (value : InstId) (constant : Bool) :
    BlockId → List (Except Error String × BindCode) → Emit BlockId
  | block, [] => return block
  | block, (name, bind) :: members => do
    let item ← getNamed ctx block value (← ofExcept name)
    let block ← bind ctx block item constant
    bindMembers ctx value constant block members

def bindObject (members : List (Except Error String × BindCode)) : BindCode :=
  fun ctx block value constant => bindMembers ctx value constant block members

/-- A value, or another one if it is undefined. -/
def defaultCode (default : ExprCode) (ctx : Ctx) (block : BlockId) (value : InstId) :
    Emit Lowered := do
  let fallback ← newBlock ctx
  let join ← newBlock ctx
  let undefined ← emit ctx block .undefined
  let missing ← emit ctx block (.binary .strictEq value undefined)
  perform ctx block (.branch missing fallback join)
  let r ← default ctx fallback
  perform ctx r.block (.jump join)
  return ⟨join, ← emit ctx join (.phi [(block, value), (r.block, r.value)])⟩

def bindDefault (target : BindCode) (default : ExprCode) : BindCode :=
  fun ctx block value constant => do
    let r ← defaultCode default ctx block value
    target ctx r.block r.value constant

/-- One binding of a declaration: its initial value and its pattern. -/
structure Binder where
  init : Option ExprCode
  bind : BindCode
  deriving Inhabited

/-- The initial value of a binding, undefined if there is none. -/
def initCode : Option ExprCode → ExprCode
  | some code => code
  | none => instCode .undefined

def bindAll (ctx : Ctx) (constant : Bool) : BlockId → List Binder → Emit BlockId
  | block, [] => return block
  | block, b :: binders => do
    let r ← initCode b.init ctx block
    let block ← b.bind ctx r.block r.value constant
    bindAll ctx constant block binders

def declarationCode (d : Declaration) (binders : List Binder) : StmtCode := fun ctx block => do
  checkBlockWide d
  bindAll ctx d.isConstant block binders

end ScriptIr.Lower
