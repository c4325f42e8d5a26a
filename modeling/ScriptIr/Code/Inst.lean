import ScriptIr.Code.Id
import ScriptIr.Code.Tag

/-!
# Instructions

An instruction refers to other instructions of its function by their position in the arena and to
blocks by their position in the function.

* `Inst.operands`, `Inst.blockRefs`, `Inst.successors`: what it refers to.
-/
namespace ScriptIr.Code

inductive BinaryOp where
  | add | sub | mul | div | mod | bitAnd | bitOr | bitXor | shiftLeft | shiftRight | shiftRightZero
  | eq | strictEq | ne | strictNe | gt | ge | lt | le | inOp | instanceOf
  deriving DecidableEq, Repr, Inhabited

namespace BinaryOp

def tag : BinaryOp → Tag
  | add => .add
  | sub => .sub
  | mul => .mul
  | div => .div
  | mod => .mod
  | bitAnd => .bitAnd
  | bitOr => .bitOr
  | bitXor => .bitXor
  | shiftLeft => .shiftLeft
  | shiftRight => .shiftRight
  | shiftRightZero => .shiftRightZero
  | eq => .eq
  | strictEq => .strictEq
  | ne => .ne
  | strictNe => .strictNe
  | gt => .gt
  | ge => .ge
  | lt => .lt
  | le => .le
  | inOp => .inOp
  | instanceOf => .instanceOf

end BinaryOp

inductive UnaryOp where
  | neg | bitNot | logicalNot | typeOf
  deriving DecidableEq, Repr, Inhabited

def UnaryOp.tag : UnaryOp → Tag
  | neg => .neg
  | bitNot => .bitNot
  | logicalNot => .logicalNot
  | typeOf => .typeOf

/-- Instructions. They refer to values by the instructions that compute them. -/
inductive Inst where
  | ret (value : InstId)
  | load (addr : InstId)
  | store (addr value : InstId)
  | getItem (object key : InstId)
  | setItem (object key value : InstId)
  | delItem (object key : InstId)
  | new (callee args : InstId)
  | call (callee receiver args : InstId)
  | jump (target : BlockId)
  | branch (cond : InstId) (thenBlock elseBlock : BlockId)
  | getGlobal (name : String)
  | undefined
  | null
  | boolean (value : Bool)
  | number (bits : UInt64)
  | string (text : String)
  /-- A regular expression literal in source form. -/
  | regex (text : String)
  | object (props : List (InstId × InstId))
  | array (elements : List InstId)
  | func (target : FuncId) (captured : List InstId)
  | arrow (target : FuncId) (captured : List InstId)
  | binary (op : BinaryOp) (lhs rhs : InstId)
  | unary (op : UnaryOp) (operand : InstId)
  /-- Opens a frame with `size` slots that sees the captured slots. -/
  | pushScope (size : UInt32) (captured : List InstId)
  | popScope (count : UInt32)
  | alloca
  | arg (index : UInt32)
  | capture (index : UInt32)
  | this
  | arguments
  | move (value : InstId)
  | phi (incoming : List (BlockId × InstId))
  | debugger
  deriving DecidableEq, Repr, Inhabited

inductive Field where
  | value (id : InstId)
  | block (id : BlockId)
  | function (id : FuncId)
  | immediate (n : UInt32)
  | number (bits : UInt64)
  | text (s : String)
  deriving DecidableEq, Repr, Inhabited

namespace Inst

def tag : Inst → Tag
  | ret _ => .ret
  | load _ => .load
  | store .. => .store
  | getItem .. => .getItem
  | setItem .. => .setItem
  | delItem .. => .delItem
  | new .. => .new
  | call .. => .call
  | jump _ => .jump
  | branch .. => .branch
  | getGlobal _ => .getGlobal
  | undefined => .undefined
  | null => .null
  | boolean value => if value then .trueLit else .falseLit
  | number _ => .number
  | string _ => .string
  | regex _ => .regex
  | object _ => .object
  | array _ => .array
  | func .. => .func
  | arrow .. => .arrow
  | binary op .. => op.tag
  | unary op _ => op.tag
  | pushScope .. => .pushScope
  | popScope _ => .popScope
  | alloca => .alloca
  | arg _ => .arg
  | capture _ => .capture
  | this => .this
  | arguments => .arguments
  | move _ => .move
  | phi _ => .phi
  | debugger => .debugger

/-- The instruction's fields, in the order in which a module file holds them. -/
def fields : Inst → List Field
  | ret value | move value => [.value value]
  | load addr => [.value addr]
  | store addr value => [.value addr, .value value]
  | getItem base key | delItem base key => [.value base, .value key]
  | setItem base key value => [.value base, .value key, .value value]
  | new callee args => [.value callee, .value args]
  | call callee receiver args => [.value callee, .value receiver, .value args]
  | jump target => [.block target]
  | branch cond thenBlock elseBlock => [.value cond, .block thenBlock, .block elseBlock]
  | getGlobal text | string text | regex text => [.text text]
  | number bits => [.number bits]
  | object props => props.flatMap fun (key, value) => [.value key, .value value]
  | array elements => elements.map .value
  | func target captured | arrow target captured => .function target :: captured.map .value
  | binary _ lhs rhs => [.value lhs, .value rhs]
  | unary _ operand => [.value operand]
  | pushScope size captured => .immediate size :: captured.map .value
  | popScope n | arg n | capture n => [.immediate n]
  | phi incoming => incoming.flatMap fun (block, value) => [.block block, .value value]
  | undefined | null | boolean _ | alloca | this | arguments | debugger => []

/-- The instructions whose values it reads. -/
def operands (i : Inst) : List InstId :=
  i.fields.filterMap fun | .value id => some id | _ => none

def blockRefs (i : Inst) : List BlockId :=
  i.fields.filterMap fun | .block id => some id | _ => none

/-- Whether it ends a block. -/
def isTerminator : Inst → Bool
  | ret _ | jump _ | branch .. => true
  | _ => false

/-- Whether other instructions can use its value. -/
def hasValue : Inst → Bool
  | ret _ | store .. | setItem .. | jump _ | branch .. | pushScope .. | popScope _ | debugger => false
  | _ => true

/-- The blocks to which control passes from it. -/
def successors : Inst → List BlockId
  | jump target => [target]
  | branch _ thenBlock elseBlock => [thenBlock, elseBlock]
  | _ => []

/-- The function that a closure is made of. -/
def closure? : Inst → Option FuncId
  | func target _ | arrow target _ => some target
  | _ => none

end Inst

end ScriptIr.Code
