import ScriptIr.Code.Module
import ScriptIr.Error

/-!
# Well-formed code

A function is well formed when every block ends in a terminator and has no other, every operand is an
instruction that is placed in a block and produces a value, and every named block exists. A module is
well formed when its functions are and every closure names one of them.

* `Function.violation?`: the first violation in a function, in block order.
* `Module.verify`: the first violation in a module as an error.
-/
namespace ScriptIr.Code

namespace Function

/-- The first operand of instruction `id` that is not placed or has no value. -/
def operandViolation? (f : Function) (offsets : Array (Option Nat)) (id operand : InstId) :
    Option Violation :=
  if !(offsets.getD operand none).isSome then some (.unplacedOperand id operand)
  else if !f.producesValue operand then some (.valuelessOperand id operand)
  else none

/-- The first violation among the references of the instruction at `id`. -/
def instViolation? (f : Function) (offsets : Array (Option Nat)) (id : InstId) : Option Violation :=
  match f.insts[id]? with
  | none => none
  | some inst =>
    match inst.operands.findSome? (f.operandViolation? offsets id) with
    | some v => some v
    | none =>
      (inst.blockRefs.find? (fun target => f.blocks.size ≤ target)).map (Violation.missingBlock id)

/-- Whether the instruction at a position is a terminator. -/
def endsBlock (f : Function) (id : InstId) : Bool := (f.insts[id]?).any (·.isTerminator)

def blockViolation? (f : Function) (offsets : Array (Option Nat)) (block : BlockId)
    (insts : List InstId) : Option Violation :=
  match insts.getLast? with
  | none => some (.emptyBlock block)
  | some last =>
    if !f.endsBlock last then some (.unterminated block)
    else
      match insts.dropLast.find? f.endsBlock with
      | some early => some (.earlyTerminator block early)
      | none => insts.findSome? (f.instViolation? offsets)

def violation? (f : Function) : Option Violation :=
  let offsets := f.linearOffsets
  f.blocks.toList.zipIdx.findSome? fun (insts, block) => f.blockViolation? offsets block insts.toList

def verify (f : Function) : Except Error Unit :=
  match f.violation? with
  | some v => .error (.internal (.violation f.name v))
  | none => .ok ()

def closures (f : Function) : List FuncId :=
  f.order.filterMap fun id => (f.insts[id]?).bind (·.closure?)

end Function

namespace Module

def closureViolation? (m : Module) (f : Function) : Option Violation :=
  (f.closures.find? (fun id => (m.find? id).isNone)).map Violation.unknownFunction

def verify (m : Module) : Except Error Unit :=
  m.functions.forM fun f => do
    f.verify
    match m.closureViolation? f with
    | some v => .error (.internal (.violation f.name v))
    | none => .ok ()

end Module

end ScriptIr.Code
