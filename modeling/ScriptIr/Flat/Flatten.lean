import ScriptIr.Code.Module
import ScriptIr.Error
import ScriptIr.Flat.Encode
import ScriptIr.Wire.Container

/-!
# From functions to sections

A function is flattened by numbering its instructions in block order. It cannot be flattened when an
instruction uses one that no block holds. The file of a module has one section per function, in the
order of creation, and the string pool last.

* `flattenField`, `Function.flatten`: flat code of a function.
-/
namespace ScriptIr.Code

open Wire (Container StringPool)

def flattenField (offsets : Array (Option Nat)) (function : String) : Field → Except Error Flat.Operand
  | .value id =>
    match offsets.getD id none with
    | some n => .ok (.value n.toUInt32)
    | none => .error (.internal (.unplaced id function))
  | .block id => .ok (.block id.toUInt32)
  | .function id => .ok (.function id)
  | .immediate n => .ok (.immediate n)
  | .number bits => .ok (.number bits)
  | .text s => .ok (.text s)

/-- An instruction with its operands numbered by `offsets`. -/
def flattenInst (offsets : Array (Option Nat)) (function : String) (inst : Inst) :
    Except Error Flat.Inst := do
  return ⟨inst.tag, ← inst.fields.mapM (flattenField offsets function)⟩

namespace Function

def flatten (f : Function) : Except Error Flat.Function := do
  let offsets := f.linearOffsets
  let blocks ← (List.range f.blocks.size).mapM fun b =>
    (f.blockInsts b).mapM (flattenInst offsets f.name)
  return { name := f.name, paramCount := f.paramCount, blocks }

/-- The payload of the function's section, with its texts added to the pool. -/
def encode (f : Function) (pool : StringPool) : Except Error (Wire.Bytes × StringPool) := do
  return (← f.flatten).encode pool

end Function

namespace Module

def addSections (c : Container) (pool : StringPool) :
    List Function → Except Error (Container × StringPool)
  | [] => .ok (c, pool)
  | f :: rest => do
    let (payload, pool) ← f.encode pool
    addSections (c.add .function payload) pool rest

def container (m : Module) : Except Error Container := do
  let (c, pool) ← addSections Container.empty StringPool.empty m.functions.toList
  return c.add .stringPool pool.bytes

def toBytes (m : Module) : Except Error Wire.Bytes := do
  return (← m.container).toBytes

end Module

end ScriptIr.Code
