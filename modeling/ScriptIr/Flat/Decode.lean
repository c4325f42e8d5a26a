import ScriptIr.Flat.Basic
import ScriptIr.Wire.ModuleFile

/-!
# Reading function sections

A section is read back field by field as its tags demand. It must be used up, and its references must
stay inside the function.

* `decodeFields`: the fields of one instruction.
-/
namespace ScriptIr.Flat

open Code (FieldKind Layout Tag)
open Wire (Bytes ModuleFile Read)

def readText (file : ModuleFile) (offset : UInt32) : Read String :=
  match file.textAt offset with
  | .ok s => return s
  | .error e => throw e

def decodeOperand (file : ModuleFile) : FieldKind → Read Operand
  | .value => return .value (← Read.uint)
  | .block => return .block (← Read.uint)
  | .function => return .function (← Read.uint)
  | .immediate => return .immediate (← Read.uint)
  | .number => return .number (← Read.number)
  | .text => do return .text (← readText file (← Read.uint))

def decodeOperands (file : ModuleFile) : List FieldKind → Read (List Operand)
  | [] => return []
  | kind :: rest => do
    let o ← decodeOperand file kind
    let more ← decodeOperands file rest
    return o :: more

def decodeFields (file : ModuleFile) (layout : Layout) : Read (List Operand) := do
  let fixed ← decodeOperands file layout.fixed
  match layout.group with
  | none => return fixed
  | some group =>
    let n ← Read.uint
    let groups ← Read.times n.toNat (decodeOperands file group)
    return fixed ++ groups.flatten

def decodeInst (file : ModuleFile) : Read Inst := do
  let code ← Read.uint
  let some tag := Tag.ofCode? code | throw (.unknownTag code)
  return ⟨tag, ← decodeFields file tag.layout⟩

def decodeBlock (file : ModuleFile) : Read (List Inst) := do
  let n ← Read.uint
  Read.times n.toNat (decodeInst file)

/-- The first field that refers to an instruction or a block outside the function. -/
def Function.rangeFault? (f : Function) : Option ModuleFault :=
  let insts := f.instCount
  let blocks := f.blocks.length
  (f.blocks.flatten.flatMap (·.operands)).findSome? fun
    | .value offset => if insts ≤ offset.toNat then some (.valueRange offset f.name) else none
    | .block index => if blocks ≤ index.toNat then some (.blockRange index f.name) else none
    | _ => none

/-- The function at the cursor, which must be all that is left. -/
def readFunction (file : ModuleFile) : Read Function := do
  let name ← readText file (← Read.uint)
  let paramCount ← Read.uint
  let n ← Read.uint
  let blocks ← Read.times n.toNat (decodeBlock file)
  let rest := (← get).remaining
  if rest ≠ 0 then throw (.trailing rest name)
  let f : Function := { name, paramCount, blocks }
  match f.rangeFault? with
  | some fault => throw fault
  | none => return f

/-- The function of a section, its texts taken from the file's string pool. -/
def Function.decode (file : ModuleFile) (payload : Bytes) : Except ModuleFault Function :=
  Read.run (readFunction file) payload

end ScriptIr.Flat
