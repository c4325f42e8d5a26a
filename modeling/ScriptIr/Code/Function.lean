import ScriptIr.Code.Inst

/-!
# Functions

A function is an arena of instructions and a list of blocks, each an ordered list of positions in the
arena. Blocks grow at their end, in any order; an instruction that is already placed can be replaced.
-/
namespace ScriptIr.Code

/-- A straight run of instructions. -/
abbrev Block := Array InstId

/-- A function: its blocks list instructions by number. -/
structure Function where
  id : FuncId
  name : String
  paramCount : UInt32
  blocks : Array Block := #[]
  insts : Array Inst := #[]
  deriving DecidableEq, Repr, Inhabited

namespace Function

def newBlock (f : Function) : BlockId × Function :=
  (f.blocks.size, { f with blocks := f.blocks.push #[] })

/-- Adds an instruction to the arena and to the end of a block. -/
def push (f : Function) (block : BlockId) (inst : Inst) : InstId × Function :=
  (f.insts.size,
    { f with insts := f.insts.push inst, blocks := f.blocks.modify block (·.push f.insts.size) })

/-- Puts another instruction in the place of one. -/
def replace (f : Function) (id : InstId) (inst : Inst) : Function :=
  { f with insts := f.insts.setIfInBounds id inst }

def blockInsts (f : Function) (block : BlockId) : List Inst :=
  ((f.blocks[block]?.getD #[]).filterMap (f.insts[·]?)).toList

def lastInst? (f : Function) (block : BlockId) : Option Inst := do
  let insts ← f.blocks[block]?
  f.insts[← insts.back?]?

def isTerminated (f : Function) (block : BlockId) : Bool :=
  (f.lastInst? block).any (·.isTerminator)

def order (f : Function) : List InstId := f.blocks.toList.flatMap (·.toList)

/-- Numbers the listed positions `0, 1, ...` in a table with one entry per arena position. -/
def numbering (size : Nat) (ids : List InstId) : Array (Option Nat) :=
  ids.zipIdx.foldl (fun table (id, n) => table.setIfInBounds id (some n)) (Array.replicate size none)

/-- For each instruction its position in block order, `none` if no block holds it. -/
def linearOffsets (f : Function) : Array (Option Nat) := numbering f.insts.size f.order

def producesValue (f : Function) (id : InstId) : Bool := (f.insts[id]?).any (·.hasValue)

/-- For each instruction with a value its number among those, in block order. -/
def valueNames (f : Function) : Array (Option Nat) :=
  numbering f.insts.size (f.order.filter f.producesValue)

end Function

end ScriptIr.Code
