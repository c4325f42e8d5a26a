import ScriptIr.Flat.Basic
import ScriptIr.Wire.StringPool

/-!
# Function sections

A function section is a sequence of words: the offset of the function's name in the string pool, the
number of parameters, the number of blocks, and for each block the number of its instructions and
the instructions. An instruction is its tag's code and its fields in the tag's layout; a number
takes two words, a text is its offset in the pool.
-/
namespace ScriptIr.Flat

open Code (Layout)
open Wire (Bytes StringPool word)

/-- A field, with its text added to the pool. -/
def encodeOperand (pool : StringPool) : Operand → List UInt8 × StringPool
  | .value n | .block n | .function n | .immediate n => (word n, pool)
  | .number bits => (Wire.double bits, pool)
  | .text s =>
    let (offset, pool) := pool.intern s
    (word offset.toUInt32, pool)

def encodeOperands (pool : StringPool) : List Operand → List UInt8 × StringPool
  | [] => ([], pool)
  | o :: rest =>
    let (bytes, pool) := encodeOperand pool o
    let (more, pool) := encodeOperands pool rest
    (bytes ++ more, pool)

/-- The number of repetitions of a layout's group among the given fields. -/
def groupCount (layout : Layout) (operands : List Operand) : Option Nat :=
  layout.group.map fun group => (operands.length - layout.fixed.length) / group.length

def encodeFields (pool : StringPool) (layout : Layout) (operands : List Operand) :
    List UInt8 × StringPool :=
  let (fixed, pool) := encodeOperands pool (operands.take layout.fixed.length)
  let (rest, pool) := encodeOperands pool (operands.drop layout.fixed.length)
  match groupCount layout operands with
  | some n => (fixed ++ word n.toUInt32 ++ rest, pool)
  | none => (fixed ++ rest, pool)

def encodeInst (pool : StringPool) (i : Inst) : List UInt8 × StringPool :=
  let (fields, pool) := encodeFields pool i.tag.layout i.operands
  (word i.tag.code ++ fields, pool)

def encodeInsts (pool : StringPool) : List Inst → List UInt8 × StringPool
  | [] => ([], pool)
  | i :: rest =>
    let (bytes, pool) := encodeInst pool i
    let (more, pool) := encodeInsts pool rest
    (bytes ++ more, pool)

def encodeBlocks (pool : StringPool) : List (List Inst) → List UInt8 × StringPool
  | [] => ([], pool)
  | insts :: rest =>
    let (bytes, pool) := encodeInsts pool insts
    let (more, pool) := encodeBlocks pool rest
    (word insts.length.toUInt32 ++ bytes ++ more, pool)

/-- The payload of a function's section, with its texts added to the pool. -/
def Function.encode (f : Function) (pool : StringPool) : Bytes × StringPool :=
  let (name, pool) := pool.intern f.name
  let (blocks, pool) := encodeBlocks pool f.blocks
  let header := word name.toUInt32 ++ word f.paramCount ++ word f.blocks.length.toUInt32
  ((header ++ blocks).toArray, pool)

end ScriptIr.Flat
