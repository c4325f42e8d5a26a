import ScriptIr.Code.Tag
import ScriptIr.Number.Display
import ScriptIr.Text.Quoted

/-!
# Flat code

Flat code is what a function section holds: blocks of instructions that refer to one another by their
number in block order. Texts stand for themselves.

* `Function.listing`: its text.
-/
namespace ScriptIr.Flat

open Code (FieldKind Tag)

inductive Operand where
  /-- The number of another instruction in block order. -/
  | value (offset : UInt32)
  | block (index : UInt32)
  | function (id : UInt32)
  | immediate (n : UInt32)
  | number (bits : UInt64)
  | text (s : String)
  deriving DecidableEq, Repr, Inhabited

namespace Operand

def kind : Operand → FieldKind
  | value _ => .value
  | block _ => .block
  | function _ => .function
  | immediate _ => .immediate
  | number _ => .number
  | text _ => .text

def display : Operand → String
  | value offset => "@" ++ toString offset.toNat
  | block index => "blk_" ++ toString index.toNat
  | function id => "#" ++ toString id.toNat
  | immediate n => toString n.toNat
  | number bits => Number.display bits
  | text s => Text.quoted s

end Operand

/-- A tag and its fields, without the counts of lists. -/
structure Inst where
  tag : Tag
  operands : List Operand
  deriving DecidableEq, Repr, Inhabited

def Inst.display (i : Inst) : String :=
  i.tag.mnemonic ++ String.join (i.operands.map fun o => " " ++ o.display)

structure Function where
  name : String
  paramCount : UInt32
  blocks : List (List Inst)
  deriving DecidableEq, Repr, Inhabited

namespace Function

def instCount (f : Function) : Nat := f.blocks.flatten.length

def listBlock (first : Nat) (insts : List Inst) : String :=
  String.join ((insts.zipIdx first).map fun (i, n) => "    @" ++ toString n ++ " " ++ i.display ++ "\n")

def listBlocks (index first : Nat) : List (List Inst) → String
  | [] => ""
  | insts :: rest =>
    "  blk_" ++ toString index ++ ":\n" ++ listBlock first insts
      ++ listBlocks (index + 1) (first + insts.length) rest

def listing (f : Function) : String :=
  "function " ++ Text.quoted f.name ++ " (params: " ++ toString f.paramCount.toNat ++ ")\n"
    ++ listBlocks 0 0 f.blocks

end Function

end ScriptIr.Flat
