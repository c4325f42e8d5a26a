import ScriptIr.Code.Module
import ScriptIr.Number.Display
import ScriptIr.Text.Quoted

/-!
# Text dump

A dump shows a module function by function and block by block. Instructions with a value are named
`$0`, `$1`, ... in the order of their lines, and operands refer to those names.
-/
namespace ScriptIr.Code

def operandName (names : Array (Option Nat)) (id : InstId) : String :=
  match names.getD id none with
  | some n => "$" ++ toString n
  | none => "<" ++ showInst id ++ ">"

def operandList (names : Array (Option Nat)) (ids : List InstId) : String :=
  "[" ++ String.intercalate ", " (ids.map (operandName names)) ++ "]"

def Inst.dump (names : Array (Option Nat)) (inst : Inst) : String :=
  let op := operandName names
  let list := operandList names
  inst.tag.mnemonic ++
    match inst with
    | ret value | move value | load value | unary _ value => " " ++ op value
    | store a b | getItem a b | delItem a b | new a b | binary _ a b => " " ++ op a ++ " " ++ op b
    | setItem a b c | call a b c => " " ++ op a ++ " " ++ op b ++ " " ++ op c
    | jump target => " " ++ showBlock target
    | branch cond thenBlock elseBlock =>
      " " ++ op cond ++ " " ++ showBlock thenBlock ++ " " ++ showBlock elseBlock
    | getGlobal text | string text => " " ++ Text.quoted text
    | regex text => " " ++ text
    | number bits => " " ++ Number.display bits
    | object props =>
      " \x7b" ++ String.intercalate "," (props.map fun (k, v) => " " ++ op k ++ ": " ++ op v) ++ " \x7d"
    | array elements => " " ++ list elements
    | func target captured | arrow target captured => " " ++ showFunc target ++ " " ++ list captured
    | pushScope size captured => " " ++ toString size.toNat ++ " " ++ list captured
    | popScope n | arg n | capture n => " " ++ toString n.toNat
    | phi incoming =>
      String.join (incoming.map fun (block, v) => " [" ++ showBlock block ++ " " ++ op v ++ "]")
    | undefined | null | boolean _ | alloca | this | arguments | debugger => ""

namespace Function

def dumpInst (f : Function) (names : Array (Option Nat)) (id : InstId) : String :=
  let result := match names.getD id none with
    | some n => "$" ++ toString n ++ " = "
    | none => ""
  "    " ++ result ++ ((f.insts[id]?).map (Inst.dump names)).getD "" ++ "\n"

def dumpBlock (f : Function) (names : Array (Option Nat)) (block : BlockId) (insts : Block) : String :=
  "  " ++ showBlock block ++ ":\n" ++ String.join (insts.toList.map (f.dumpInst names))

def dump (f : Function) : String :=
  let names := f.valueNames
  "function " ++ showFunc f.id ++ " " ++ Text.quoted f.name ++ " (params: "
    ++ toString f.paramCount.toNat ++ ")\n"
    ++ String.join (f.blocks.toList.zipIdx.map fun (insts, block) => f.dumpBlock names block insts)

end Function

def Module.dump (m : Module) : String :=
  "module " ++ Text.quoted m.name ++ "\n"
    ++ String.join (m.functions.toList.map fun f => "\n" ++ f.dump)

end ScriptIr.Code
