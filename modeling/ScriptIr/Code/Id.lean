/-!
# Names of instructions, blocks and functions

Instructions and blocks are named by their position in their function, functions by a word drawn
from a counter that wraps around.
-/
namespace ScriptIr.Code

/-- Position of an instruction in its function's arena. -/
abbrev InstId := Nat

abbrev BlockId := Nat

/-- Name of a function, unique among the modules that share a counter. -/
abbrev FuncId := UInt32

/-- An instruction's name in messages. -/
def showInst (id : InstId) : String := "%" ++ toString id

def showBlock (id : BlockId) : String := "blk_" ++ toString id

def showFunc (id : FuncId) : String := "#" ++ toString id.toNat

end ScriptIr.Code
