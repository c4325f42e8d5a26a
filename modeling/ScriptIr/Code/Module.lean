import ScriptIr.Code.Function

/-!
# Modules

A module is a list of functions in the order of their creation. Their ids are drawn from a counter
that several modules may share, one after the other.

* `Module.find?`: a function by its id.
-/
namespace ScriptIr.Code

/-- Compiled functions, and the id of the next one. -/
structure Module where
  name : String
  nextId : FuncId
  functions : Array Function := #[]
  deriving DecidableEq, Repr, Inhabited

namespace Module

def empty (name : String) (nextId : FuncId) : Module := { name, nextId }

/-- Adds a function without blocks and answers its position. -/
def newFunc (m : Module) (name : String) (paramCount : UInt32) : Nat × Module :=
  (m.functions.size,
    { m with
      nextId := m.nextId + 1
      functions := m.functions.push { id := m.nextId, name, paramCount } })

def position? (m : Module) (id : FuncId) : Option Nat := m.functions.findIdx? (fun f => f.id == id)

def find? (m : Module) (id : FuncId) : Option Function := m.functions.find? (fun f => f.id == id)

def modify (m : Module) (position : Nat) (change : Function → Function) : Module :=
  { m with functions := m.functions.modify position change }

end Module

end ScriptIr.Code
