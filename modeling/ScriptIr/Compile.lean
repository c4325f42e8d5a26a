import ScriptIr.Code.Verify
import ScriptIr.Lower.Tree
import ScriptIr.Tree.Reader

/-!
# Compilation

A program becomes a module whose first function holds the program's own statements. Function ids are
drawn from a counter, which goes on where it was left even if a module fails.

* `compileText`: the module of a program written as text.
-/
namespace ScriptIr

open Code (FuncId Module)

/-- The name of the function that holds a program's own statements. -/
def mainName : String := "#main"

def Lower.program (p : Tree.Program) : Lower.Emit Unit := do
  let func ← Lower.newFunction mainName 0
  let scope ← Lower.newScope none .function
  let ctx : Lower.Ctx := { func, scope }
  let entry ← Lower.newBlock ctx
  Lower.statementBody (Lower.listCode (Lower.items p.body)) ctx entry

/-- The outcome of a compilation, and the next id. -/
structure Compiled where
  result : Except Error Module
  nextId : FuncId
  deriving Inhabited

def compile (p : Tree.Program) (name : String) (firstId : FuncId) : Compiled :=
  match Lower.program p { module := .empty name firstId } with
  | .ok _ s => { result := do s.module.verify; return s.module, nextId := s.module.nextId }
  | .error e s => { result := .error e, nextId := s.module.nextId }

/-- Compiles what was read of a text: `none` stands for a text that is not a program. -/
def compileRead (p? : Option Tree.Program) (name : String) (firstId : FuncId) : Compiled :=
  match p? with
  | some p => compile p name firstId
  | none => { result := .error .malformedTree, nextId := firstId }

def compileText (text name : String) (firstId : FuncId) : Compiled :=
  compileRead (Tree.readProgram? text) name firstId

/-- A program by its name and text. -/
structure Source where
  name : String
  text : String
  deriving DecidableEq, Repr, Inhabited

/-- Compiles several programs in turn; each continues with the next id of the one before. -/
def compileInTurn (one : α → FuncId → Compiled) (firstId : FuncId) :
    List α → List (Except Error Module) × FuncId
  | [] => ([], firstId)
  | a :: as =>
    let c := one a firstId
    let (results, nextId) := compileInTurn one c.nextId as
    (c.result :: results, nextId)

def compileAll : FuncId → List Source → List (Except Error Module) × FuncId :=
  compileInTurn fun s => compileText s.text s.name

end ScriptIr
