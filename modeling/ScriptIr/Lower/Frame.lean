import ScriptIr.Lower.Address

/-!
# Frames

A block scope runs in a frame. The frame's entry fetches the captured slots in the enclosing scope and
jumps to its body, which starts by opening the frame. What the frame captures and how many slots it
has is known only when its contents have been lowered, so `closeFrame` completes both blocks.

* `openFrame`: a frame whose contents are still to come.
-/
namespace ScriptIr.Lower

open Code (BlockId InstId Inst)
open Scope (ScopeId)

/-- The parts of a frame. -/
structure Frame where
  scope : ScopeId
  /-- The block that fetches the captured slots. -/
  entry : BlockId
  /-- The block that opens the frame. -/
  body : BlockId
  /-- The instruction that opens the frame. -/
  push : InstId
  deriving DecidableEq, Repr, Inhabited

def openFrame (ctx : Ctx) (scope : ScopeId) : Emit Frame := do
  let entry ← newBlock ctx
  let body ← newBlock ctx
  let push ← emit ctx body (.pushScope 0 [])
  return { scope, entry, body, push }

/-- Completes a frame whose contents have been lowered. -/
def closeFrame (ctx : Ctx) (frame : Frame) : Emit Unit := do
  let captured ← capturedAddresses ctx frame.entry (← capturedNames frame.scope)
  let size ← scopes (·.variableCount frame.scope)
  match ← instAt? ctx frame.push with
  | some (.pushScope ..) => patch ctx frame.push (.pushScope size.toUInt32 captured)
  | _ => throw (.internal .lostFrame)
  perform ctx frame.entry (.jump frame.body)

end ScriptIr.Lower
