import ScriptIr.Lower.Basic

/-!
# Addresses of names

A name stands for a slot. A parameter or a captured name has to be fetched by an instruction; a name
declared in the current scope is the instruction that made its slot. A name that no scope declares is
a global variable.
-/
namespace ScriptIr.Lower

open Code (BlockId InstId Inst)
open Scope (Binding)

def slotAddress (ctx : Ctx) (block : BlockId) : Binding → Emit InstId
  | .parameter index => emit ctx block (.arg index.toUInt32)
  | .capture index => emit ctx block (.capture index.toUInt32)
  | .rest slot | .slot slot | .forward slot => return slot

def capturedAddress (ctx : Ctx) (block : BlockId) (name : String) : Emit InstId := do
  match ← naming (Scope.Naming.lookup ctx.scope name true true) with
  | some r => slotAddress ctx block r.binding
  | none => throw (.internal (.invisibleCapture name))

def capturedAddresses (ctx : Ctx) (block : BlockId) : List String → Emit (List InstId)
  | [] => return []
  | name :: names => do
    let address ← capturedAddress ctx block name
    return address :: (← capturedAddresses ctx block names)

def capturedNames (scope : Scope.ScopeId) : Emit (List String) :=
  scopes fun a => (a.captures scope).map (·.name)

def nameAddress (ctx : Ctx) (block : BlockId) (name : String) (write : Bool) : Emit InstId := do
  match ← naming (Scope.Naming.lookup ctx.scope name false true) with
  | some r =>
    if write && r.constant then throw (.constAssignment name)
    slotAddress ctx block r.binding
  | none => emit ctx block (.getGlobal name)

def identifierAddress (ctx : Ctx) (block : BlockId) (name : String) (write : Bool) :
    Emit InstId := do
  let address ← nameAddress ctx block name write
  record { func := ctx.func, name, address }
  return address

end ScriptIr.Lower
