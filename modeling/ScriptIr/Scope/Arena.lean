import ScriptIr.Error
import ScriptIr.Scope.Basic

/-!
# Scope arena

All scopes of a program live in one arena and point at their parents, which are older. A lookup walks
the chain of parents; when it succeeds further out, every scope on the way records the name as a
capture, so that later lookups find it at once.

* `setParams`, `setRest`, `forwardDeclare`, `declare`: how names enter a scope.
-/
namespace ScriptIr.Scope

open Code (BlockId InstId)

structure Arena where
  scopes : Array Scope := #[]
  deriving DecidableEq, Repr, Inhabited

namespace Arena

def empty : Arena := {}

def get (a : Arena) (s : ScopeId) : Scope := a.scopes.getD s {}

def modify (a : Arena) (s : ScopeId) (change : Scope → Scope) : Arena :=
  ⟨a.scopes.modify s change⟩

def push (a : Arena) (parent : Option ScopeId) (kind : Kind) : ScopeId × Arena :=
  (a.scopes.size, ⟨a.scopes.push { parent, kind }⟩)

/-- A scope and its ancestors, innermost first. -/
def chain (a : Arena) (s : ScopeId) : List ScopeId :=
  match (a.get s).parent with
  | none => [s]
  | some p => if p < s then s :: chain a p else [s]

def depth (a : Arena) (s : ScopeId) : Nat := (a.chain s).length

/-- Whether a scope itself declares a name other than as a parameter. -/
def hasLocal (a : Arena) (s : ScopeId) (name : String) : Bool := (a.get s).locals.has name

/-- The names a scope captures, in the order of their first use. -/
def captures (a : Arena) (s : ScopeId) : List Capture := (a.get s).captures

/-- Number of slots that the scope's frame holds. -/
def variableCount (a : Arena) (s : ScopeId) : Nat := (a.get s).locals.length

def setBreakTarget (a : Arena) (s : ScopeId) (target : BlockId) : Arena :=
  a.modify s fun scope => { scope with breakTarget := some target }

def setContinueTarget (a : Arena) (s : ScopeId) (target : BlockId) : Arena :=
  a.modify s fun scope => { scope with continueTarget := some target }

/-- The first target along a chain, with the number of scopes passed. The search ends at a function
body. -/
def targetAlong (a : Arena) (target : Scope → Option BlockId) :
    List ScopeId → Nat → Option (BlockId × Nat)
  | [], _ => none
  | s :: outer, pops =>
    match target (a.get s) with
    | some block => some (block, pops)
    | none =>
      if (a.get s).kind = .function then none else targetAlong a target outer (pops + 1)

/-- Where `break` goes, and how many scopes it leaves. -/
def findBreak (a : Arena) (s : ScopeId) : Option (BlockId × Nat) :=
  a.targetAlong (·.breakTarget) (a.chain s) 0

/-- Where `continue` goes, and how many scopes it leaves. -/
def findContinue (a : Arena) (s : ScopeId) : Option (BlockId × Nat) :=
  a.targetAlong (·.continueTarget) (a.chain s) 0

def scopesToFunction (a : Arena) (s : ScopeId) : Nat :=
  ((a.chain s).takeWhile fun s => (a.get s).kind == .block).length

def addCapture (a : Arena) (s : ScopeId) (name : String) (constant : Bool) : Arena :=
  a.modify s (·.withCapture name constant)

end Arena

/-- A computation on an arena that may fail. A failure keeps the arena as it is at that point. -/
abbrev Naming := EStateM Error Arena

namespace Naming

/-- Resolves a name along a chain. A name that is declared further on in the innermost scope counts
only if `tolerant` is set, one in the next scope only if `upperTolerant` is. -/
def lookupAlong (name : String) : List ScopeId → Bool → Bool → Naming (Option Resolved)
  | [], _, _ => return none
  | s :: outer, tolerant, upperTolerant => do
    match ((← get).get s).binding? name with
    | some ⟨.forward slot, constant⟩ =>
      if tolerant then return some ⟨.forward slot, constant⟩ else throw (.undefined name)
    | some r => return some r
    | none =>
      match ← lookupAlong name outer upperTolerant true with
      | none => return none
      | some r =>
        let index := ((← get).captures s).length
        modify fun a => a.addCapture s name r.constant
        return some ⟨.capture index, r.constant⟩

def lookup (s : ScopeId) (name : String) (tolerant upperTolerant : Bool) :
    Naming (Option Resolved) := do
  lookupAlong name ((← get).chain s) tolerant upperTolerant

/-- Registers parameters, the first at position `index`. A repeated name is an error; it is
registered all the same. -/
def setParamsFrom (s : ScopeId) (index : Nat) : List String → Naming Unit
  | [] => return ()
  | name :: rest => do
    let repeated := ((← get).get s).params.has name
    modify fun a => a.modify s fun scope => { scope with params := scope.params.put name index }
    if repeated then throw (.redeclaration name)
    setParamsFrom s (index + 1) rest

def setParams (s : ScopeId) (names : List String) : Naming Unit := setParamsFrom s 0 names

/-- Registers the rest parameter of a function. -/
def setRest (s : ScopeId) (name : String) (slot : InstId) : Naming Unit := do
  if ((← get).get s).owns name then throw (.redeclaration name)
  modify fun a => a.modify s fun scope => { scope with rest := some (name, slot) }

def forwardDeclare (s : ScopeId) (name : String) (slot : InstId) (constant : Bool) : Naming Unit := do
  if ((← get).get s).owns name then throw (.redeclaration name)
  modify fun a => a.modify s fun scope =>
    { scope with locals := scope.locals.put name { slot, forward := true, constant } }

/-- Declares a name and answers its slot: a name announced by `forwardDeclare` keeps its slot unless
another is given, a new name needs one. -/
def declare (s : ScopeId) (name : String) (slot : Option InstId) (constant : Bool) :
    Naming InstId := do
  let scope := (← get).get s
  if scope.params.has name || scope.isRest name then throw (.redeclaration name)
  let settle (slot : InstId) : Naming InstId := do
    modify fun a => a.modify s fun scope =>
      { scope with locals := scope.locals.put name { slot, forward := false, constant } }
    return slot
  match scope.locals.find? name with
  | some d => if d.forward then settle (slot.getD d.slot) else throw (.redeclaration name)
  | none =>
    match slot with
    | some slot => settle slot
    | none => throw (.internal (.missingSlot name))

end Naming

end ScriptIr.Scope
