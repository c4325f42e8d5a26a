import ScriptIr.Code.Id

/-!
# Scopes

A scope holds the names declared in one function or block and the outer names it captures. Names are
kept in small tables in which each name stands once.
-/
namespace ScriptIr.Scope

open Code (BlockId InstId)

abbrev Table (α : Type) := List (String × α)

namespace Table

def find? (t : Table α) (name : String) : Option α := (List.find? (fun e => e.1 == name) t).map (·.2)

def has (t : Table α) (name : String) : Bool := List.any t (fun e => e.1 == name)

/-- Lets a name stand for `value`, in its old place if it has one. -/
def put (t : Table α) (name : String) (value : α) : Table α :=
  if t.has name then List.map (fun e => if e.1 == name then (name, value) else e) t
  else t ++ [(name, value)]

end Table

abbrev ScopeId := Nat

/-- Whether a scope is the body of a function. -/
inductive Kind where
  /-- A function body or a whole program. -/
  | function
  /-- A block, a loop or one iteration of a loop. -/
  | block
  deriving DecidableEq, Repr, Inhabited

/-- Where a name lives. -/
inductive Binding where
  | parameter (index : Nat)
  | rest (slot : InstId)
  /-- A declared name, in a slot. -/
  | slot (slot : InstId)
  /-- A captured outer name. -/
  | capture (index : Nat)
  /-- A name whose declaration has not been reached, in a slot. -/
  | forward (slot : InstId)
  deriving DecidableEq, Repr, Inhabited

structure Resolved where
  binding : Binding
  /-- Whether the name may not be assigned to. -/
  constant : Bool
  deriving DecidableEq, Repr, Inhabited

/-- A name that a function takes from outside, and its position among them. -/
structure Capture where
  name : String
  index : Nat
  constant : Bool
  deriving DecidableEq, Repr, Inhabited

/-- The slot of a name that a scope declares. -/
structure Declaration where
  slot : InstId
  /-- Whether the declaration has yet to be reached. -/
  forward : Bool
  constant : Bool
  deriving DecidableEq, Repr, Inhabited

end ScriptIr.Scope

namespace ScriptIr

open Code (BlockId InstId)

/-- The names of a part of a program. -/
structure Scope where
  parent : Option Scope.ScopeId := none
  kind : Scope.Kind := .function
  params : Scope.Table Nat := []
  rest : Option (String × InstId) := none
  locals : Scope.Table Scope.Declaration := []
  /-- Captured names in the order of their first use. -/
  captures : List Scope.Capture := []
  /-- The place of each captured name among the captures. -/
  captureIndex : Scope.Table Nat := []
  breakTarget : Option BlockId := none
  continueTarget : Option BlockId := none
  deriving DecidableEq, Repr, Inhabited

namespace Scope

def isRest (s : Scope) (name : String) : Bool := s.rest.any (fun r => r.1 == name)

def owns (s : Scope) (name : String) : Bool := s.params.has name || s.isRest name || s.locals.has name

/-- What the scope says of a captured name, which the table tells the place of. -/
def capture? (s : Scope) (name : String) : Option Resolved := do
  let index ← s.captureIndex.find? name
  let c ← s.captures[index]?
  return ⟨.capture index, c.constant⟩

/-- The scope with one capture more, in the list and in the table. -/
def withCapture (s : Scope) (name : String) (constant : Bool) : Scope :=
  let index := s.captures.length
  { s with
    captures := s.captures ++ [⟨name, index, constant⟩]
    captureIndex := s.captureIndex.put name index }

/-- What the scope knows about a name itself: a parameter comes before the rest parameter, that
before a declared name, and that before a capture. -/
def binding? (s : Scope) (name : String) : Option Resolved :=
  match s.params.find? name with
  | some index => some ⟨.parameter index, false⟩
  | none =>
    match s.rest.filter (fun r => r.1 == name) with
    | some (_, slot) => some ⟨.rest slot, false⟩
    | none =>
      match s.locals.find? name with
      | some d => some ⟨if d.forward then .forward d.slot else .slot d.slot, d.constant⟩
      | none => s.capture? name

end Scope

end ScriptIr
