import ScriptIr.Proofs.Semantics.Machine
import ScriptIr.Proofs.Tree.Lexical

/-!
# Running trees

What a tree does when it runs, by recursion on the tree: expressions are evaluated from left to right,
and statements run one after the other as their structure says. Loops are given a number of rounds, so
that a run which does not end can be followed as far as one likes.

Functions are numbered in the order in which they are met, where the function declarations of a list
come before its other statements. The numbers of the functions in a part of the tree start at a given
one.
-/
namespace ScriptIr

open Lower

namespace Tree

/-! ## Functions -/

/-- What can be called: the parameters and the body of a function. -/
structure Callable where
  kind : FunctionKind
  params : List Pattern
  body : ArrowBody

mutual

def Expression.functions : Expression → List Callable
  | .identifier _ | .literal _ | .this _ | .bare _ _ => []
  | .array es => elementsFunctions es
  | .object ms _ => membersFunctions ms
  | .function f => f.functions
  | .arrow params body _ _ => ⟨.arrow, params, body⟩ :: body.functions
  | .unary _ e | .update _ _ e | .spread e _ => e.functions
  | .binary _ l r | .logical _ l r => l.functions ++ r.functions
  | .assignment _ t e => t.functions ++ e.functions
  | .conditional t a b => t.functions ++ (a.functions ++ b.functions)
  | .call e args | .construct e args => e.functions ++ expressionsFunctions args
  | .member o p computed _ => o.functions ++ if computed then p.functions else []
  | .sequence es | .template _ es _ => expressionsFunctions es

def expressionsFunctions : List Expression → List Callable
  | [] => []
  | e :: es => e.functions ++ expressionsFunctions es

def elementsFunctions : List (Option Expression) → List Callable
  | [] => []
  | none :: es => elementsFunctions es
  | some e :: es => e.functions ++ elementsFunctions es

def membersFunctions : List ObjectMember → List Callable
  | [] => []
  | m :: ms => m.functions ++ membersFunctions ms

def ObjectMember.functions : ObjectMember → List Callable
  | .property _ e _ _ _ _ => e.functions
  | .spread _ => []

def AssignmentTarget.functions : AssignmentTarget → List Callable
  | .identifier _ | .pattern _ => []
  | .member o p computed => o.functions ++ if computed then p.functions else []

def Function.functions : Function → List Callable
  | .mk _ params body _ _ _ =>
    ⟨.function, params, .block body⟩ :: (hoistedFunctions body ++ inPlaceFunctions body)

def ArrowBody.functions : ArrowBody → List Callable
  | .block body => hoistedFunctions body ++ inPlaceFunctions body
  | .expression e => e.functions

def Pattern.functions : Pattern → List Callable
  | .identifier _ | .rest _ _ | .member _ => []
  | .array ps => patternElementsFunctions ps
  | .object ms => patternMembersFunctions ms
  | .withDefault p e => e.functions ++ p.functions

def patternElementsFunctions : List (Option Pattern) → List Callable
  | [] => []
  | none :: ps => patternElementsFunctions ps
  | some p :: ps => p.functions ++ patternElementsFunctions ps

def patternMembersFunctions : List PatternMember → List Callable
  | [] => []
  | .property _ p _ _ :: ms => p.functions ++ patternMembersFunctions ms
  | .rest _ _ :: ms => patternMembersFunctions ms

def optionalFunctions : Option Expression → List Callable
  | none => []
  | some e => e.functions

def declaratorsFunctions : List Declarator → List Callable
  | [] => []
  | .mk p init :: ds => optionalFunctions init ++ (p.functions ++ declaratorsFunctions ds)

def targetsFunctions : List Declarator → List Callable
  | [] => []
  | .mk p _ :: ds => p.functions ++ targetsFunctions ds

def Declaration.functions : Declaration → List Callable
  | .mk _ ds _ => declaratorsFunctions ds

def Declaration.targetFunctions : Declaration → List Callable
  | .mk _ ds _ => targetsFunctions ds

def ForInit.functions : ForInit → List Callable
  | .declaration d => d.functions
  | .expression e => e.functions

def headFunctions : Option ForInit → List Callable
  | none => []
  | some init => init.functions

def ForTarget.functions : ForTarget → List Callable
  | .declaration d => d.targetFunctions
  | .target t => t.functions

def Statement.functions : Statement → List Callable
  | .declaration d => d.functions
  | .function _ | .breaks _ _ | .continues _ _ | .bare _ _ => []
  | .expression e => e.functions
  | .block body => hoistedFunctions body ++ inPlaceFunctions body
  | .returns e => optionalFunctions e
  | .ifElse t a b => t.functions ++ (a.functions ++ optionalStatementFunctions b)
  | .whileLoop t body => t.functions ++ body.functions
  | .doWhile t body => body.functions ++ t.functions
  | .forLoop init test update body =>
    headFunctions init ++ (optionalFunctions test ++ (body.functions ++ optionalFunctions update))
  | .forIn t e body _ _ | .forOf t e body _ _ => e.functions ++ (t.functions ++ body.functions)

def optionalStatementFunctions : Option Statement → List Callable
  | none => []
  | some s => s.functions

def closureFunctions : Statement → List Callable
  | .function f => f.functions
  | _ => []

def hoistedFunctions : List Statement → List Callable
  | [] => []
  | s :: ss => closureFunctions s ++ hoistedFunctions ss

def inPlaceFunctions : List Statement → List Callable
  | [] => []
  | s :: ss => s.functions ++ inPlaceFunctions ss

end

/-- A whole program, as something that is called without arguments. -/
def Program.main (p : Program) : Callable := ⟨.arrow, [], .block p.body⟩

def Program.callables (p : Program) : List Callable :=
  p.main :: (hoistedFunctions p.body ++ inPlaceFunctions p.body)

/-! ## Texts -/

def Expression.keyText : Expression → String
  | .identifier id => id.name
  | .literal l =>
    match l.value with
    | .text s => s
    | .number bits => Number.propertyKey bits
    | _ => ""
  | _ => ""

def ObjectMember.keyText : ObjectMember → String
  | .property key _ _ _ _ _ => key.keyText
  | .spread _ => ""

end Tree

namespace Run

open ScriptIr.Tree

/-! ## Actions -/

/-- A world with what names and closures come to in it. -/
structure Scene (V σ : Type) extends World V σ where
  /-- The address of a name. -/
  address : String → StateM σ V
  /-- The closure of the function with a number. -/
  closure : Nat → FunctionKind → StateM σ V

namespace Scene

variable {V σ : Type} (S : Scene V σ)

/-- Does one thing. -/
def perform (a : Action V) : StateM σ V := S.act a

def decide (v : V) : StateM σ Bool := S.test v

/-- The value of a global variable. -/
def loadGlobal (name : String) : StateM σ V := do S.perform (.load (← S.perform (.global name)))

def getNamed (object : V) (name : String) : StateM σ V := do
  S.perform (.getItem object (← S.perform (.string name)))

/-- A call with the given arguments. -/
def callWith (callee receiver : V) (args : List V) : StateM σ V := do
  S.perform (.call callee receiver (← S.perform (.array args)))

def number (n : Nat) : StateM σ V := S.perform (.number (Number.ofNat n))

/-- Puts a value in the slot of a name. -/
def assign (name : String) (v : V) : StateM σ Unit := do
  discard (S.perform (.store (← S.address name) v))

def copyNames : List String → StateM σ Unit
  | [] => return ()
  | name :: names => do
    S.assign name (← S.perform (.load (← S.address name)))
    copyNames names

/-! ## Operators -/

/-- An operator between two values. The exponent calls `Math.pow`. -/
def binary (op : BinaryOperator) (l r : V) : StateM σ V := do
  if op = .exponent then
    let math ← S.loadGlobal "Math"
    let pow ← S.getNamed math "pow"
    S.callWith pow math [l, r]
  else S.perform (.binary op l r)

def unary (op : UnaryOperator) (v : V) : StateM σ V := do
  match op with
  | .plus => S.perform (.binary .subtract v (← S.number 0))
  | .void | .delete => S.perform .undefined
  | .minus | .logicalNot | .bitNot | .typeOf => S.perform (.unary op v)

def stepOperator : UpdateOperator → BinaryOperator
  | .increment => .add
  | .decrement => .subtract

def needsSecond (op : LogicalOperator) (first : V) : StateM σ Bool := do
  match op with
  | .and => S.decide first
  | .or => return !(← S.decide first)
  | .nullish => S.decide (← S.perform (.binary .equal first (← S.perform .null)))

def literal (l : Literal) : StateM σ V :=
  match l.regex with
  | some r => S.perform (.regex ("/" ++ r.pattern ++ "/" ++ r.flags))
  | none =>
    match l.value with
    | .null | .other => S.perform .null
    | .boolean b => S.perform (.boolean b)
    | .number bits => S.perform (.number bits)
    | .text s => S.perform (.string s)

/-! ## Places -/

/-- A place that holds a value. -/
inductive Spot (V : Type) where
  | slot (address : V)
  | member (object key : V)

/-- The value in a place. -/
def read : Spot V → StateM σ V
  | .slot a => S.perform (.load a)
  | .member o k => S.perform (.getItem o k)

def member (object : StateM σ V) (computed : Bool) (text : String) (property : StateM σ V) :
    StateM σ (V × V) := do
  let o ← object
  let k ← if computed then property else S.perform (.string text)
  return (o, k)

def remove (member : Option (StateM σ (V × V))) : StateM σ V :=
  match member with
  | some member => do
    let t ← member
    S.perform (.delItem t.1 t.2)
  | none => S.perform .undefined

/-- A callee and its receiver. A member receives its object, any other callee receives nothing. -/
def callee (member : Option (StateM σ (V × V))) (value : StateM σ V) : StateM σ (V × V) :=
  match member with
  | some member => do
    let t ← member
    return (← S.perform (.getItem t.1 t.2), t.1)
  | none => do return (← value, ← S.perform .undefined)

/-- Puts a value in a place. -/
def write (v : V) : Spot V → StateM σ Unit
  | .slot a => discard (S.perform (.store a v))
  | .member o k => discard (S.perform (.setItem o k v))

/-! ## Arrays -/

/-- The pieces of an array literal: finished ones, and the elements of the piece at the end. -/
structure Pieces (V : Type) where
  done : List V := []
  pending : List V := []

def flush (p : Pieces V) : StateM σ (Pieces V) := do
  if p.pending.isEmpty then return p
  return { done := p.done ++ [← S.perform (.array p.pending)] }

def spread (v : V) : StateM σ V := do
  let array ← S.loadGlobal "Array"
  let convert ← S.getNamed array "from"
  S.callWith convert array [v]

/-- Joins a piece and others by `Array.prototype.concat`. -/
def concat (first : V) (rest : List V) : StateM σ V := do
  if rest.isEmpty then return first
  let array ← S.loadGlobal "Array"
  let prototype ← S.getNamed array "prototype"
  let concat ← S.getNamed prototype "concat"
  S.callWith concat first rest

def join (p : Pieces V) : StateM σ V := do
  match p.done with
  | [] => S.perform (.array p.pending)
  | first :: _ => S.concat first (← S.flush p).done.tail

end Scene

open Scene

/-! ## Expressions -/

section Expressions

variable {V σ : Type} (S : Scene V σ)

/-- Adds the text after an expression of a template, unless it is empty. -/
def addText (text : Option String) (v : V) : StateM σ V := do
  match text with
  | none => return v
  | some text =>
    if text.isEmpty then return v
    S.perform (.binary .add v (← S.perform (.string text)))

mutual

/-- The value of an expression whose functions are numbered from `n`. -/
def evalExpression : Expression → (n : Nat) → StateM σ V
  | .identifier id, _ => do S.perform (.load (← S.address id.name))
  | .literal l, _ => S.literal l
  | .this _, _ => S.perform .this
  | .array es, n => do S.join (← evalElements es n {})
  | .object ms _, n => do S.perform (.object (← evalMembers ms n))
  | .function _, n => S.closure n .function
  | .arrow .., n => S.closure n .arrow
  | .unary op e, n => do
    if op = .delete then S.remove ((evalTarget? e).map (· n))
    else S.unary op (← evalExpression e n)
  | .update op prefixed e, n => do
    let spot ← evalPlace e n
    let old ← S.read spot
    let new ← S.perform (.binary (Scene.stepOperator op) old (← S.number 1))
    S.write new spot
    return if prefixed then new else old
  | .binary op l r, n => do
    let a ← evalExpression l n
    let b ← evalExpression r (n + l.functions.length)
    S.binary op a b
  | .logical op l r, n => do
    let a ← evalExpression l n
    if ← S.needsSecond op a then evalExpression r (n + l.functions.length) else return a
  | .assignment op t e, n => do
    let spot ← evalAssigned t n
    match op with
    | .assign | .logical _ =>
      let v ← evalExpression e (n + t.functions.length)
      S.write v spot
      return v
    | .compound op =>
      let old ← S.read spot
      let v ← evalExpression e (n + t.functions.length)
      let new ← S.binary op old v
      S.write new spot
      return new
  | .conditional t a b, n => do
    if ← S.decide (← evalExpression t n) then evalExpression a (n + t.functions.length)
    else evalExpression b (n + t.functions.length + a.functions.length)
  | .call e args, n => do
    let c ← S.callee ((evalTarget? e).map (· n)) (evalExpression e n)
    let values ← evalAll args (n + e.functions.length)
    S.callWith c.1 c.2 values
  | .construct e args, n => do
    let callee ← evalExpression e n
    let values ← evalAll args (n + e.functions.length)
    S.perform (.new callee (← S.perform (.array values)))
  | .member o p computed _, n => do
    let t ← S.member (evalExpression o n) computed p.keyText (evalExpression p (n + o.functions.length))
    S.perform (.getItem t.1 t.2)
  | .sequence es, n => do
    let values ← evalAll es n
    match values.getLast? with
    | some v => return v
    | none => S.perform .undefined
  | .template texts es _, n => do
    evalTemplate es n texts.tail (← S.perform (.string ((texts.head?.getD none).getD "")))
  | .spread .., _ | .bare .., _ => S.perform .undefined

def evalTarget? : Expression → Option ((n : Nat) → StateM σ (V × V))
  | .member o p computed _ => some fun n =>
    S.member (evalExpression o n) computed p.keyText (evalExpression p (n + o.functions.length))
  | _ => none

def evalSpread? : Expression → Option ((n : Nat) → StateM σ V)
  | .spread e _ => some (evalExpression e)
  | _ => none

def evalPlace : Expression → (n : Nat) → StateM σ (Spot V)
  | .identifier id, _ => do return .slot (← S.address id.name)
  | .member o p computed _, n => do
    let t ← S.member (evalExpression o n) computed p.keyText (evalExpression p (n + o.functions.length))
    return .member t.1 t.2
  | _, _ => do return .slot (← S.perform .undefined)

def evalAssigned : AssignmentTarget → (n : Nat) → StateM σ (Spot V)
  | .identifier id, _ => do return .slot (← S.address id.name)
  | .member o p computed, n => do
    let t ← S.member (evalExpression o n) computed p.keyText (evalExpression p (n + o.functions.length))
    return .member t.1 t.2
  | .pattern _, _ => do return .slot (← S.perform .undefined)

/-- The values of expressions, in turn. -/
def evalAll : List Expression → (n : Nat) → StateM σ (List V)
  | [], _ => return []
  | e :: es, n => do
    let v ← evalExpression e n
    return v :: (← evalAll es (n + e.functions.length))

/-- The elements of an array literal, after the given pieces. -/
def evalElements : List (Option Expression) → (n : Nat) → Pieces V → StateM σ (Pieces V)
  | [], _, p => return p
  | none :: es, n, p => do
    let v ← S.perform .undefined
    evalElements es n { p with pending := p.pending ++ [v] }
  | some e :: es, n, p => do
    match evalSpread? e with
    | some argument =>
      let p ← S.flush p
      let piece ← S.spread (← argument n)
      evalElements es (n + e.functions.length) { p with done := p.done ++ [piece] }
    | none =>
      let v ← evalExpression e n
      evalElements es (n + e.functions.length) { p with pending := p.pending ++ [v] }

/-- The members of an object literal, each key before its value. -/
def evalMembers : List ObjectMember → (n : Nat) → StateM σ (List (V × V))
  | [], _ => return []
  | m :: ms, n => do
    let key ← S.perform (.string m.keyText)
    let v ← evalMember m n
    return (key, v) :: (← evalMembers ms (n + m.functions.length))

def evalMember : ObjectMember → (n : Nat) → StateM σ V
  | .property _ e _ _ _ _, n => evalExpression e n
  | .spread _, _ => S.perform .undefined

def evalTemplate : List Expression → (n : Nat) → List (Option String) → V → StateM σ V
  | [], _, _, v => return v
  | e :: es, n, texts, v => do
    let r ← evalExpression e n
    let sum ← S.perform (.binary .add v r)
    let sum ← addText S (texts.head?.getD none) sum
    evalTemplate es (n + e.functions.length) texts.tail sum

end

/-! ## Patterns -/

mutual

def bindPattern : Pattern → (n : Nat) → V → StateM σ Unit
  | .identifier id, _, v => S.assign id.name v
  | .array ps, n, v => bindElements ps n 0 v
  | .object ms, n, v => bindMembers ms n v
  | .withDefault p e, n, v => do
    let missing ← S.perform (.binary .strictEqual v (← S.perform .undefined))
    let v ← if ← S.decide missing then evalExpression S e n else pure v
    bindPattern p (n + e.functions.length) v
  | .rest .., _, _ | .member _, _, _ => return ()

def bindElements : List (Option Pattern) → (n index : Nat) → V → StateM σ Unit
  | [], _, _, _ => return ()
  | none :: ps, n, index, v => bindElements ps n (index + 1) v
  | some p :: ps, n, index, v => do
    let item ← S.perform (.getItem v (← S.number index))
    bindPattern p n item
    bindElements ps (n + p.functions.length) (index + 1) v

def bindMembers : List PatternMember → (n : Nat) → V → StateM σ Unit
  | [], _, _ => return ()
  | .property key p _ _ :: ms, n, v => do
    let item ← S.getNamed v key.keyText
    bindPattern p n item
    bindMembers ms (n + p.functions.length) v
  | .rest _ _ :: ms, n, v => bindMembers ms n v

end

def evalOptional : Option Expression → (n : Nat) → StateM σ V
  | none, _ => S.perform .undefined
  | some e, n => evalExpression S e n

/-- The bindings of a declaration, in turn. -/
def bindDeclarators : List Declarator → (n : Nat) → StateM σ Unit
  | [], _ => return ()
  | .mk p init :: ds, n => do
    let v ← evalOptional S init n
    bindPattern S p (n + (optionalFunctions init).length) v
    bindDeclarators ds (n + (optionalFunctions init).length + p.functions.length)

/-- Gives an element of a loop to what receives it. -/
def receive : ForTarget → (n : Nat) → V → StateM σ Unit
  | .declaration d, n, v =>
    match d.declarators with
    | [binding] => bindPattern S binding.target n v
    | _ => return ()
  | .target t, n, v => do S.write v (← evalAssigned S t n)

end Expressions

/-! ## Statements -/

/-- How a statement ends. -/
inductive Outcome (V : Type) where
  | normal
  | breaks
  | continues
  | returns (v : V)
  /-- A loop has used up its rounds. -/
  | unfinished
  deriving DecidableEq, Repr

/-- How a round of a loop ends: another one follows, or the loop is over. -/
inductive Round (β V : Type) where
  | again (state : β)
  | ended (outcome : Outcome V)

section Statements

variable {V σ : Type} (S : Scene V σ)

/-- One statement after another. -/
def inTurn (first second : StateM σ (Outcome V)) : StateM σ (Outcome V) := do
  match ← first with
  | .normal => second
  | o => return o

/-- At most a number of rounds, each of which hands a state to the next. -/
def rounds {β : Type} (round : β → StateM σ (Round β V)) : Nat → β → StateM σ (Outcome V)
  | 0, _ => return .unfinished
  | n + 1, state => do
    match ← round state with
    | .again state => rounds round n state
    | .ended o => return o

/-- What follows the body of a loop. -/
def afterBody {β : Type} (o : Outcome V) (rest : StateM σ (Round β V)) : StateM σ (Round β V) :=
  match o with
  | .normal | .continues => rest
  | .breaks => return .ended .normal
  | .returns v => return .ended (.returns v)
  | .unfinished => return .ended .unfinished

def againIf {β : Type} (state : β) (condition : Bool) : Round β V :=
  if condition then .again state else .ended .normal

/-- The keys of a value and their number. -/
def startKeys (v : V) : StateM σ (V × V × V) := do
  let object ← S.loadGlobal "Object"
  let method ← S.getNamed object "keys"
  let keys ← S.callWith method object [v]
  let origin ← S.number 0
  let length ← S.getNamed keys "length"
  return (keys, length, origin)

def startItems (v : V) : StateM σ V := do
  let symbol ← S.loadGlobal "Symbol"
  let key ← S.getNamed symbol "iterator"
  let method ← S.perform (.getItem v key)
  S.callWith method v []

def nextItem (iterator : V) : StateM σ (V × Bool) := do
  let method ← S.getNamed iterator "next"
  let answer ← S.callWith method iterator []
  let done ← S.getNamed answer "done"
  return (answer, ← S.decide done)

/-- A statement without parts. -/
def execBare (kind : BareStatement) : StateM σ Unit := do
  if kind = .debugger then discard (S.perform .debugger)

def execHead : Option ForInit → (n : Nat) → StateM σ Unit
  | none, _ => return ()
  | some (.declaration d), n => bindDeclarators S d.declarators n
  | some (.expression e), n => do discard (evalExpression S e n)

/-- The test of a loop; without one the loop goes on. -/
def execTest : Option Expression → (n : Nat) → StateM σ Bool
  | none, _ => return true
  | some e, n => do S.decide (← evalExpression S e n)

def execUpdate : Option Expression → (n : Nat) → StateM σ Unit
  | none, _ => return ()
  | some e, n => do discard (evalExpression S e n)

def execHoisted : List Statement → (n : Nat) → StateM σ Unit
  | [], _ => return ()
  | .function f :: ss, n => do
    S.assign ((f.id.map (·.name)).getD "") (← S.closure n .function)
    execHoisted ss (n + f.functions.length)
  | _ :: ss, n => execHoisted ss n

variable (fuel : Nat)

mutual

/-- Runs a statement, with at most `fuel` rounds for each loop that it enters. -/
def execStatement : Statement → (n : Nat) → StateM σ (Outcome V)
  | .declaration d, n => do
    bindDeclarators S d.declarators n
    return .normal
  | .function _, _ => return .normal
  | .expression e, n => do
    let _ ← evalExpression S e n
    return .normal
  | .block body, n => do
    execHoisted S body n
    execInPlace body (n + (hoistedFunctions body).length)
  | .returns e, n => do return .returns (← evalOptional S e n)
  | .breaks _ _, _ => return .breaks
  | .continues _ _, _ => return .continues
  | .ifElse t a b, n => do
    if ← S.decide (← evalExpression S t n) then execStatement a (n + t.functions.length)
    else execOptional b (n + t.functions.length + a.functions.length)
  | .whileLoop t body, n =>
    rounds (fun _ => do
      if ← S.decide (← evalExpression S t n) then
        afterBody (← execStatement body (n + t.functions.length)) (return .again ())
      else return .ended .normal) fuel ()
  | .doWhile t body, n =>
    rounds (fun _ => do
      afterBody (← execStatement body n) (do
        let v ← evalExpression S t (n + body.functions.length)
        return againIf () (← S.decide v))) fuel ()
  | .forLoop init test update body, n => do
    execHead S init n
    let n := n + (headFunctions init).length
    rounds (fun _ => do
      if ← execTest S test n then
        S.copyNames (headNames init)
        afterBody (← execStatement body (n + (optionalFunctions test).length)) (do
          S.copyNames (headNames init)
          execUpdate S update (n + (optionalFunctions test).length + body.functions.length)
          return .again ())
      else return .ended .normal) fuel ()
  | .forIn t e body _ _, n => do
    let (keys, length, origin) ← startKeys S (← evalExpression S e n)
    rounds (fun index => do
      if ← S.decide (← S.perform (.binary .less index length)) then
        receive S t (n + e.functions.length) (← S.perform (.getItem keys index))
        afterBody (← execStatement body (n + e.functions.length + t.functions.length)) (do
          return .again (← S.perform (.binary .add index (← S.number 1))))
      else return .ended .normal) fuel origin
  | .forOf t e body _ _, n => do
    let iterator ← startItems S (← evalExpression S e n)
    rounds (fun _ => do
      let (answer, done) ← nextItem S iterator
      if done then return .ended .normal
      receive S t (n + e.functions.length) (← S.getNamed answer "value")
      afterBody (← execStatement body (n + e.functions.length + t.functions.length))
        (return .again ())) fuel ()
  | .bare kind _, _ => do
    execBare S kind
    return .normal

def execOptional : Option Statement → (n : Nat) → StateM σ (Outcome V)
  | none, _ => return .normal
  | some s, n => execStatement s n

/-- Runs the other statements of a list. -/
def execInPlace : List Statement → (n : Nat) → StateM σ (Outcome V)
  | [], _ => return .normal
  | s :: ss, n => inTurn (execStatement s n) (execInPlace ss (n + s.functions.length))

end

/-- Runs a list of statements in a scope of its own. -/
def execList (body : List Statement) (n : Nat) : StateM σ (Outcome V) := do
  execHoisted S body n
  execInPlace S fuel body (n + (hoistedFunctions body).length)

/-- The name that collects the arguments left over. -/
def restName? (params : List Pattern) : Option String :=
  match params.getLast? with
  | some (.rest (.identifier id) _) => some id.name
  | _ => none

def bindArguments (c : Callable) : StateM σ Unit := do
  if c.kind = .function ∧ some "arguments" ∉ c.params.map Pattern.plainName? then
    S.assign "arguments" (← S.perform .arguments)

def restArguments (skip : Nat) : StateM σ V := do
  let array ← S.loadGlobal "Array"
  let prototype ← S.getNamed array "prototype"
  let slice ← S.getNamed prototype "slice"
  let arguments ← S.perform .arguments
  let start ← S.number skip
  S.callWith slice arguments [start]

/-- Gives a function the arguments left over. -/
def bindRest (params : List Pattern) : StateM σ Unit := do
  match restName? params with
  | none => return ()
  | some name => S.assign name (← restArguments S (params.length - 1))

/-- Runs the body of a function. One that reaches its end returns nothing. -/
def execBody : ArrowBody → (n : Nat) → StateM σ (Outcome V)
  | .expression e, n => do return .returns (← evalExpression S e n)
  | .block body, n => do
    match ← execList S fuel body n with
    | .normal => return .returns (← S.perform .undefined)
    | o => return o

/-- Runs a function whose inner functions are numbered from `n`. -/
def execCallable (c : Callable) (n : Nat) : StateM σ (Outcome V) := do
  bindArguments S c
  bindRest S c.params
  execBody S fuel c.body n

end Statements

end Run

end ScriptIr
