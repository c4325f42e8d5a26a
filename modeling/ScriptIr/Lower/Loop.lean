import ScriptIr.Lower.Statement

/-!
# Loops

Every loop has a frame. A jump out of the loop goes to its exit, which leaves that frame; a jump to
the next round goes to the test or the update.

A `for` loop whose head declares names runs each round in a further frame that holds copies of them,
so that closures made in the body keep the values of their round. The copies are written back at the
end of the round.

* `whileCode`, `doWhileCode`, `forCode`: loops with a condition.
-/
namespace ScriptIr.Lower

open Code (BlockId InstId Inst)
open ScriptIr.Tree (Declaration)

/-- Makes jumps inside a scope go to the given blocks. -/
def setTargets (scope : Scope.ScopeId) (onBreak onContinue : BlockId) : Emit Unit :=
  modifyScopes fun a => (a.setBreakTarget scope onBreak).setContinueTarget scope onContinue

def closeLoop (ctx : Ctx) (frame : Frame) (exit : BlockId) : Emit BlockId := do
  closeFrame ctx frame
  popScopes ctx exit 1
  return exit

/-- What the rounds of a loop stand for, given the contexts around the loop and in its scope, the block
in which the loop starts, two more blocks and the exit. -/
abbrev RoundsCode := Ctx → Ctx → (start first second exit : BlockId) → Emit Unit

/-- A loop with the given rounds. A jump to the next round goes to the block that `next` says. -/
def loopCode (next : BlockId → BlockId → BlockId) (rounds : RoundsCode) : StmtCode := fun ctx block => do
  let scope ← newScope (some ctx.scope) .block
  let exit ← newBlock ctx
  let frame ← openFrame ctx scope
  let first ← newBlock ctx
  let second ← newBlock ctx
  setTargets scope exit (next first second)
  perform ctx block (.jump frame.entry)
  rounds ctx (ctx.withScope scope) frame.body first second exit
  closeLoop ctx frame exit

/-- Rounds with a test before the body. -/
def whileRounds (test : ExprCode) (body : StmtCode) : RoundsCode :=
  fun ctx inner start testing round exit => do
    perform ctx start (.jump testing)
    let t ← test inner testing
    perform ctx t.block (.branch t.value round exit)
    let last ← body inner round
    perform ctx last (.jump testing)

def whileCode (test : ExprCode) (body : StmtCode) : StmtCode :=
  loopCode (fun testing _ => testing) (whileRounds test body)

/-- Rounds with a test after the body. -/
def doWhileRounds (test : ExprCode) (body : StmtCode) : RoundsCode :=
  fun ctx inner start round testing exit => do
    perform ctx start (.jump round)
    let last ← body inner round
    perform ctx last (.jump testing)
    let t ← test inner testing
    perform ctx t.block (.branch t.value round exit)

def doWhileCode (test : ExprCode) (body : StmtCode) : StmtCode :=
  loopCode (fun _ testing => testing) (doWhileRounds test body)

/-! ## Loops with a head -/

/-- A name that a loop's head declares, and whether it is constant. -/
structure LoopVariable where
  name : String
  constant : Bool
  deriving DecidableEq, Repr, Inhabited

/-- What the first part of a loop's head stands for. It answers the names that it declares. -/
abbrev HeadCode := Ctx → BlockId → Emit (BlockId × List LoopVariable)

def emptyHead : HeadCode := fun _ block => return (block, [])

def expressionHead (code : ExprCode) : HeadCode := fun ctx block => do
  return ((← code ctx block).block, [])

def declarationHead (d : Declaration) (code : StmtCode) : HeadCode := fun ctx block => do
  announce ctx block d
  return (← code ctx block, d.boundNames.map (⟨·, d.isConstant⟩))

/-- Goes on to a round if the test holds or there is none. -/
def forTest (test : Option ExprCode) (ctx : Ctx) (testing round exit : BlockId) : Emit Unit := do
  match test with
  | some test =>
    let t ← test ctx testing
    perform ctx t.block (.branch t.value round exit)
  | none => perform ctx testing (.jump round)

/-- A loop variable's slot, and the slot of its copy. -/
structure Copy where
  outer : InstId
  inner : InstId
  deriving DecidableEq, Repr, Inhabited

/-- Copies a variable of a loop to a slot of the round. -/
def copyIn (ctx : Ctx) (block : BlockId) (v : LoopVariable) : Emit Copy := do
  match ← naming (Scope.Naming.lookup ctx.scope v.name false true) with
  | none => throw (.internal (.lostLoopVariable v.name))
  | some r =>
    let outer ← slotAddress ctx block r.binding
    let inner ← emit ctx block .alloca
    let value ← emit ctx block (.load outer)
    perform ctx block (.store inner value)
    discard (naming (Scope.Naming.declare ctx.scope v.name (some inner) v.constant))
    return { outer, inner }

def copyAllIn (ctx : Ctx) (block : BlockId) : List LoopVariable → Emit (List Copy)
  | [] => return []
  | v :: vs => do
    let copy ← copyIn ctx block v
    return copy :: (← copyAllIn ctx block vs)

/-- Writes the copies of a round back. -/
def copyAllOut (ctx : Ctx) (block : BlockId) : List Copy → Emit Unit
  | [] => return ()
  | copy :: copies => do
    let value ← emit ctx block (.load copy.inner)
    perform ctx block (.store copy.outer value)
    copyAllOut ctx block copies

/-- The rounds of a loop whose head declares no names. -/
def plainRounds (test : Option ExprCode) (body : StmtCode) (ctx : Ctx)
    (testing update exit : BlockId) : Emit Unit := do
  modifyScopes (·.setContinueTarget ctx.scope update)
  let round ← newBlock ctx
  forTest test ctx testing round exit
  let last ← body ctx round
  perform ctx last (.jump update)

/-- The rounds of a loop whose head declares names: each has a frame with copies. -/
def copyingRounds (vars : List LoopVariable) (test : Option ExprCode) (body : StmtCode) (ctx : Ctx)
    (testing update exit : BlockId) : Emit Unit := do
  let scope ← newScope (some ctx.scope) .block
  let inner := ctx.withScope scope
  let frame ← openFrame ctx scope
  let ending ← newBlock ctx
  modifyScopes (·.setContinueTarget scope ending)
  forTest test ctx testing frame.entry exit
  let copies ← copyAllIn inner frame.body vars
  let last ← body inner frame.body
  perform ctx last (.jump ending)
  copyAllOut ctx ending copies
  popScopes ctx ending 1
  perform ctx ending (.jump update)
  closeFrame ctx frame

def forRounds (vars : List LoopVariable) (test : Option ExprCode) (body : StmtCode) (ctx : Ctx)
    (testing update exit : BlockId) : Emit Unit :=
  if vars.isEmpty then plainRounds test body ctx testing update exit
  else copyingRounds vars test body ctx testing update exit

/-- The last part of a loop's head, if there is one. -/
def updatePart (update : Option ExprCode) : StmtCode := fun ctx block =>
  match update with
  | some update => do return (← update ctx block).block
  | none => return block

def forCode (head : HeadCode) (test update : Option ExprCode) (body : StmtCode) : StmtCode :=
  fun ctx block => do
    let scope ← newScope (some ctx.scope) .block
    let inner := ctx.withScope scope
    let exit ← newBlock ctx
    let frame ← openFrame ctx scope
    modifyScopes (·.setBreakTarget scope exit)
    perform ctx block (.jump frame.entry)
    let (last, vars) ← head inner frame.body
    let testing ← newBlock ctx
    let updating ← newBlock ctx
    perform ctx last (.jump testing)
    forRounds vars test body inner testing updating exit
    let last ← updatePart update inner updating
    perform ctx last (.jump testing)
    closeLoop ctx frame exit

/-! ## Loops over keys and items -/

/-- How a loop receives an element. -/
abbrev ElementCode := Ctx → BlockId → (element : InstId) → Emit BlockId

def assignElement (place : PlaceCode) : ElementCode := fun ctx block element => do
  let (block, place) ← place ctx block
  writePlace ctx block place element
  return block

def declareElement (d : Declaration) (binders : List Binder) : ElementCode :=
  fun ctx block element => do
    checkBlockWide d
    match binders with
    | [binder] =>
      announce ctx block d
      binder.bind ctx block element d.isConstant
    | _ => unsupported .manyLoopBindings d.loc

/-- The blocks of a loop over elements. -/
structure Rounds where
  /-- Evaluates what is looped over. -/
  setup : BlockId
  /-- Looks for a next element. -/
  next : BlockId
  exit : BlockId
  frame : Frame
  /-- Ends a round. -/
  ending : BlockId
  deriving DecidableEq, Repr, Inhabited

/-- How a loop gets its elements. The code of one answers the element of a round. -/
abbrev Protocol := Ctx → Rounds → (value : InstId) → Emit InstId

/-- The list of an object's keys, its length and the first index. -/
def keysStart (ctx : Ctx) (block : BlockId) (value : InstId) : Emit (InstId × InstId × InstId) := do
  let object ← loadGlobal ctx block "Object"
  let method ← getNamed ctx block object "keys"
  let keys ← callWith ctx block method object [value]
  let origin ← emitNumber ctx block 0
  let length ← getNamed ctx block keys "length"
  return (keys, length, origin)

/-- The next index, once the frame of a round is left. -/
def keysAgain (ctx : Ctx) (block : BlockId) (index : InstId) : Emit InstId := do
  popScopes ctx block 1
  let one ← emitNumber ctx block 1
  emit ctx block (.binary .add index one)

/-- Walks the list of an object's keys, the length of which is read once. -/
def keysProtocol : Protocol := fun ctx r value => do
  let (keys, length, origin) ← keysStart ctx r.setup value
  perform ctx r.setup (.jump r.next)
  let index ← emit ctx r.next (.phi [])
  let more ← emit ctx r.next (.binary .lt index length)
  perform ctx r.next (.branch more r.frame.entry r.exit)
  let element ← emit ctx r.frame.body (.getItem keys index)
  let bumped ← keysAgain ctx r.ending index
  perform ctx r.ending (.jump r.next)
  patch ctx index (.phi [(r.setup, origin), (r.ending, bumped)])
  return element

/-- The iterator of an object. -/
def itemsStart (ctx : Ctx) (block : BlockId) (value : InstId) : Emit InstId := do
  let symbol ← loadGlobal ctx block "Symbol"
  let key ← getNamed ctx block symbol "iterator"
  let method ← emit ctx block (.getItem value key)
  callWith ctx block method value []

/-- What an iterator answers next, and whether it is done. -/
def itemsNext (ctx : Ctx) (block : BlockId) (iterator : InstId) : Emit (InstId × InstId) := do
  let method ← getNamed ctx block iterator "next"
  let step ← callWith ctx block method iterator []
  let done ← getNamed ctx block step "done"
  return (step, done)

/-- Asks an iterator until it is done. -/
def itemsProtocol : Protocol := fun ctx r value => do
  let iterator ← itemsStart ctx r.setup value
  perform ctx r.setup (.jump r.next)
  let (step, done) ← itemsNext ctx r.next iterator
  perform ctx r.next (.branch done r.exit r.frame.entry)
  let element ← getNamed ctx r.frame.body step "value"
  popScopes ctx r.ending 1
  perform ctx r.ending (.jump r.next)
  return element

/-- A loop over elements. Each round has a frame; a jump out of the loop leaves it. -/
def forEachCode (protocol : Protocol) (value : ExprCode) (target : ElementCode) (body : StmtCode)
    (isAwait : Bool) (loc : Option Location) : StmtCode := fun ctx block => do
  if isAwait then unsupported .forAwait loc
  let v ← value ctx block
  let next ← newBlock ctx
  let exit ← newBlock ctx
  let broken ← newBlock ctx
  let scope ← newScope (some ctx.scope) .block
  let inner := ctx.withScope scope
  let frame ← openFrame ctx scope
  let ending ← newBlock ctx
  setTargets scope broken ending
  let element ← protocol ctx { setup := v.block, next, exit, frame, ending } v.value
  let round ← target inner frame.body element
  let last ← body inner round
  perform ctx last (.jump ending)
  popScopes ctx broken 1
  perform ctx broken (.jump exit)
  closeFrame ctx frame
  return exit

end ScriptIr.Lower
