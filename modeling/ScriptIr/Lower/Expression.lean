import ScriptIr.Lower.Address
import ScriptIr.Number.Display
import ScriptIr.Tree.Kind

/-!
# Expressions

What each kind of expression stands for, given what its parts stand for. Operands are evaluated from
left to right, and the target of an assignment before the assigned value.

* `readIdentifier`, `literalCode`, `arrayCode`, `objectCode`: the simple kinds.
* `logicalCode`, `conditionalCode`: kinds that branch; the value is chosen by a phi.
-/
namespace ScriptIr.Lower

open Code (BlockId InstId Inst)
open ScriptIr.Tree (Expression ObjectMember)

def readIdentifier (name : String) : ExprCode := fun ctx block => do
  let address ← identifierAddress ctx block name false
  return ⟨block, ← emit ctx block (.load address)⟩

def instCode (inst : Inst) : ExprCode := fun ctx block => return ⟨block, ← emit ctx block inst⟩

def literalCode (l : Tree.Literal) : ExprCode :=
  match l.regex with
  | some r => instCode (.regex ("/" ++ r.pattern ++ "/" ++ r.flags))
  | none =>
    if l.bigint.isSome then failing (.unsupported .bigInt l.loc)
    else
      match l.value with
      | .null => instCode .null
      | .boolean b => instCode (.boolean b)
      | .number bits => instCode (.number bits)
      | .text s => instCode (.string s)
      | .other => failing (.unsupported .literal l.loc)

/-! ## Lists of expressions -/

/-- Evaluates expressions in turn, each in the block where the one before ended. -/
def evalList (ctx : Ctx) : BlockId → List ExprCode → Emit (BlockId × List InstId)
  | block, [] => return (block, [])
  | block, code :: codes => do
    let r ← code ctx block
    let (block, values) ← evalList ctx r.block codes
    return (block, r.value :: values)

def argumentsCode (args : List ExprCode) : ExprCode := fun ctx block => do
  let (block, values) ← evalList ctx block args
  return ⟨block, ← emit ctx block (.array values)⟩

def argumentCode (e : Expression) (code : ExprCode) : ExprCode :=
  match e with
  | .spread _ loc => failing (.unsupported .spreadArgument loc)
  | _ => code

def sequenceCode (codes : List ExprCode) : ExprCode := fun ctx block => do
  let (block, values) ← evalList ctx block codes
  match values.getLast? with
  | some value => return ⟨block, value⟩
  | none => throw (.internal .emptySequence)

/-! ## Arrays -/

/-- An element of an array literal. -/
inductive Element where
  | hole
  | value (code : ExprCode)
  /-- Every item of an iterable. -/
  | spread (code : ExprCode)
  deriving Inhabited

/-- The pieces of an array literal: finished ones, and the elements of the piece at the end. -/
structure Segments where
  done : List InstId := []
  pending : List InstId := []
  deriving DecidableEq, Repr, Inhabited

def flush (ctx : Ctx) (block : BlockId) (s : Segments) : Emit Segments := do
  if s.pending.isEmpty then return s
  let piece ← emit ctx block (.array s.pending)
  return { done := s.done ++ [piece] }

/-- Evaluates the elements of an array literal. A spread is a piece of its own. -/
def evalElements (ctx : Ctx) : BlockId → Segments → List Element → Emit (BlockId × Segments)
  | block, s, [] => return (block, s)
  | block, s, .hole :: elements => do
    let value ← emit ctx block .undefined
    evalElements ctx block { s with pending := s.pending ++ [value] } elements
  | block, s, .value code :: elements => do
    let r ← code ctx block
    evalElements ctx r.block { s with pending := s.pending ++ [r.value] } elements
  | block, s, .spread code :: elements => do
    let s ← flush ctx block s
    let r ← code ctx block
    let array ← loadGlobal ctx r.block "Array"
    let convert ← getNamed ctx r.block array "from"
    let piece ← callWith ctx r.block convert array [r.value]
    evalElements ctx r.block { s with done := s.done ++ [piece] } elements

/-- Ends the last piece and answers the first piece and the others. An array without elements is one
empty piece. -/
def closeSegments (ctx : Ctx) (block : BlockId) (s : Segments) : Emit (InstId × List InstId) := do
  match s.done with
  | [] => return (← emit ctx block (.array s.pending), [])
  | first :: _ => return (first, (← flush ctx block s).done.tail)

/-- Joins an array with others by `Array.prototype.concat`, if there are any. -/
def concatCode (ctx : Ctx) (block : BlockId) (first : InstId) (rest : List InstId) : Emit Lowered := do
  if rest.isEmpty then return ⟨block, first⟩
  let array ← loadGlobal ctx block "Array"
  let prototype ← getNamed ctx block array "prototype"
  let concat ← getNamed ctx block prototype "concat"
  return ⟨block, ← callWith ctx block concat first rest⟩

/-- An array literal: several pieces are joined. -/
def arrayCode (elements : List Element) : ExprCode := fun ctx block => do
  let (block, s) ← evalElements ctx block {} elements
  let (first, rest) ← closeSegments ctx block s
  concatCode ctx block first rest

/-! ## Objects -/

def propertyName : Expression → Except Error String
  | .identifier id => .ok id.name
  | .literal l =>
    match l.value with
    | .text s => .ok s
    | .number bits =>
      if l.bigint.isNone then .ok (Number.propertyKey bits)
      else .error (.unsupported .literalKey l.loc)
    | _ => .error (.unsupported .literalKey l.loc)
  | e => .error (.unsupported (.propertyKey e.kindName) e.loc)

def memberName : ObjectMember → Except Error String
  | .spread loc => .error (.unsupported .objectSpread loc)
  | .property key _ kind method computed loc =>
    if kind ≠ .value then .error (.unsupported .accessor loc)
    else if method then .error (.unsupported .method loc)
    else if computed then .error (.unsupported .computedKey loc)
    else propertyName key

/-- Evaluates the members of an object literal, each key before its value. -/
def evalMembers (ctx : Ctx) :
    BlockId → List (Except Error String × ExprCode) → Emit (BlockId × List (InstId × InstId))
  | block, [] => return (block, [])
  | block, (name, code) :: members => do
    let key ← emit ctx block (.string (← ofExcept name))
    let r ← code ctx block
    let (block, props) ← evalMembers ctx r.block members
    return (block, (key, r.value) :: props)

def objectCode (members : List (Except Error String × ExprCode)) : ExprCode := fun ctx block => do
  let (block, props) ← evalMembers ctx block members
  return ⟨block, ← emit ctx block (.object props)⟩

/-! ## Members and places -/

structure Target where
  block : BlockId
  object : InstId
  key : InstId
  deriving DecidableEq, Repr, Inhabited

abbrev TargetCode := Ctx → BlockId → Emit Target

def memberKey : Expression → Except Error String
  | .identifier id => .ok id.name
  | .bare .privateName loc => .error (.unsupported .privateField loc)
  | e => .error (.internal (.memberKey e.kindName))

def memberTarget (object property : Expression) (computed : Bool)
    (objectCode propertyCode : ExprCode) : TargetCode := fun ctx block => do
  if let .bare .superclass loc := object then
    unsupported .superProperty loc
  let o ← objectCode ctx block
  if computed then
    let k ← propertyCode ctx o.block
    return ⟨k.block, o.value, k.value⟩
  else
    let name ← ofExcept (memberKey property)
    return ⟨o.block, o.value, ← emit ctx o.block (.string name)⟩

def memberCode (target : TargetCode) : ExprCode := fun ctx block => do
  let t ← target ctx block
  return ⟨t.block, ← emit ctx t.block (.getItem t.object t.key)⟩

/-- What can be assigned to. -/
inductive Place where
  | slot (address : InstId)
  | member (object key : InstId)
  deriving DecidableEq, Repr, Inhabited

/-- What the target of an assignment stands for. -/
abbrev PlaceCode := Ctx → BlockId → Emit (BlockId × Place)

def identifierPlace (name : String) : PlaceCode := fun ctx block =>
  return (block, .slot (← identifierAddress ctx block name true))

def memberPlace (target : TargetCode) : PlaceCode := fun ctx block => do
  let t ← target ctx block
  return (t.block, .member t.object t.key)

/-- An expression that is written, which is a variable or a member. -/
def expressionPlace (e : Expression) (target : Option TargetCode) : PlaceCode :=
  match e, target with
  | .identifier id, _ => identifierPlace id.name
  | _, some target => memberPlace target
  | e, none => fun _ _ => throw (.invalidAssignmentTarget e.kindName)

def readPlace (ctx : Ctx) (block : BlockId) : Place → Emit InstId
  | .slot address => emit ctx block (.load address)
  | .member object key => emit ctx block (.getItem object key)

def writePlace (ctx : Ctx) (block : BlockId) (place : Place) (value : InstId) : Emit Unit :=
  match place with
  | .slot address => perform ctx block (.store address value)
  | .member object key => perform ctx block (.setItem object key value)

/-! ## Operators -/

/-- The instruction of an operator; the exponent has none. -/
def binaryOp? : Tree.BinaryOperator → Option Code.BinaryOp
  | .equal => some .eq
  | .notEqual => some .ne
  | .strictEqual => some .strictEq
  | .strictNotEqual => some .strictNe
  | .less => some .lt
  | .lessEqual => some .le
  | .greater => some .gt
  | .greaterEqual => some .ge
  | .leftShift => some .shiftLeft
  | .rightShift => some .shiftRight
  | .unsignedRightShift => some .shiftRightZero
  | .add => some .add
  | .subtract => some .sub
  | .multiply => some .mul
  | .divide => some .div
  | .modulo => some .mod
  | .bitOr => some .bitOr
  | .bitXor => some .bitXor
  | .bitAnd => some .bitAnd
  | .within => some .inOp
  | .instanceOf => some .instanceOf
  | .exponent => none

/-- Applies an operator to two values. The exponent calls `Math.pow`. -/
def applyBinary (ctx : Ctx) (block : BlockId) (op : Tree.BinaryOperator) (lhs rhs : InstId) :
    Emit InstId :=
  match binaryOp? op with
  | some op => emit ctx block (.binary op lhs rhs)
  | none => do
    let math ← loadGlobal ctx block "Math"
    let pow ← getNamed ctx block math "pow"
    callWith ctx block pow math [lhs, rhs]

def binaryCode (op : Tree.BinaryOperator) (left right : ExprCode) : ExprCode := fun ctx block => do
  let l ← left ctx block
  let r ← right ctx l.block
  return ⟨r.block, ← applyBinary ctx r.block op l.value r.value⟩

/-- Applies an operator to one value. A plus subtracts zero. -/
def applyUnary (ctx : Ctx) (block : BlockId) (op : Tree.UnaryOperator) (operand : InstId) :
    Emit InstId :=
  match op with
  | .minus => emit ctx block (.unary .neg operand)
  | .logicalNot => emit ctx block (.unary .logicalNot operand)
  | .bitNot => emit ctx block (.unary .bitNot operand)
  | .typeOf => emit ctx block (.unary .typeOf operand)
  | .void | .delete => emit ctx block .undefined
  | .plus => do
    let origin ← emitNumber ctx block 0
    emit ctx block (.binary .sub operand origin)

def deleteCode (e : Expression) (target : Option TargetCode) : ExprCode :=
  match target with
  | some target => fun ctx block => do
    let t ← target ctx block
    return ⟨t.block, ← emit ctx t.block (.delItem t.object t.key)⟩
  | none => failing (.unsupported .deleteNonMember e.loc)

def unaryCode (op : Tree.UnaryOperator) (e : Expression) (target : Option TargetCode)
    (operand : ExprCode) : ExprCode :=
  if op = .delete then deleteCode e target
  else fun ctx block => do
    let r ← operand ctx block
    return ⟨r.block, ← applyUnary ctx r.block op r.value⟩

def stepOp : Tree.UpdateOperator → Code.BinaryOp
  | .increment => .add
  | .decrement => .sub

def updateCode (op : Tree.UpdateOperator) (prefixed : Bool) (target : PlaceCode) : ExprCode :=
  fun ctx block => do
    let (block, place) ← target ctx block
    let old ← readPlace ctx block place
    let one ← emitNumber ctx block 1
    let new ← emit ctx block (.binary (stepOp op) old one)
    writePlace ctx block place new
    return ⟨block, ← emit ctx block (.move (if prefixed then new else old))⟩

/-- An assignment. A compound one reads its target once, before the right side is evaluated. -/
def assignmentCode (op : Tree.AssignmentOperator) (rightLoc : Option Location) (target : PlaceCode)
    (right : ExprCode) : ExprCode :=
  match op with
  | .logical _ => failing (.unsupported .logicalAssignment rightLoc)
  | .assign => fun ctx block => do
    let (block, place) ← target ctx block
    let r ← right ctx block
    writePlace ctx r.block place r.value
    return ⟨r.block, ← emit ctx r.block (.move r.value)⟩
  | .compound op => fun ctx block => do
    let (block, place) ← target ctx block
    let old ← readPlace ctx block place
    let r ← right ctx block
    let value ← applyBinary ctx r.block op old r.value
    writePlace ctx r.block place value
    return ⟨r.block, ← emit ctx r.block (.move value)⟩

/-! ## Branches -/

/-- Leaves a block for the second operand or for what follows, as the first operand's value says. -/
def logicalBranch (ctx : Ctx) (op : Tree.LogicalOperator) (left : Lowered)
    (second following : BlockId) : Emit Unit :=
  match op with
  | .and => perform ctx left.block (.branch left.value second following)
  | .or => perform ctx left.block (.branch left.value following second)
  | .nullish => do
    let null ← emit ctx left.block .null
    let missing ← emit ctx left.block (.binary .eq left.value null)
    perform ctx left.block (.branch missing second following)

def logicalCode (op : Tree.LogicalOperator) (left right : ExprCode) : ExprCode :=
  fun ctx block => do
    let l ← left ctx block
    let second ← newBlock ctx
    let following ← newBlock ctx
    logicalBranch ctx op l second following
    let r ← right ctx second
    perform ctx r.block (.jump following)
    return ⟨following, ← emit ctx following (.phi [(l.block, l.value), (r.block, r.value)])⟩

def conditionalCode (test consequent alternate : ExprCode) : ExprCode := fun ctx block => do
  let t ← test ctx block
  let first ← newBlock ctx
  let second ← newBlock ctx
  let join ← newBlock ctx
  perform ctx t.block (.branch t.value first second)
  let a ← consequent ctx first
  perform ctx a.block (.jump join)
  let b ← alternate ctx second
  perform ctx b.block (.jump join)
  return ⟨join, ← emit ctx join (.phi [(a.block, a.value), (b.block, b.value)])⟩

/-! ## Calls -/

/-- Where control is after a callee, the callee and its receiver. -/
def calleeCode (target : Option TargetCode) (code : ExprCode) (ctx : Ctx) (block : BlockId) :
    Emit (BlockId × InstId × InstId) :=
  match target with
  | some target => do
    let t ← target ctx block
    return (t.block, ← emit ctx t.block (.getItem t.object t.key), t.object)
  | none => do
    let r ← code ctx block
    return (r.block, r.value, ← emit ctx r.block .undefined)

def callCode (target : Option TargetCode) (callee : ExprCode) (args : List ExprCode) : ExprCode :=
  fun ctx block => do
    let (block, callee, receiver) ← calleeCode target callee ctx block
    let a ← argumentsCode args ctx block
    return ⟨a.block, ← emit ctx a.block (.call callee receiver a.value)⟩

def constructCode (callee : ExprCode) (args : List ExprCode) : ExprCode := fun ctx block => do
  let c ← callee ctx block
  let a ← argumentsCode args ctx c.block
  return ⟨a.block, ← emit ctx a.block (.new c.value a.value)⟩

/-! ## Templates -/

def nextText (loc : Option Location) : List (Option String) → Except Error (String × List (Option String))
  | some text :: texts => .ok (text, texts)
  | _ => .error (.unsupported .invalidEscape loc)

/-- Adds each expression and the text after it. An empty text is left out. -/
def evalTemplate (ctx : Ctx) (loc : Option Location) :
    BlockId → InstId → List (Option String) → List ExprCode → Emit Lowered
  | block, value, _, [] => return ⟨block, value⟩
  | block, value, texts, code :: codes => do
    let r ← code ctx block
    let (text, texts) ← ofExcept (nextText loc texts)
    let value ← emit ctx r.block (.binary .add value r.value)
    if text.isEmpty then evalTemplate ctx loc r.block value texts codes
    else
      let text ← emit ctx r.block (.string text)
      let value ← emit ctx r.block (.binary .add value text)
      evalTemplate ctx loc r.block value texts codes

def templateCode (texts : List (Option String)) (codes : List ExprCode) (loc : Option Location) :
    ExprCode := fun ctx block => do
  let (text, texts) ← ofExcept (nextText loc texts)
  let value ← emit ctx block (.string text)
  evalTemplate ctx loc block value texts codes

end ScriptIr.Lower
