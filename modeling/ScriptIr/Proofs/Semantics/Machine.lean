import Mathlib.Data.List.Forall2
import Mathlib.Data.Nat.Basic
import ScriptIr.Lower.Function

/-!
# Running code

What the code of one function does when it runs. Values and everything outside the code are left open:
a `World` answers each action of the code with a value and decides each condition. A register holds the
value of an instruction once that instruction has been executed. Reading a register before that, or a
phi without an entry for the block that control came from, leaves the machine stuck.
-/
namespace ScriptIr

open Code Lower

/-- The operator that an instruction computes. -/
def Code.BinaryOp.operator : Code.BinaryOp → Tree.BinaryOperator
  | .add => .add
  | .sub => .subtract
  | .mul => .multiply
  | .div => .divide
  | .mod => .modulo
  | .bitAnd => .bitAnd
  | .bitOr => .bitOr
  | .bitXor => .bitXor
  | .shiftLeft => .leftShift
  | .shiftRight => .rightShift
  | .shiftRightZero => .unsignedRightShift
  | .eq => .equal
  | .strictEq => .strictEqual
  | .ne => .notEqual
  | .strictNe => .strictNotEqual
  | .gt => .greater
  | .ge => .greaterEqual
  | .lt => .less
  | .le => .lessEqual
  | .inOp => .within
  | .instanceOf => .instanceOf

/-- The operator that an instruction computes. -/
def Code.UnaryOp.operator : Code.UnaryOp → Tree.UnaryOperator
  | .neg => .minus
  | .bitNot => .bitNot
  | .logicalNot => .logicalNot
  | .typeOf => .typeOf

namespace Run

/-! ## Worlds -/

/-- What code does with the world around it. -/
inductive Action (V : Type) where
  | load (address : V)
  | store (address value : V)
  | getItem (object key : V)
  | setItem (object key value : V)
  | delItem (object key : V)
  | new (callee args : V)
  | call (callee receiver args : V)
  | closure (kind : FunctionKind) (id : FuncId) (captured : List V)
  /-- The address of a global variable. -/
  | global (name : String)
  | undefined
  | null
  | boolean (value : Bool)
  | number (bits : UInt64)
  | string (text : String)
  | regex (text : String)
  | object (props : List (V × V))
  | array (elements : List V)
  | binary (op : Tree.BinaryOperator) (lhs rhs : V)
  | unary (op : Tree.UnaryOperator) (operand : V)
  | this
  | arguments
  | debugger
  deriving DecidableEq, Repr

/-- Answers the actions of code and decides conditions. -/
structure World (V σ : Type) where
  act : Action V → σ → V × σ
  test : V → σ → Bool × σ

/-- What a function is called with: the slots of its arguments, the slots it sees from outside and the
slots that it makes, by the instructions that fetch or make them. -/
structure Activation (V : Type) where
  slot : InstId → Inst → V

/-! ## Registers -/

/-- The values of the instructions that have been executed. -/
abbrev Registers (V : Type) := InstId → Option V

namespace Registers

variable {V : Type}

/-- Lets an instruction have a value. -/
def set (regs : Registers V) (v : InstId) (a : V) : Registers V :=
  fun w => if w = v then some a else regs w

@[simp] theorem set_same (regs : Registers V) (v : InstId) (a : V) : regs.set v a v = some a :=
  if_pos rfl

theorem set_other (regs : Registers V) {v w : InstId} (a : V) (h : w ≠ v) :
    regs.set v a w = regs w := if_neg h

/-- The values of some instructions. -/
def read? (regs : Registers V) : List InstId → Option (List V)
  | [] => some []
  | v :: vs => do return (← regs v) :: (← regs.read? vs)

theorem read?_eq_some {regs : Registers V} {vs : List InstId} {as : List V}
    (h : List.Forall₂ (fun v a => regs v = some a) vs as) : regs.read? vs = some as := by
  induction h with
  | nil => rfl
  | cons hv _ ih => rw [read?, hv, ih]; rfl

/-- The values of the keys and values of an object. -/
def readProps? (regs : Registers V) : List (InstId × InstId) → Option (List (V × V))
  | [] => some []
  | (k, v) :: props => do return (← regs k, ← regs v) :: (← regs.readProps? props)

theorem readProps?_eq_some {regs : Registers V} {vs : List (InstId × InstId)} {as : List (V × V)}
    (h : List.Forall₂ (fun v a => regs v.1 = some a.1 ∧ regs v.2 = some a.2) vs as) :
    regs.readProps? vs = some as := by
  induction h with
  | nil => rfl
  | cons hv _ ih => rw [readProps?, hv.1, hv.2, ih]; rfl

end Registers

/-! ## Instructions -/

/-- What an instruction that does not end its block comes to. -/
inductive Effect (V : Type) where
  | act (action : Action V)
  | value (v : V)
  /-- Frames are opened and left; nothing else happens. -/
  | quiet

/-- The value that a phi takes when control comes from a block. -/
def incoming? (prev : BlockId) (incoming : List (BlockId × InstId)) : Option InstId :=
  (incoming.find? fun e => e.1 == prev).map (·.2)

/-- What an instruction comes to, if it does not end its block and what it reads is there. -/
def effect? {V : Type} (A : Activation V) (prev : BlockId) (regs : Registers V) (v : InstId) :
    Inst → Option (Effect V)
  | .load a => do return .act (.load (← regs a))
  | .store a x => do return .act (.store (← regs a) (← regs x))
  | .getItem o k => do return .act (.getItem (← regs o) (← regs k))
  | .setItem o k x => do return .act (.setItem (← regs o) (← regs k) (← regs x))
  | .delItem o k => do return .act (.delItem (← regs o) (← regs k))
  | .new c args => do return .act (.new (← regs c) (← regs args))
  | .call c r args => do return .act (.call (← regs c) (← regs r) (← regs args))
  | .getGlobal name => some (.act (.global name))
  | .undefined => some (.act .undefined)
  | .null => some (.act .null)
  | .boolean b => some (.act (.boolean b))
  | .number bits => some (.act (.number bits))
  | .string text => some (.act (.string text))
  | .regex text => some (.act (.regex text))
  | .object props => do return .act (.object (← regs.readProps? props))
  | .array vs => do return .act (.array (← regs.read? vs))
  | .func id vs => do return .act (.closure .function id (← regs.read? vs))
  | .arrow id vs => do return .act (.closure .arrow id (← regs.read? vs))
  | .binary op l r => do return .act (.binary op.operator (← regs l) (← regs r))
  | .unary op x => do return .act (.unary op.operator (← regs x))
  | .pushScope _ vs => do
    let _ ← regs.read? vs
    return .quiet
  | .popScope _ => some .quiet
  | .alloca => some (.value (A.slot v .alloca))
  | .arg i => some (.value (A.slot v (.arg i)))
  | .capture i => some (.value (A.slot v (.capture i)))
  | .this => some (.act .this)
  | .arguments => some (.act .arguments)
  | .move x => do return .value (← regs x)
  | .phi incoming => do return .value (← regs (← incoming? prev incoming))
  | .debugger => some (.act .debugger)
  | .ret _ | .jump _ | .branch .. => none

/-! ## Steps -/

/-- A moment of a run: the next instruction is the one at position `index` of the block, and control
came from block `prev`. -/
structure Point (V σ : Type) where
  block : BlockId
  index : Nat
  prev : BlockId
  regs : Registers V
  world : σ

/-- Where a run is: in the function, or back at the caller. -/
inductive Status (V σ : Type) where
  | running (p : Point V σ)
  | returned (value : V) (world : σ)

/-- The world at a moment of a run. -/
def Status.world {V σ : Type} : Status V σ → σ
  | running p => p.world
  | returned _ w => w

section Steps

variable {V σ : Type} (W : World V σ) (A : Activation V) (F : Code.Function)

/-- The next instruction, with its name. -/
def fetch? (block : BlockId) (index : Nat) : Option (InstId × Inst) := do
  let v ← (← F.blocks[block]?)[index]?
  return (v, ← F.insts[v]?)

/-- Goes to the start of a block. -/
def Point.goto (p : Point V σ) (target : BlockId) : Point V σ :=
  { p with block := target, index := 0, prev := p.block }

/-- Executes an instruction that does not end its block. -/
def Point.perform (p : Point V σ) (v : InstId) : Effect V → Point V σ
  | .act a =>
    let answer := W.act a p.world
    { p with index := p.index + 1, regs := p.regs.set v answer.1, world := answer.2 }
  | .value a => { p with index := p.index + 1, regs := p.regs.set v a }
  | .quiet => { p with index := p.index + 1 }

def step? (p : Point V σ) : Option (Status V σ) := do
  let (v, i) ← fetch? F p.block p.index
  match i with
  | .ret x => return .returned (← p.regs x) p.world
  | .jump target => return .running (p.goto target)
  | .branch c yes no =>
    let outcome := W.test (← p.regs c) p.world
    return .running ({ p with world := outcome.2 }.goto (if outcome.1 then yes else no))
  | i => return .running (p.perform W v (← effect? A p.prev p.regs v i))

/-- One step of a run that may be over. -/
def next? : Status V σ → Option (Status V σ)
  | .running p => step? W A F p
  | .returned v w => some (.returned v w)

/-- Several steps. -/
def after? : Nat → Status V σ → Option (Status V σ)
  | 0, st => some st
  | n + 1, st => do after? n (← next? W A F st)

variable {W A F}

theorem after?_add (m n : Nat) (st : Status V σ) :
    after? W A F (m + n) st = (after? W A F m st).bind (after? W A F n) := by
  induction m generalizing st with
  | zero => rw [Nat.zero_add]; rfl
  | succ m ih =>
    rw [Nat.succ_add, after?, after?]
    cases next? W A F st with
    | none => rfl
    | some st' => exact ih st'

/-- A run that is over stays over. -/
theorem after?_returned (n : Nat) (v : V) (w : σ) :
    after? W A F n (.returned v w) = some (.returned v w) := by
  induction n with
  | zero => rfl
  | succ n ih => exact ih

variable (W A F)

/-- A run gets from one moment to another, in a number of steps that is not less than `least`. -/
def Reaches (least : Nat) (st st' : Status V σ) : Prop :=
  ∃ n, least ≤ n ∧ after? W A F n st = some st'

variable {W A F}

namespace Reaches

variable {k m : Nat} {st st' st'' : Status V σ} {p : Point V σ} {v : InstId}
  {index : Nat} {a : V} {x : InstId}

theorem refl (st : Status V σ) : Reaches W A F 0 st st := ⟨0, Nat.le_refl 0, rfl⟩

section

variable (h : Reaches W A F k st st')
include h

theorem trans (h' : Reaches W A F m st' st'') : Reaches W A F (k + m) st st'' := by
  obtain ⟨n, hn, hrun⟩ := h
  obtain ⟨n', hn', hrun'⟩ := h'
  exact ⟨n + n', Nat.add_le_add hn hn', by rw [after?_add, hrun]; exact hrun'⟩

theorem mono (hm : m ≤ k := by omega) : Reaches W A F m st st' := by
  obtain ⟨n, hn, hrun⟩ := h
  exact ⟨n, Nat.le_trans hm hn, hrun⟩

theorem andThen (h' : Reaches W A F m st' st'') :
    Reaches W A F 0 st st'' := (h.trans h').mono (Nat.zero_le _)

end

theorem step (h : step? W A F p = some st') : Reaches W A F 1 (.running p) st' :=
  ⟨1, Nat.le_refl 1, by rw [after?, next?, h]; rfl⟩

theorem perform {i : Inst} {eff : Effect V} (hfetch : fetch? F p.block p.index = some (v, i))
    (heff : effect? A p.prev p.regs v i = some eff) :
    Reaches W A F 1 (.running p) (.running (p.perform W v eff)) := by
  refine step ?_
  unfold step?
  rw [hfetch]
  cases i with
  | ret _ | jump _ | branch _ _ _ => cases heff
  | _ => simp only [Option.bind_eq_bind, Option.bind_some, heff]; rfl

theorem jump {b target : BlockId} (hfetch : fetch? F b index = some (v, .jump target)) (prev : BlockId)
    (regs : Registers V) (w : σ) :
    Reaches W A F 1 (.running ⟨b, index, prev, regs, w⟩) (.running ⟨target, 0, b, regs, w⟩) := by
  refine step ?_
  unfold step?
  rw [hfetch]
  rfl

theorem branch {c : InstId} {b yes no : BlockId} {regs : Registers V}
    (hfetch : fetch? F b index = some (v, .branch c yes no)) (hc : regs c = some a) (prev : BlockId)
    (w : σ) :
    Reaches W A F 1 (.running ⟨b, index, prev, regs, w⟩)
      (.running ⟨if (W.test a w).1 then yes else no, 0, b, regs, (W.test a w).2⟩) := by
  refine step ?_
  unfold step?
  rw [hfetch]
  simp only [Option.bind_eq_bind, Option.bind_some, hc]
  rfl

theorem ret {b : BlockId} {regs : Registers V} (hfetch : fetch? F b index = some (v, .ret x))
    (hx : regs x = some a) (prev : BlockId) (w : σ) :
    Reaches W A F 1 (.running ⟨b, index, prev, regs, w⟩) (.returned a w) := by
  refine step ?_
  unfold step?
  rw [hfetch]
  simp only [Option.bind_eq_bind, Option.bind_some, hx]
  rfl

/-- A phi takes the value that belongs to the block that control came from. -/
theorem phi {b prev : BlockId} {regs : Registers V} {incoming : List (BlockId × InstId)}
    (hfetch : fetch? F b index = some (v, .phi incoming)) (hx : incoming? prev incoming = some x)
    (ha : regs x = some a) (w : σ) :
    Reaches W A F 1 (.running ⟨b, index, prev, regs, w⟩)
      (.running ⟨b, index + 1, prev, regs.set v a, w⟩) := by
  have heff : effect? A prev regs v (.phi incoming) = some (.value a) := by
    simp [effect?, hx, Option.bind_eq_bind, Option.bind_some, ha]
  exact perform (p := ⟨b, index, prev, regs, w⟩) hfetch heff

end Reaches

end Steps

end Run

end ScriptIr
