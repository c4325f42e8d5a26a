import ScriptIr.Proofs.Closures.Trees

/-!
# Code under a shift of function ids

Lowering never looks at the value of a function id: it takes the next id of the counter, gives it to
the new function and puts it in the closure. So starting the counter at another id shifts all ids of
the module and changes nothing else, also when lowering fails.

* `shifting`: the judgement that a computation is its own image.
-/
namespace ScriptIr

open Code Function

namespace Code

def Inst.shift (d : FuncId) : Inst → Inst
  | .func target captured => .func (target + d) captured
  | .arrow target captured => .arrow (target + d) captured
  | inst => inst

theorem Inst.shift_of_closure?_eq_none {inst : Inst} (h : inst.closure? = none) (d : FuncId) :
    inst.shift d = inst := by
  cases inst with
  | func target captured | arrow target captured => cases h
  | _ => rfl

def Function.shift (d : FuncId) (f : Function) : Function :=
  { f with id := f.id + d, insts := f.insts.map (Inst.shift d) }

def Module.shift (d : FuncId) (m : Module) : Module :=
  { m with nextId := m.nextId + d, functions := m.functions.map (Function.shift d) }

theorem Module.modify_shift {g h : Function → Function} {d : FuncId}
    (hg : ∀ f : Function, g (f.shift d) = (h f).shift d) (m : Module) (i : Nat) :
    (m.shift d).modify i g = (m.modify i h).shift d := by
  unfold modify shift
  congr 1
  apply Array.ext
  · simp
  · intro k h1 h2
    simp only [Array.getElem_modify, Array.getElem_map]
    split
    · exact hg _
    · rfl

theorem Module.newFunc_shift (m : Module) (d : FuncId) (name : String) (paramCount : UInt32) :
    (m.shift d).newFunc name paramCount
      = ((m.newFunc name paramCount).1, (m.newFunc name paramCount).2.shift d) := by
  have hnext : m.nextId + d + 1 = m.nextId + 1 + d := by
    rw [UInt32.add_assoc, UInt32.add_comm d, ← UInt32.add_assoc]
  unfold newFunc shift
  simp [Array.map_push, hnext, Function.shift]

theorem Module.getElem?_shift (m : Module) (d : FuncId) (i : Nat) :
    (m.shift d).functions[i]? = (m.functions[i]?).map (Function.shift d) := Array.getElem?_map

end Code

namespace Lower

/-- The state with all function ids moved on. -/
def State.shift (d : FuncId) (s : State) : State := { s with module := s.module.shift d }

/-- The image of a result under a shift; `φ` is what becomes of the answer. -/
def shifted (d : FuncId) (φ : α → α) : EStateM.Result Error State α → EStateM.Result Error State α
  | .ok a s => .ok (φ a) (s.shift d)
  | .error e s => .error e (s.shift d)

/-- From states with shifted ids, the second computation does the same as the first. -/
def Shifts (d : FuncId) (φ : α → α) (x y : Emit α) : Prop :=
  ∀ s : State, y (s.shift d) = shifted d φ (x s)

namespace Shifts

variable {d : FuncId}

theorem pure (φ : α → α) (a : α) : Shifts d φ (Pure.pure a) (Pure.pure (φ a)) := fun _ => rfl

theorem throw (φ : α → α) (e : Error) : Shifts d φ (MonadExcept.throw e) (MonadExcept.throw e) :=
  fun _ => rfl

theorem bind {x y : Emit α} {g h : α → Emit β} {φ : α → α} {ψ : β → β} (hx : Shifts d φ x y)
    (hg : ∀ a, Shifts d ψ (g a) (h (φ a))) : Shifts d ψ (x >>= g) (y >>= h) := by
  intro s
  show EStateM.bind y h (s.shift d) = shifted d ψ (EStateM.bind x g s)
  unfold EStateM.bind
  rw [hx s]
  cases x s with
  | ok a t => exact hg a t
  | error e t => rfl

theorem naming (x : Scope.Naming α) : Shifts d id (naming x) (naming x) := by
  intro s
  dsimp only [Lower.naming, State.shift]
  cases x s.scopes <;> rfl

theorem newScope (parent : Option Scope.ScopeId) (kind : Scope.Kind) :
    Shifts d id (newScope parent kind) (newScope parent kind) := fun _ => rfl

theorem get : Shifts d (State.shift d) get get := fun _ => rfl

theorem of_module {x y : Emit α} (change change' : Module → α × Module)
    (hx : ∀ s, x s = .ok (change s.module).1 { s with module := (change s.module).2 })
    (hy : ∀ s, y s = .ok (change' s.module).1 { s with module := (change' s.module).2 })
    (h : ∀ m : Module, change' (m.shift d) = ((change m).1, (change m).2.shift d)) :
    Shifts d id x y := by
  intro s
  rw [hx, hy]
  show EStateM.Result.ok (change' (s.module.shift d)).1 _ = _
  dsimp only [State.shift]
  rw [h]
  rfl

theorem newFunction (name : String) (paramCount : Nat) :
    Shifts d id (newFunction name paramCount) (newFunction name paramCount) :=
  of_module (·.newFunc name paramCount.toUInt32) (·.newFunc name paramCount.toUInt32)
    (fun _ => rfl) (fun _ => rfl) fun m => m.newFunc_shift d name paramCount.toUInt32

theorem of_function {x y : Emit Nat} (i : Nat) (count : Function → Nat) (g h : Function → Function)
    (hx : ∀ s, x s = .ok (((s.module.functions[i]?).map count).getD 0)
      { s with module := s.module.modify i g })
    (hy : ∀ s, y s = .ok (((s.module.functions[i]?).map count).getD 0)
      { s with module := s.module.modify i h })
    (hcount : ∀ f : Function, count (f.shift d) = count f)
    (hchange : ∀ f : Function, h (f.shift d) = (g f).shift d) : Shifts d id x y := by
  refine of_module (fun m => (((m.functions[i]?).map count).getD 0, m.modify i g))
    (fun m => (((m.functions[i]?).map count).getD 0, m.modify i h)) hx hy fun m => ?_
  dsimp only
  rw [m.getElem?_shift, Option.map_map, Module.modify_shift hchange]
  congr 3
  funext f
  exact hcount f

variable (ctx : Ctx)

theorem newBlock : Shifts d id (newBlock ctx) (newBlock ctx) :=
  of_function ctx.func (·.blocks.size) (·.newBlock.2) (·.newBlock.2) (fun _ => rfl) (fun _ => rfl)
    (fun _ => rfl) fun _ => rfl

theorem emit (block : BlockId) (inst : Inst) :
    Shifts d id (emit ctx block inst) (emit ctx block (inst.shift d)) :=
  of_function ctx.func (·.insts.size) (fun f => (f.push block inst).2)
    (fun f => (f.push block (inst.shift d)).2) (fun _ => rfl) (fun _ => rfl)
    (fun _ => Array.size_map) fun f => by simp [push, shift]

theorem patch (target : InstId) (inst : Inst) :
    Shifts d id (patch ctx target inst) (patch ctx target (inst.shift d)) := by
  refine of_module (fun m => ((), m.modify ctx.func fun f => f.replace target inst))
    (fun m => ((), m.modify ctx.func fun f => f.replace target (inst.shift d))) (fun _ => rfl)
    (fun _ => rfl) fun m => ?_
  dsimp only
  rw [Module.modify_shift fun f => ?_]
  simp [replace, shift]

theorem instAt? (target : InstId) :
    Shifts d (Option.map (Inst.shift d)) (instAt? ctx target) (instAt? ctx target) := by
  intro s
  show EStateM.Result.ok (((s.module.shift d).functions[ctx.func]?).bind fun f => f.insts[target]?) _ = _
  rw [s.module.getElem?_shift]
  show _ = EStateM.Result.ok (((s.module.functions[ctx.func]?).bind fun f => f.insts[target]?).map _) _
  cases s.module.functions[ctx.func]? with
  | none => rfl
  | some f => simp [shift]

end Shifts

/-! ## The judgement -/

def shifting (d : FuncId) : Judgement where
  holds _ _ _ x := Shifts d id x x
  pure _ _ a := .pure id a
  throw _ _ _ e := .throw id e
  bind hx hg := hx.bind hg
  naming _ _ x _ := .naming x
  opening hg := (Shifts.newScope _ _).bind fun scope => hg 0 scope (Nat.zero_le _)
  record _ _ _ := fun _ => rfl
  newBlock ctx := .newBlock ctx
  emit ctx block inst _ h := by
    have hemit : Shifts d id (emit ctx block inst) (emit ctx block (inst.shift d)) :=
      Shifts.emit ctx block inst
    rwa [Inst.shift_of_closure?_eq_none h] at hemit
  completeFrame ctx push size captured rest _ hrest := by
    refine (Shifts.instAt? ctx push).bind fun inst => ?_
    have hpatch := Shifts.patch (d := d) ctx push (.pushScope size captured)
    cases inst with
    | none => exact (Shifts.throw id _).bind fun _ => hrest
    | some inst =>
      cases inst with
      | pushScope => exact hpatch.bind fun _ => hrest
      | _ => exact (Shifts.throw id _).bind fun _ => hrest
  completePhi ctx block x incoming _ hx :=
    (Shifts.emit ctx block (.phi [])).bind fun id => (hx id).bind fun a =>
      (Shifts.patch ctx id (.phi (incoming a))).bind fun _ => .pure _ a

variable {d : FuncId}

theorem shifts_functionCode (h : Header) (body : BodyCode) (parent : Scope.ScopeId)
    (hbody : ∀ names, parameterNames h.params = .ok names → (shifting d).Stmt true [] body) :
    Shifts d (fun r => (r.1 + d, r.2)) (functionCode h body parent) (functionCode h body parent) := by
  have hheader : (shifting d).holds 0 0 [] (checkHeader h) := Judgement.checkHeader h
  cases hnames : parameterNames h.params with
  | error e =>
    rw [functionCode_of_error hnames]
    exact Shifts.bind hheader fun _ => Shifts.throw _ e
  | ok names =>
    have hopened (func : Nat) :
        (shifting d).holds func 0 [] (openedCode h names.1 names.2 body parent func) :=
      Judgement.openedCode h names.1 names.2 (hbody names hnames) parent func
    rw [functionCode_of_ok hnames]
    refine Shifts.bind hheader fun _ => Shifts.bind Shifts.get fun s => ?_
    refine Shifts.bind (Shifts.newFunction _ _) fun func => ?_
    exact Shifts.bind (hopened func) fun captured => Shifts.pure _ (s.module.nextId, captured)

theorem shifting_closes (d : FuncId) : (shifting d).Closes := by
  rintro h body ns hbody ⟨⟨ctx, _⟩, _⟩ block
  refine Shifts.bind (shifts_functionCode h body ctx.scope hbody) fun r => ?_
  have hcaptured : (shifting d).holds ctx.func 0 [] (capturedAddresses ctx block r.2) :=
    Judgement.capturedAddresses block r.2
  refine Shifts.bind hcaptured fun captured => Shifts.bind ?_ fun value => Shifts.pure id _
  cases h.kind with
  | function => exact Shifts.emit ctx block (.func r.1 captured)
  | arrow => exact Shifts.emit ctx block (.arrow r.1 captured)

theorem shift_program (p : Tree.Program) (d : FuncId) : Shifts d id (program p) (program p) := by
  refine Shifts.bind (Shifts.newFunction _ _) fun func => Shifts.bind (Shifts.newScope _ _) fun scope => ?_
  refine Shifts.bind (Shifts.newBlock _) fun entry => ?_
  exact Judgement.program_body (J := ⟨_, shifting_closes d⟩) p ⟨func, scope⟩ entry

end Lower

end ScriptIr
