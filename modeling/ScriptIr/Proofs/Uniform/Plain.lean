import ScriptIr.Lower.Loop

/-!
# Plain steps

Most steps of a lowering only emit instructions. They neither look at the scopes nor fail, and make no
closures, so every property of lowerings treats them alike.

* `Plain`: computations that are made of such steps (`Plain.loadGlobal`, ..., `Plain.keysProtocol`).
* `Quiet`, `Plain.quiet`: they succeed and leave the scopes alone.
-/
namespace ScriptIr.Lower

open Code

/-- A phi whose incoming values are known only after what follows it. -/
def completePhi (ctx : Ctx) (block : BlockId) (x : InstId → Emit α)
    (incoming : α → List (BlockId × InstId)) : Emit α := do
  let id ← emit ctx block (.phi [])
  let a ← x id
  patch ctx id (.phi (incoming a))
  return a

def keysRound (ctx : Ctx) (r : Rounds) (keys length index : InstId) : Emit (InstId × InstId) := do
  let more ← emit ctx r.next (.binary .lt index length)
  perform ctx r.next (.branch more r.frame.entry r.exit)
  let element ← emit ctx r.frame.body (.getItem keys index)
  let bumped ← keysAgain ctx r.ending index
  perform ctx r.ending (.jump r.next)
  return (element, bumped)

/-- The index of a loop over keys is a phi that is completed behind the round. -/
theorem keysProtocol_eq (ctx : Ctx) (r : Rounds) (value : InstId) : keysProtocol ctx r value = do
    let (keys, length, origin) ← keysStart ctx r.setup value
    perform ctx r.setup (.jump r.next)
    let (element, _) ← completePhi ctx r.next (keysRound ctx r keys length) fun (_, bumped) =>
      [(r.setup, origin), (r.ending, bumped)]
    return element := by
  simp only [keysProtocol, completePhi, keysRound, bind_assoc, pure_bind]

/-- The computation succeeds and does not touch the scopes. -/
def Quiet (x : Emit α) : Prop := ∀ s, ∃ a t, x s = .ok a t ∧ t.scopes = s.scopes

namespace Quiet

variable {ctx : Ctx}

theorem pure (a : α) : Quiet (Pure.pure a : Emit α) := fun s => ⟨a, s, rfl, rfl⟩

theorem bind {x : Emit α} {g : α → Emit β} (hx : Quiet x) (hg : ∀ a, Quiet (g a)) : Quiet (x >>= g) := by
  intro s
  obtain ⟨a, t, hrun, hscopes⟩ := hx s
  obtain ⟨b, u, hrun', hscopes'⟩ := hg a t
  refine ⟨b, u, ?_, hscopes'.trans hscopes⟩
  show EStateM.bind x g s = _
  unfold EStateM.bind
  rw [hrun]
  exact hrun'

theorem emit {block : BlockId} {inst : Inst} : Quiet (emit ctx block inst) := fun _ => ⟨_, _, rfl, rfl⟩

theorem patch {id : InstId} {inst : Inst} : Quiet (patch ctx id inst) := fun _ => ⟨_, _, rfl, rfl⟩

theorem instAt? {id : InstId} : Quiet (instAt? ctx id) := fun s => ⟨_, s, rfl, rfl⟩

theorem newFunction {name : String} {count : Nat} : Quiet (newFunction name count) :=
  fun _ => ⟨_, _, rfl, rfl⟩

theorem get : Quiet (MonadState.get : Emit State) := fun s => ⟨s, s, rfl, rfl⟩

theorem scopes {read : Scope.Arena → α} : Quiet (scopes read) := fun s => ⟨_, s, rfl, rfl⟩

theorem record {use : Use} : Quiet (record use) := fun _ => ⟨_, _, rfl, rfl⟩

end Quiet

/-- Computations that only emit instructions to function `f`, and no closures. -/
inductive Plain : (f : Nat) → {α : Type} → Emit α → Prop where
  | pure {f : Nat} {α : Type} (a : α) : Plain f (Pure.pure a)
  | bind {f : Nat} {α β : Type} {x : Emit α} {g : α → Emit β} (hx : Plain f x)
    (hg : ∀ a, Plain f (g a)) : Plain f (x >>= g)
  | newBlock {ctx : Ctx} : Plain ctx.func (newBlock ctx)
  | emit {ctx : Ctx} {block : BlockId} {inst : Inst} (h : inst.closure? = none) :
    Plain ctx.func (emit ctx block inst)
  | completePhi {α : Type} {ctx : Ctx} {block : BlockId} {x : InstId → Emit α}
    {incoming : α → List (BlockId × InstId)} (hx : ∀ id, Plain ctx.func (x id)) :
    Plain ctx.func (completePhi ctx block x incoming)

namespace Plain

variable {f : Nat} {x : Emit α} {ctx : Ctx} {block second following : BlockId} {inst : Inst}
  {value object lhs rhs : InstId} {name : String} {n : Nat} {s : Segments} {place : Place}

theorem quiet (h : Plain f x) : Quiet x := by
  induction h with
  | pure a => exact .pure a
  | bind _ _ ihx ihg => exact ihx.bind ihg
  | newBlock | emit => exact fun _ => ⟨_, _, rfl, rfl⟩
  | @completePhi _ ctx block x incoming _ ih =>
    exact .bind (fun _ => ⟨_, _, rfl, rfl⟩) fun id => (ih id).bind fun a =>
      .bind (fun _ => ⟨_, _, rfl, rfl⟩) fun _ => .pure a

theorem scopes_eq {a : α} {s t : State} (h : Plain f x) (hrun : x s = .ok a t) : t.scopes = s.scopes := by
  obtain ⟨b, u, hx, hu⟩ := h.quiet s
  cases hrun.symm.trans hx
  exact hu

theorem perform (h : inst.closure? = none) : Plain ctx.func (perform ctx block inst) :=
  .bind (.emit h) fun _ => .pure _

theorem jump {target : BlockId} : Plain ctx.func (Lower.perform ctx block (.jump target)) := .perform rfl

theorem emitNumber : Plain ctx.func (emitNumber ctx block n) := .emit rfl

theorem loadGlobal : Plain ctx.func (loadGlobal ctx block name) := .bind (.emit rfl) fun _ => .emit rfl

theorem getNamed : Plain ctx.func (getNamed ctx block object name) := .bind (.emit rfl) fun _ => .emit rfl

theorem callWith {callee receiver : InstId} {args : List InstId} :
    Plain ctx.func (callWith ctx block callee receiver args) := .bind (.emit rfl) fun _ => .emit rfl

theorem popScopes : Plain ctx.func (popScopes ctx block n) := by
  unfold Lower.popScopes
  split
  · exact .perform rfl
  · exact .pure _

theorem returnUndefined : Plain ctx.func (returnUndefined ctx block) := .bind (.emit rfl) fun _ => .perform rfl

theorem slotAddress {binding : Scope.Binding} : Plain ctx.func (slotAddress ctx block binding) := by
  cases binding with
  | parameter index | capture index => exact .emit rfl
  | rest slot | slot slot | forward slot => exact .pure _

theorem openFrame {scope : Scope.ScopeId} : Plain ctx.func (openFrame ctx scope) :=
  .bind .newBlock fun _ => .bind .newBlock fun _ => .bind (.emit rfl) fun _ => .pure _

/-! ## Expressions -/

theorem flush : Plain ctx.func (flush ctx block s) := by
  unfold Lower.flush
  split
  · exact .pure _
  · exact .bind (.emit rfl) fun _ => .pure _

theorem closeSegments : Plain ctx.func (closeSegments ctx block s) := by
  unfold Lower.closeSegments
  split
  · exact .bind (.emit rfl) fun _ => .pure _
  · exact .bind .flush fun _ => .pure _

theorem readPlace : Plain ctx.func (readPlace ctx block place) := by
  cases place <;> exact .emit rfl

theorem writePlace : Plain ctx.func (writePlace ctx block place value) := by
  cases place <;> exact .perform rfl

theorem applyBinary {op : Tree.BinaryOperator} : Plain ctx.func (applyBinary ctx block op lhs rhs) := by
  unfold Lower.applyBinary
  split
  · exact .emit rfl
  · exact .bind .loadGlobal fun _ => .bind .getNamed fun _ => .callWith

theorem applyUnary {op : Tree.UnaryOperator} : Plain ctx.func (applyUnary ctx block op value) := by
  cases op with
  | plus => exact .bind .emitNumber fun _ => .emit rfl
  | _ => exact .emit rfl

theorem logicalBranch {op : Tree.LogicalOperator} {left : Lowered} :
    Plain ctx.func (logicalBranch ctx op left second following) := by
  cases op with
  | and | or => exact .perform rfl
  | nullish => exact .bind (.emit rfl) fun _ => .bind (.emit rfl) fun _ => .perform rfl

/-! ## Loops -/

theorem copyAllOut {copies : List Copy} : Plain ctx.func (copyAllOut ctx block copies) := by
  induction copies with
  | nil => exact .pure _
  | cons copy copies ih => exact .bind (.emit rfl) fun _ => .bind (.perform rfl) fun _ => ih

theorem keysStart : Plain ctx.func (keysStart ctx block value) :=
  .bind .loadGlobal fun _ => .bind .getNamed fun _ => .bind .callWith fun _ =>
    .bind .emitNumber fun _ => .bind .getNamed fun _ => .pure _

theorem keysAgain : Plain ctx.func (keysAgain ctx block value) :=
  .bind .popScopes fun _ => .bind .emitNumber fun _ => .emit rfl

theorem keysProtocol {r : Rounds} : Plain ctx.func (keysProtocol ctx r value) := by
  rw [keysProtocol_eq]
  exact .bind .keysStart fun _ => .bind (.perform rfl) fun _ => .bind (.completePhi fun _ =>
    .bind (.emit rfl) fun _ => .bind (.perform rfl) fun _ => .bind (.emit rfl) fun _ =>
      .bind .keysAgain fun _ => .bind (.perform rfl) fun _ => .pure _) fun _ => .pure _

theorem itemsStart : Plain ctx.func (itemsStart ctx block value) :=
  .bind .loadGlobal fun _ => .bind .getNamed fun _ => .bind (.emit rfl) fun _ => .callWith

theorem itemsNext : Plain ctx.func (itemsNext ctx block value) :=
  .bind .getNamed fun _ => .bind .callWith fun _ => .bind .getNamed fun _ => .pure _

theorem itemsProtocol {r : Rounds} : Plain ctx.func (itemsProtocol ctx r value) :=
  .bind .itemsStart fun _ => .bind .jump fun _ => .bind .itemsNext fun _ => .bind (.perform rfl) fun _ =>
    .bind .getNamed fun _ => .bind .popScopes fun _ => .bind .jump fun _ => .pure _

end Plain

end ScriptIr.Lower
