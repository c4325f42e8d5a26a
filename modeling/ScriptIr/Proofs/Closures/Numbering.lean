import ScriptIr.Proofs.Closures.Trees
import ScriptIr.Proofs.Lower.State

/-!
# Numbers of functions

Functions receive their ids in the order in which they are opened, from the first id on and around
2^32. This holds in every state that lowering reaches, and in those that it fails in.
-/
namespace ScriptIr

open Code

namespace Lower

def endOf : EStateM.Result Error State α → State
  | .ok _ s => s
  | .error _ s => s

/-- Ids follow positions from the first id on. -/
structure Numbered (firstId : FuncId) (s : State) : Prop where
  next : s.module.nextId = firstId + s.fnCount.toUInt32
  ids : ∀ k F, s.fn? k = some F → F.id = firstId + k.toUInt32

theorem State.next_addFunction {firstId : FuncId} {s : State}
    (h : s.module.nextId = firstId + s.fnCount.toUInt32) (name : String) (paramCount : UInt32) :
    (s.addFunction name paramCount).module.nextId
      = firstId + (s.addFunction name paramCount).fnCount.toUInt32 := by
  have hsucc : (s.fnCount + 1).toUInt32 = s.fnCount.toUInt32 + 1 := by simp
  rw [State.fnCount_addFunction, hsucc, ← UInt32.add_assoc, ← h]
  rfl

namespace Numbered

variable {firstId : FuncId} {s : State}

theorem modifyFn (h : Numbered firstId s) (f : Nat) {change : Code.Function → Code.Function}
    (hid : ∀ F, (change F).id = F.id) : Numbered firstId (s.modifyFn f change) := by
  refine ⟨?_, fun k G hG => ?_⟩
  · rw [State.fnCount_modifyFn]
    exact h.next
  · rw [State.fn?_modifyFn] at hG
    split at hG
    · obtain ⟨F, hF, rfl⟩ := Option.map_eq_some_iff.mp hG
      rw [hid]
      exact h.ids k F hF
    · exact h.ids k G hG

theorem addFunction (h : Numbered firstId s) (name : String) (paramCount : UInt32) :
    Numbered firstId (s.addFunction name paramCount) := by
  refine ⟨State.next_addFunction h.next name paramCount, fun k G hG => ?_⟩
  · rw [State.fn?_addFunction] at hG
    split at hG
    next hk =>
      cases hG
      rw [hk]
      exact h.next
    next => exact h.ids k G hG

end Numbered

/-- A computation keeps ids and positions together. -/
def KeepsNumbers (firstId : FuncId) (x : Emit α) : Prop :=
  ∀ s, Numbered firstId s → Numbered firstId (endOf (x s))

namespace KeepsNumbers

variable {firstId : FuncId}

theorem pure (a : α) : KeepsNumbers firstId (Pure.pure a) := fun _ hs => hs

theorem throw (e : Error) : KeepsNumbers firstId (MonadExcept.throw e : Emit α) := fun _ hs => hs

theorem bind {x : Emit α} {g : α → Emit β} (hx : KeepsNumbers firstId x)
    (hg : ∀ a, KeepsNumbers firstId (g a)) : KeepsNumbers firstId (x >>= g) := by
  intro s hs
  have hmid := hx s hs
  show Numbered firstId (endOf (EStateM.bind x g s))
  unfold EStateM.bind
  cases hrun : x s with
  | ok a t =>
    rw [hrun] at hmid
    exact hg a t hmid
  | error e t =>
    rw [hrun] at hmid
    exact hmid

theorem naming (x : Scope.Naming α) : KeepsNumbers firstId (naming x) := by
  intro s hs
  unfold Lower.naming
  cases x s.scopes with
  | ok a scopes => exact ⟨hs.next, hs.ids⟩
  | error e scopes => exact ⟨hs.next, hs.ids⟩

theorem newScope (parent : Option Scope.ScopeId) (kind : Scope.Kind) :
    KeepsNumbers firstId (newScope parent kind) := fun _ hs => ⟨hs.next, hs.ids⟩

theorem get : KeepsNumbers firstId get := fun _ hs => hs

variable (ctx : Ctx)

theorem instAt? (v : InstId) : KeepsNumbers firstId (instAt? ctx v) := fun _ hs => hs

theorem newBlock : KeepsNumbers firstId (newBlock ctx) :=
  fun _ hs => hs.modifyFn ctx.func fun _ => rfl

theorem emit (block : BlockId) (inst : Inst) : KeepsNumbers firstId (emit ctx block inst) :=
  fun _ hs => hs.modifyFn ctx.func fun _ => rfl

theorem patch (v : InstId) (inst : Inst) : KeepsNumbers firstId (patch ctx v inst) :=
  fun _ hs => hs.modifyFn ctx.func fun _ => rfl

theorem newFunction (name : String) (paramCount : Nat) :
    KeepsNumbers firstId (newFunction name paramCount) := fun _ hs => hs.addFunction name _

end KeepsNumbers

/-- Ids and positions stay together. -/
def numbering (firstId : FuncId) : Judgement where
  holds _ _ _ x := KeepsNumbers firstId x
  pure _ _ a := .pure a
  throw _ _ _ e := .throw e
  bind hx hg := hx.bind hg
  naming _ _ x _ := .naming x
  opening hg := (KeepsNumbers.newScope _ _).bind fun scope => hg 0 scope (Nat.zero_le _)
  record _ _ _ _ hs := ⟨hs.next, hs.ids⟩
  newBlock ctx _ := .newBlock ctx
  emit ctx block inst _ _ := .emit ctx block inst
  completeFrame ctx push size captured rest _ hrest := by
    refine (KeepsNumbers.instAt? ctx push).bind fun inst => ?_
    dsimp only
    split
    · exact (KeepsNumbers.patch ctx push _).bind fun _ => hrest
    · exact .throw _
  completePhi ctx block x incoming _ hx :=
    (KeepsNumbers.emit ctx block _).bind fun id => (hx id).bind fun a =>
      (KeepsNumbers.patch ctx id _).bind fun _ => .pure a

theorem numbering_closes (firstId : FuncId) : (numbering firstId).Closes :=
  Judgement.closes_of_ungraded (fun h => h) .get .newFunction .emit

/-- Ids follow positions when a program has been lowered, and also when it could not be. -/
theorem numbered_program (p : Tree.Program) (name : String) (firstId : FuncId) :
    Numbered firstId (endOf (program p { module := .empty name firstId })) := by
  have hprogram : KeepsNumbers firstId (program p) :=
    KeepsNumbers.bind (.newFunction _ _) fun func => KeepsNumbers.bind (.newScope _ _) fun scope =>
      KeepsNumbers.bind (.newBlock ⟨func, scope⟩) fun entry =>
        Judgement.program_body (J := ⟨_, numbering_closes firstId⟩) p ⟨func, scope⟩ entry
  refine hprogram _ ⟨?_, fun k F hF => ?_⟩
  · show firstId = firstId + (0 : Nat).toUInt32
    simp
  · simp [State.fn?, Code.Module.empty] at hF

end Lower

end ScriptIr
