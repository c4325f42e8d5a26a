import Mathlib.Data.Nat.Basic
import ScriptIr.Lower.Basic
import ScriptIr.Proofs.Code.Order

/-!
# Code under construction

What the primitive steps of lowering do to the code, seen through four views of the state: a function,
one of its instructions, one of its blocks, and how many blocks and instructions it has. The steps are
a new function, a new block, an instruction at the end of a block, and another instruction in the
place of one.

* `State.fn?`, `State.inst?`, `State.block?`: the views.
* `State.addFunction`, `State.addBlock`, `State.push`, `State.replace`: the steps.
-/
namespace ScriptIr.Lower

open Code Array

/-! ## Runs -/

section

variable {s t : State} {x : Emit α}

theorem run_bind {f : α → Emit β} {b : β} (h : (x >>= f) s = .ok b t) :
    ∃ a u, x s = .ok a u ∧ f a u = .ok b t := by
  change EStateM.bind x f s = _ at h
  unfold EStateM.bind at h
  split at h
  · next a u hx => exact ⟨a, u, hx, h⟩
  · cases h

theorem run_bind_iff {f : α → Emit β} {b : β} :
    (x >>= f) s = .ok b t ↔ ∃ a u, x s = .ok a u ∧ f a u = .ok b t := by
  refine ⟨run_bind, fun ⟨a, u, hx, h⟩ => ?_⟩
  change EStateM.bind x f s = _
  rw [EStateM.bind, hx]
  exact h

theorem run_map {f : α → β} {b : β} (h : (f <$> x) s = .ok b t) :
    ∃ a, x s = .ok a t ∧ f a = b := by
  change EStateM.map f x s = _ at h
  unfold EStateM.map at h
  split at h
  · next a u hx =>
    cases h
    exact ⟨a, hx, rfl⟩
  · cases h

end

/-! ## Views -/

namespace State

variable {s : State} {f : Nat} {b : BlockId}

def fn? (s : State) (f : Nat) : Option Function := s.module.functions[f]?

def inst? (s : State) (f : Nat) (v : InstId) : Option Inst := (s.fn? f).bind (·.insts[v]?)

/-- The instructions of a block, in order. -/
def block? (s : State) (f : Nat) (b : BlockId) : Option (List InstId) :=
  (s.fn? f).bind fun F => (F.blocks[b]?).map (·.toList)

def fnCount (s : State) : Nat := s.module.functions.size

def blockCount (s : State) (f : Nat) : Nat := ((s.fn? f).map (·.blocks.size)).getD 0

/-- Number of instructions of a function. -/
def instCount (s : State) (f : Nat) : Nat := ((s.fn? f).map (·.insts.size)).getD 0

/-! ## Bounds -/

theorem lt_fnCount {F : Function} (h : s.fn? f = some F) : f < s.fnCount := by
  unfold fn? at h
  exact (Array.getElem?_eq_some_iff.mp h).1

theorem fn?_isSome (h : f < s.fnCount) : ∃ F, s.fn? f = some F :=
  ⟨_, getElem?_eq_getElem h⟩

theorem lt_instCount {v : InstId} {i : Inst} (h : s.inst? f v = some i) : v < s.instCount f := by
  unfold inst? at h
  obtain ⟨F, hF, hv⟩ := Option.bind_eq_some_iff.mp h
  unfold instCount
  rw [hF]
  exact (Array.getElem?_eq_some_iff.mp hv).1

theorem inst?_instCount (s : State) (f : Nat) : s.inst? f (s.instCount f) = none := by
  unfold inst? instCount
  cases s.fn? f with
  | none => rfl
  | some F => exact getElem?_eq_none le_rfl

theorem lt_blockCount {ids : List InstId} (h : s.block? f b = some ids) : b < s.blockCount f := by
  unfold block? at h
  obtain ⟨F, hF, hb⟩ := Option.bind_eq_some_iff.mp h
  obtain ⟨block, hblock, _⟩ := Option.map_eq_some_iff.mp hb
  unfold blockCount
  rw [hF]
  exact (Array.getElem?_eq_some_iff.mp hblock).1

theorem block?_isSome (h : b < s.blockCount f) : ∃ ids, s.block? f b = some ids := by
  unfold blockCount at h
  unfold block?
  cases hF : s.fn? f with
  | none => rw [hF] at h; exact absurd h (Nat.not_lt_zero b)
  | some F =>
    rw [hF] at h
    have hb : b < F.blocks.size := h
    exact ⟨F.blocks[b].toList, by simp [getElem?_eq_getElem hb]⟩

theorem lt_fnCount_of_blockCount (h : 0 < s.blockCount f) : f < s.fnCount := by
  unfold blockCount at h
  cases hF : s.fn? f with
  | none => rw [hF] at h; exact absurd h (Nat.lt_irrefl 0)
  | some F => exact lt_fnCount hF

/-! ## Steps -/

def modifyFn (s : State) (f : Nat) (change : Function → Function) : State :=
  { s with module := s.module.modify f change }

def addFunction (s : State) (name : String) (paramCount : UInt32) : State :=
  { s with module := (s.module.newFunc name paramCount).2 }

def addBlock (s : State) (f : Nat) : State := s.modifyFn f fun F => F.newBlock.2

/-- Adds an instruction at the end of a block. -/
def push (s : State) (f : Nat) (b : BlockId) (i : Inst) : State :=
  s.modifyFn f fun F => (F.push b i).2

/-- Puts another instruction in the place of one. -/
def replace (s : State) (f : Nat) (v : InstId) (i : Inst) : State :=
  s.modifyFn f fun F => F.replace v i

theorem fn?_modifyFn (s : State) (f g : Nat) (change : Function → Function) :
    (s.modifyFn f change).fn? g = if g = f then (s.fn? g).map change else s.fn? g := by
  unfold fn? modifyFn Module.modify
  simp only [getElem?_modify]
  by_cases h : g = f
  · simp [h]
  · simp [h, Ne.symm h]

theorem fn?_addFunction (s : State) (name : String) (paramCount : UInt32) (g : Nat) :
    (s.addFunction name paramCount).fn? g =
      if g = s.fnCount then some { id := s.module.nextId, name, paramCount } else s.fn? g := by
  unfold fn? addFunction Module.newFunc fnCount
  simp only [getElem?_push]

@[simp] theorem fnCount_modifyFn (s : State) (f : Nat) (change : Function → Function) :
    (s.modifyFn f change).fnCount = s.fnCount := by
  simp [fnCount, modifyFn, Module.modify]

@[simp] theorem fnCount_addFunction (s : State) (name : String) (paramCount : UInt32) :
    (s.addFunction name paramCount).fnCount = s.fnCount + 1 := by
  simp [fnCount, addFunction, Module.newFunc]

theorem fnCount_addBlock (s : State) (f : Nat) : (s.addBlock f).fnCount = s.fnCount :=
  fnCount_modifyFn _ _ _

theorem fnCount_push (s : State) (f : Nat) (b : BlockId) (i : Inst) :
    (s.push f b i).fnCount = s.fnCount := fnCount_modifyFn _ _ _

theorem fnCount_replace (s : State) (f : Nat) (v : InstId) (i : Inst) :
    (s.replace f v i).fnCount = s.fnCount := fnCount_modifyFn _ _ _

/-! ## New functions -/

theorem fn?_fnCount (s : State) : s.fn? s.fnCount = none := getElem?_eq_none le_rfl

section

variable (s : State) (name : String) (paramCount : UInt32) (f : Nat)

theorem inst?_addFunction
    (v : InstId) : (s.addFunction name paramCount).inst? f v = s.inst? f v := by
  unfold inst?
  rw [fn?_addFunction]
  split
  · next h => rw [h, fn?_fnCount]; rfl
  · rfl

theorem block?_addFunction
    (b : BlockId) : (s.addFunction name paramCount).block? f b = s.block? f b := by
  unfold block?
  rw [fn?_addFunction]
  split
  · next h => rw [h, fn?_fnCount]; rfl
  · rfl

theorem blockCount_addFunction :
    (s.addFunction name paramCount).blockCount f = s.blockCount f := by
  unfold blockCount
  rw [fn?_addFunction]
  split
  · next h => rw [h, fn?_fnCount]; rfl
  · rfl

end

/-! ## New blocks -/

theorem inst?_addBlock (s : State) (f g : Nat) (v : InstId) : (s.addBlock f).inst? g v = s.inst? g v := by
  unfold inst? addBlock
  rw [fn?_modifyFn]
  split
  · cases s.fn? g <;> rfl
  · rfl

section

variable (hf : f < s.fnCount)
include hf

theorem block?_addBlock (g : Nat) (b : BlockId) : (s.addBlock f).block? g b =
      if g = f ∧ b = s.blockCount f then some [] else s.block? g b := by
  obtain ⟨F, hF⟩ := fn?_isSome hf
  unfold block? addBlock blockCount
  rw [fn?_modifyFn]
  by_cases hg : g = f
  · subst hg
    simp only [hF, if_true, Option.map_some, Option.bind_some, Function.newBlock,
      getElem?_push, Option.getD_some, true_and]
    split <;> simp
  · simp [hg]

theorem blockCount_addBlock (g : Nat) :
    (s.addBlock f).blockCount g = if g = f then s.blockCount f + 1 else s.blockCount g := by
  obtain ⟨F, hF⟩ := fn?_isSome hf
  unfold blockCount addBlock
  rw [fn?_modifyFn]
  by_cases hg : g = f
  · subst hg
    simp [hF, Function.newBlock]
  · simp [hg]

/-! ## New instructions -/

theorem inst?_push (b : BlockId) (i : Inst) (g : Nat) (v : InstId) :
    (s.push f b i).inst? g v = if g = f ∧ v = s.instCount f then some i else s.inst? g v := by
  obtain ⟨F, hF⟩ := fn?_isSome hf
  unfold inst? push instCount
  rw [fn?_modifyFn]
  by_cases hg : g = f
  · subst hg
    simp [hF, Function.push, getElem?_push]
  · simp [hg]

theorem block?_push (b : BlockId) (i : Inst) (g : Nat) (c : BlockId) : (s.push f b i).block? g c =
      if g = f ∧ c = b then (s.block? f b).map (· ++ [s.instCount f]) else s.block? g c := by
  obtain ⟨F, hF⟩ := fn?_isSome hf
  unfold block? push instCount
  rw [fn?_modifyFn]
  by_cases hg : g = f
  · subst hg
    by_cases hc : c = b
    · subst hc
      simp [hF, Function.push, getElem?_modify]
      cases F.blocks[c]? <;> simp
    · simp [hF, Function.push, getElem?_modify, hc, Ne.symm hc]
  · simp [hg]

end

theorem blockCount_push (s : State) (f : Nat) (b : BlockId) (i : Inst) (g : Nat) :
    (s.push f b i).blockCount g = s.blockCount g := by
  unfold blockCount push
  rw [fn?_modifyFn]
  split
  · cases s.fn? g <;> simp [Function.push]
  · rfl

/-! ## Replaced instructions -/

section

variable (s : State) (f : Nat) (v : InstId) (i : Inst) (g : Nat)

theorem inst?_replace (w : InstId) :
    (s.replace f v i).inst? g w =
      if g = f ∧ w = v then (s.inst? f v).map (fun _ => i) else s.inst? g w := by
  unfold inst? replace
  rw [fn?_modifyFn]
  by_cases hg : g = f
  · subst hg
    cases s.fn? g with
    | none => simp
    | some F =>
      simp only [if_true, Option.map_some, Option.bind_some, Function.replace,
        getElem?_setIfInBounds, true_and]
      by_cases hw : w = v
      · subst hw
        by_cases hlt : w < F.insts.size
        · simp [hlt]
        · simp [hlt]
      · simp [hw, Ne.symm hw]
  · simp [hg]

theorem block?_replace (b : BlockId) :
    (s.replace f v i).block? g b = s.block? g b := by
  unfold block? replace
  rw [fn?_modifyFn]
  split
  · cases s.fn? g <;> rfl
  · rfl

theorem blockCount_replace :
    (s.replace f v i).blockCount g = s.blockCount g := by
  unfold blockCount replace
  rw [fn?_modifyFn]
  split
  · cases s.fn? g <;> rfl
  · rfl

end

end State

/-! ## The steps as computations -/

theorem newFunction_eq (name : String) (paramCount : Nat) (s : State) :
    newFunction name paramCount s = .ok s.fnCount (s.addFunction name paramCount.toUInt32) := rfl

variable (ctx : Ctx)

theorem newBlock_eq (s : State) : newBlock ctx s = .ok (s.blockCount ctx.func) (s.addBlock ctx.func) := rfl

theorem emit_eq (block : BlockId) (i : Inst) (s : State) :
    emit ctx block i s = .ok (s.instCount ctx.func) (s.push ctx.func block i) := rfl

theorem patch_eq (v : InstId) (i : Inst) (s : State) :
    patch ctx v i s = .ok () (s.replace ctx.func v i) := rfl

theorem instAt?_eq (v : InstId) (s : State) : instAt? ctx v s = .ok (s.inst? ctx.func v) s := rfl

theorem newScope_eq (parent : Option Scope.ScopeId) (kind : Scope.Kind) (s : State) :
    newScope parent kind s =
      .ok s.scopes.scopes.size { s with scopes := (s.scopes.push parent kind).2 } := rfl

end ScriptIr.Lower
