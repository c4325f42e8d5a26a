import ScriptIr.Lower.Loop
import ScriptIr.Proofs.Semantics.Emission

/-!
# Scopes inside scopes

Blocks and loops open scopes of their own. Code in such a scope leaves the scopes around it as they
are, and jumps out of it go where the scope says, or else where the scope around it says.

* `Scope.Arena.Grows.onBreak`, `Scope.Arena.Grows.onContinue`: jumps go where they went before.
* `Since.newScope`, `Since.inner`, `Since.retarget`: what can be lowered around such a scope.
-/
namespace ScriptIr

open Code List Scope ScriptIr.Tree

/-! ## Jumps -/

namespace Scope.Arena

variable {a b : Arena} {k : ScopeId}

namespace Grows

variable {l : ScopeId} {free : Prop}

theorem onBreak (h : a.Grows k free b) (hl : l < a.scopes.size) :
    b.exit? Scope.breakTarget l = a.exit? Scope.breakTarget l := by
  unfold exit?
  rw [h.chain hl, targetAlong_congr fun x hx => ?_]
  have hx := Nat.lt_of_le_of_lt (le_of_mem_chain hx) hl
  exact ⟨h.breakTarget x hx, h.kind x hx⟩

theorem onContinue (h : a.Grows k free b) (hl : l < a.scopes.size) :
    b.exit? Scope.continueTarget l = a.exit? Scope.continueTarget l := by
  unfold exit?
  rw [h.chain hl, targetAlong_congr fun x hx => ?_]
  have hx := Nat.lt_of_le_of_lt (le_of_mem_chain hx) hl
  exact ⟨h.continueTarget x hx, h.kind x hx⟩

end Grows

end Scope.Arena

namespace Lower

def State.breakTo (s : State) (k : ScopeId) : Option BlockId := s.scopes.exit? breakTarget k

/-- Where a jump to the next round goes. -/
def State.continueTo (s : State) (k : ScopeId) : Option BlockId :=
  s.scopes.exit? continueTarget k

/-! ## Inner scopes -/

def Under (s : State) (k l : ScopeId) (t : State) : Prop :=
  ∀ x ∈ t.scopes.chain l, x < s.scopes.scopes.size → x ∈ s.scopes.chain k

/-- Scope `l` was opened after state `s` inside scope `parent`, which is scope `k` or inside it. -/
structure Nested (s : State) (k l parent : ScopeId) (onBreak onContinue : Option BlockId)
    (t : State) : Prop where
  fresh : s.scopes.scopes.size ≤ l
  lt : l < t.scopes.scopes.size
  under : Under s k l t
  parent_lt : parent < l
  parent : (t.scopes.get l).parent = some parent
  kind : (t.scopes.get l).kind = .block
  onBreak : (t.scopes.get l).breakTarget = onBreak
  onContinue : (t.scopes.get l).continueTarget = onContinue

namespace Nested

variable {s t u : State} {k l parent : ScopeId} {onBreak onContinue : Option BlockId}

section

variable (h : Nested s k l parent onBreak onContinue t)
include h

theorem grown {x : ScopeId} {free : Prop}
    (hg : t.scopes.Grows x free u.scopes) : Nested s k l parent onBreak onContinue u where
  fresh := h.fresh
  lt := Nat.lt_of_lt_of_le h.lt hg.size
  under := by
    unfold Under
    rw [hg.chain h.lt]
    exact h.under
  parent_lt := h.parent_lt
  parent := (hg.parent l h.lt).trans h.parent
  kind := (hg.kind l h.lt).trans h.kind
  onBreak := (hg.breakTarget l h.lt).trans h.onBreak
  onContinue := (hg.continueTarget l h.lt).trans h.onContinue

theorem same (hs : u.scopes = t.scopes) :
    Nested s k l parent onBreak onContinue u :=
  h.grown (by rw [hs]; exact .refl t.scopes 0 False)

theorem breakTo :
    t.breakTo l = onBreak.or (t.breakTo parent) := by
  cases hb : onBreak with
  | some block => exact Arena.exit?_here (h.onBreak.trans hb)
  | none => exact Arena.exit?_outer (h.onBreak.trans hb) h.kind h.parent h.parent_lt

theorem continueTo :
    t.continueTo l = onContinue.or (t.continueTo parent) := by
  cases hb : onContinue with
  | some block => exact Arena.exit?_here (h.onContinue.trans hb)
  | none => exact Arena.exit?_outer (h.onContinue.trans hb) h.kind h.parent h.parent_lt

end

end Nested

/-- The targets of the jumps out of a scope are set. -/
structure Retargets (l : ScopeId) (onBreak onContinue : Option BlockId) (s t : State) : Prop where
  module : t.module = s.module
  scopes : s.scopes.Replaced l
    { s.scopes.get l with breakTarget := onBreak, continueTarget := onContinue } t.scopes

namespace Retargets

variable {l : ScopeId} {onBreak onContinue : Option BlockId} {s t : State} {x : Unit}

theorem own (h : Retargets l onBreak onContinue s t) (k : ScopeId) :
    (t.scopes.get k).own? = (s.scopes.get k).own? := by
  by_cases hk : k = l
  · rw [hk, h.scopes.here]
    rfl
  · rw [h.scopes.other k hk]

section

variable (hl : l < s.scopes.scopes.size)
include hl

theorem of_setBreak {target : BlockId} (hrun : modifyScopes (·.setBreakTarget l target) s = .ok x t) :
    Retargets l (some target) (s.scopes.get l).continueTarget s t := by
  cases hrun
  exact ⟨rfl, Arena.replaced_modify hl fun scope => { scope with breakTarget := some target }⟩

theorem of_setContinue {target : BlockId}
    (hrun : modifyScopes (·.setContinueTarget l target) s = .ok x t) :
    Retargets l (s.scopes.get l).breakTarget (some target) s t := by
  cases hrun
  exact ⟨rfl, Arena.replaced_modify hl fun scope => { scope with continueTarget := some target }⟩

theorem of_setTargets {broken next : BlockId} (hrun : setTargets l broken next s = .ok x t) :
    Retargets l (some broken) (some next) s t := by
  cases hrun
  have hfirst := Arena.replaced_modify hl fun scope => { scope with breakTarget := some broken }
  have hsecond := Arena.replaced_modify (hfirst.size.symm ▸ hl) fun scope =>
    { scope with continueTarget := some next }
  refine ⟨rfl, hsecond.size.trans hfirst.size, ?_, fun k hk => ?_⟩
  · exact hsecond.here.trans (by rw [hfirst.here])
  · exact (hsecond.other k hk).trans (hfirst.other k hk)

end

end Retargets

namespace Since

variable {firstId : FuncId} {n : Nat} {B : FunctionSpec} {ctx : Ctx}
  {b c : Nat} {free free' : Prop} {fs gs : List Callable} {s t u : State} {l parent : ScopeId}
  {onBreak onContinue : Option BlockId}

theorem under (h : Since firstId n B ctx b free fs s t) : Under s ctx.scope ctx.scope t := by
  intro x hx _
  rwa [h.grows.scopes.chain h.start.scope] at hx

section

variable (h : Since firstId n B ctx b free fs s t)
include h

theorem breakTo : t.breakTo ctx.scope = s.breakTo ctx.scope := h.grows.scopes.onBreak h.start.scope

theorem continueTo :
    t.continueTo ctx.scope = s.continueTo ctx.scope := h.grows.scopes.onContinue h.start.scope

theorem newScope (hp : Under s ctx.scope parent t)
    (hlt : parent < t.scopes.scopes.size) (hrun : newScope (some parent) .block t = .ok l u) :
    Since firstId n B ctx b free fs s u ∧ Nested s ctx.scope l parent none none u ∧
      u.module = t.module ∧ t.scopes.Grows ctx.scope False u.scopes ∧
      ∀ x, (u.scopes.get l).own? x = none := by
  rw [newScope_eq] at hrun
  cases hrun
  have hget : ((t.scopes.push (some parent) .block).2).get t.scopes.scopes.size =
      { parent := some parent, kind := .block } := by rw [Scope.Arena.get_push, if_pos rfl]
  have hgrows : ∀ free, t.scopes.Grows ctx.scope free (t.scopes.push (some parent) .block).2 :=
    Scope.Arena.grows_push t.scopes .block (fun outer ho => by cases ho; exact hlt) ctx.scope
  have hbodies : ((t.scopes.push (some parent) .block).2).bodies = t.scopes.bodies := by
    unfold Scope.Arena.bodies
    rw [Scope.Arena.size_push, range_succ, filter_append, filter_cons]
    simp only [hget, filter_nil]
    rw [filter_congr fun x hx => by rw [(hgrows True).kind x (mem_range.mp hx)]]
    exact append_nil _
  have hg : t.Grows B ctx.func ctx.scope free b []
      { t with scopes := (t.scopes.push (some parent) .block).2 } := by
    refine .of_module ?_ (hgrows free) (congrArg length hbodies) b
    rfl
  have hsince := h.andThen hg id
  rw [append_nil] at hsince
  refine ⟨hsince, ⟨h.grows.scopes.size, ?_, ?_, hlt, ?_, ?_, ?_, ?_⟩, rfl, hgrows False, ?_⟩
  · show _ < ((t.scopes.push (some parent) .block).2).scopes.size
    rw [Scope.Arena.size_push]
    exact Nat.lt_succ_self _
  · intro x hx hold
    rw [Scope.Arena.chain_inner (p := parent) (by rw [hget]) hlt, (hgrows True).chain hlt] at hx
    rcases mem_cons.mp hx with rfl | hx
    · exact absurd hold (Nat.not_lt.mpr h.grows.scopes.size)
    · exact hp x hx hold
  · exact congrArg Scope.parent hget
  · exact congrArg Scope.kind hget
  · exact congrArg Scope.breakTarget hget
  · exact congrArg Scope.continueTarget hget
  · intro x
    show (((t.scopes.push (some parent) .block).2).get t.scopes.scopes.size).own? x = none
    rw [hget]
    rfl

section

variable (hin : Nested s ctx.scope l parent onBreak onContinue t)
include hin

theorem readyIn (hc : c < t.blockCount ctx.func := by omega) :
    Ready firstId (n + fs.length) (ctx.withScope l) c t :=
  { h.ready hc with scope := hin.lt }

theorem inner (hg : t.Grows B ctx.func l free' c gs u)
    (hc : c = b ∨ s.blockCount ctx.func ≤ c := by omega) :
    Since firstId n B ctx b free (fs ++ gs) s u :=
  ⟨h.start, h.grows.trans hg h.start.func hc hin.under fun _ hl =>
    absurd hl (Nat.not_lt.mpr hin.fresh)⟩

theorem retarget {x y : Option BlockId} (hr : Retargets l x y t u) :
    Since firstId n B ctx b free fs s u ∧ Nested s ctx.scope l parent x y u := by
  have hother : ∀ z < s.scopes.scopes.size, u.scopes.get z = t.scopes.get z := fun z hz =>
    hr.scopes.other z (Nat.ne_of_lt (Nat.lt_of_lt_of_le hz hin.fresh))
  have hparent : ∀ z, (u.scopes.get z).parent = (t.scopes.get z).parent := fun z => by
    by_cases hz : z = l
    · rw [hz, hr.scopes.here]
    · rw [hr.scopes.other z hz]
  have hkind : ∀ z, (u.scopes.get z).kind = (t.scopes.get z).kind := fun z => by
    by_cases hz : z = l
    · rw [hz, hr.scopes.here]
    · rw [hr.scopes.other z hz]
  have hchain : ∀ z, u.scopes.chain z = t.scopes.chain z := fun z =>
    Arena.chain_congr fun y _ => hparent y
  have hbodies : u.scopes.bodies = t.scopes.bodies := by
    unfold Arena.bodies
    rw [hr.scopes.size]
    exact filter_congr fun z _ => by rw [hkind z]
  have hg := h.grows.scopes
  have hscopes : s.scopes.Grows ctx.scope free u.scopes := by
    refine ⟨by rw [hr.scopes.size]; exact hg.size,
      fun hs => (hg.sound hs).replaced hr.scopes rfl ⟨rfl, rfl⟩ fun _ ho => ho, ?_, ?_, ?_, ?_, ?_, ?_, ?_, ?_⟩
    · exact fun z hz => by rw [hother z hz, hg.parent z hz]
    · exact fun z hz => by rw [hother z hz, hg.kind z hz]
    · exact fun z hz => by rw [hother z hz, hg.breakTarget z hz]
    · exact fun z hz => by rw [hother z hz, hg.continueTarget z hz]
    · intro z hz
      have := hg.captures z hz
      unfold Arena.captures at this ⊢
      rwa [hother z hz]
    · intro z hz hnot
      have := hg.closed z hz hnot
      unfold Arena.captures at this ⊢
      rwa [hother z hz]
    · exact fun z hz hne => by rw [hother z hz, hg.own z hz hne]
    · intro z hz name hn
      have := hg.hasLocal z hz name hn
      unfold Arena.hasLocal at this ⊢
      rwa [hother z hz]
  refine ⟨⟨h.start, ?_⟩, ⟨hin.fresh, ?_, ?_, hin.parent_lt, ?_, ?_, ?_, ?_⟩⟩
  · exact h.grows.withScopes hr.module hscopes (congrArg length hbodies)
  · rw [hr.scopes.size]
    exact hin.lt
  · intro z hz
    rw [hchain] at hz
    exact hin.under z hz
  · rw [hparent, hin.parent]
  · rw [hkind, hin.kind]
  · rw [hr.scopes.here]
  · rw [hr.scopes.here]

end

end

end Since

end Lower

end ScriptIr
