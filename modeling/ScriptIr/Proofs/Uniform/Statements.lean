import Mathlib.Data.List.Forall2
import ScriptIr.Proofs.Uniform.Expressions

/-!
# Patterns and statements in a calculus of computations

Patterns, and the statements that open no scope, are put together from their parts as expressions are.

* `Calculus.Bind`: what a pattern stands for (`bind_bindArray`, `bind_bindObject`, `bind_bindDefault`).
* `code_ifCode`, `code_bareCode`, `code_statementBody`: statements and bodies.
-/
namespace ScriptIr.Lower

open Code (BlockId InstId)

namespace Calculus

variable {K : Calculus} {i : K.Site} {f f₁ f₂ f₃ : K.Site → List K.Grade} {c c' test test' : ExprCode}
  {block : BlockId} {value : InstId}

/-! ## Patterns -/

def Bind (K : Calculus) (f : K.Site → List K.Grade) (b b' : BindCode) : Prop :=
  ∀ i block value constant, K.holds i (f i) (b (K.ctx i) block value constant)
    (b' (K.ctx i) block value constant)

/-- An element of an array pattern. A rest element is not lowered. -/
inductive ElementBindHolds (K : Calculus) : (K.Site → List K.Grade) → ElementBind → ElementBind → Prop where
  | hole : ElementBindHolds K (fun _ => []) .hole .hole
  | item {f : K.Site → List K.Grade} {b b' : BindCode} (h : K.Bind f b b') :
    ElementBindHolds K f (.item b) (.item b')
  | rest (f : K.Site → List K.Grade) (loc : Option Location) : ElementBindHolds K f (.rest loc) (.rest loc)

theorem bind_bindArray (hK : K.Lax) {elements elements' : List ElementBind}
    (h : Listed K K.ElementBindHolds f elements elements') :
    K.Bind f (bindArray elements) (bindArray elements') := by
  intro i block value constant
  show K.holds i (f i) (bindElements (K.ctx i) value constant block 0 elements)
    (bindElements (K.ctx i) value constant block 0 elements')
  generalize 0 = index
  induction h generalizing block index with
  | nil => exact K.plain (.pure _)
  | cons he _ ih =>
    cases he with
    | hole => exact ih block (index + 1)
    | item hb =>
      exact step .emitNumber fun _ => step (.emit rfl) fun _ => K.bind (hb i _ _ _) fun _ => ih _ _
    | rest loc => exact K.throw (hK ..)

theorem bind_bindObject {members members' : List (Except Error String × BindCode)}
    (h : Listed K (Keyed K K.Bind) f members members') :
    K.Bind f (bindObject members) (bindObject members') := by
  intro i block value constant
  show K.holds i (f i) (bindMembers (K.ctx i) value constant block members)
    (bindMembers (K.ctx i) value constant block members')
  induction h generalizing block with
  | nil => exact K.plain (.pure _)
  | @cons _ _ m m' _ _ hm _ ih =>
    obtain ⟨name, b⟩ := m
    obtain ⟨name', b'⟩ := m'
    obtain rfl : name' = name := hm.key
    exact ofExcept (fun e he => K.fails_append (hm.fails e he i) _) fun name hname =>
      step .getNamed fun _ => K.bind (hm.code name hname i _ _ _) fun _ => ih _

theorem defaultCode (h : K.Code f c c') :
    K.holds i (f i) (defaultCode c (K.ctx i) block value) (defaultCode c' (K.ctx i) block value) :=
  step .newBlock fun _ => step .newBlock fun _ => step (.emit rfl) fun _ => step (.emit rfl) fun _ =>
    step (.perform rfl) fun _ => done (h i _) fun _ => .bind .jump fun _ => .bind (.emit rfl) fun _ => .pure _

theorem bind_bindDefault {b b' : BindCode} (hd : K.Code f₁ c c') (hb : K.Bind f₂ b b') :
    K.Bind (fun i => f₁ i ++ f₂ i) (bindDefault b c) (bindDefault b' c') :=
  fun i _ _ _ => K.bind (defaultCode hd) fun _ => hb i _ _ _

/-- A piece that may be missing, as its counterpart is then. -/
inductive Perhaps (K : Calculus) (holds : (K.Site → List K.Grade) → β → β → Prop) :
    (K.Site → List K.Grade) → Option β → Option β → Prop where
  | none : Perhaps K holds (fun _ => []) none none
  | some {f : K.Site → List K.Grade} {b b' : β} (h : holds f b b') : Perhaps K holds f (some b) (some b')

theorem code_initCode {init init' : Option ExprCode} (h : Perhaps K K.Code f init init') :
    K.Code f (initCode init) (initCode init') := by
  cases h with
  | none => exact code_instCode rfl
  | some h => exact h

/-- The bindings of a declaration: of each, its initial value and then its pattern. -/
inductive Binders (K : Calculus) : (K.Site → List K.Grade) → List Binder → List Binder → Prop where
  | nil : Binders K (fun _ => []) [] []
  | cons {f₁ f₂ f₃ : K.Site → List K.Grade} {c c' : Option ExprCode} {b b' : BindCode} {bs bs' : List Binder}
    (init : Perhaps K K.Code f₁ c c') (bind : K.Bind f₂ b b') (rest : Binders K f₃ bs bs') :
    Binders K (fun i => f₁ i ++ (f₂ i ++ f₃ i)) (⟨c, b⟩ :: bs) (⟨c', b'⟩ :: bs')

theorem bindAll {binders binders' : List Binder} (h : K.Binders f binders binders') (constant : Bool) :
    K.holds i (f i) (bindAll (K.ctx i) constant block binders)
      (bindAll (K.ctx i) constant block binders') := by
  induction h generalizing block with
  | nil => exact K.plain (.pure _)
  | cons hinit hbind _ ih =>
    exact K.bind (code_initCode hinit i block) fun _ => K.bind (hbind i _ _ _) fun _ => ih

/-! ## Statements -/

theorem runAll {codes codes' : List StmtCode} (h : Listed K K.Code f codes codes') :
    K.holds i (f i) (runAll (K.ctx i) block codes) (runAll (K.ctx i) block codes') := by
  induction h generalizing block with
  | nil => exact K.plain (.pure _)
  | cons hcode _ ih => exact K.bind (hcode i block) fun _ => ih

theorem code_expressionCode (h : K.Code f c c') : K.Code f (expressionCode c) (expressionCode c') :=
  fun i block => done (h i block) fun _ => .pure _

theorem code_expressionBody (h : K.Code f c c') : K.Code f (expressionBody c) (expressionBody c') :=
  fun i block => done (h i block) fun _ => .perform rfl

theorem code_statementBody {c c' : StmtCode} (h : K.Code f c c') :
    K.Code f (statementBody c) (statementBody c') := fun i block => done (h i block) fun _ => .returnUndefined

theorem code_ifCode {a a' : StmtCode} {b b' : Option StmtCode} (ht : K.Code f₁ test test')
    (ha : K.Code f₂ a a') (hb : Perhaps K K.Code f₃ b b') :
    K.Code (fun i => f₁ i ++ (f₂ i ++ f₃ i)) (ifCode test a b) (ifCode test' a' b') := by
  refine fun i block => K.bind (ht i block) fun _ => step .newBlock fun _ => step .newBlock fun _ => ?_
  cases hb with
  | none =>
    rw [List.append_nil]
    exact step (.perform rfl) fun _ => done (ha i _) fun _ => .bind .jump fun _ => .pure _
  | some hb =>
    exact step .newBlock fun _ => step (.perform rfl) fun _ => K.bind (ha i _) fun _ => step .jump fun _ =>
      done (hb i _) fun _ => .bind .jump fun _ => .pure _

theorem code_bareCode {kind : Tree.BareStatement} {loc : Option Location}
    (hfails : ∀ construct, bareConstruct? kind = some construct → ∀ i,
      K.Fails (f i) (.unsupported construct loc) (.unsupported construct loc))
    (hnone : bareConstruct? kind = none → ∀ i, f i = []) :
    K.Code f (bareCode kind loc) (bareCode kind loc) := by
  intro i block
  unfold bareCode
  cases hkind : bareConstruct? kind with
  | some construct => exact K.throw (hfails construct hkind i)
  | none =>
    rw [hnone hkind i]
    dsimp only
    split
    · exact K.plain (.bind (.perform rfl) fun _ => .pure _)
    · exact K.plain (.pure _)

/-! ## Parts of loops -/

theorem code_expressionHead (h : K.Code f c c') : K.Code f (expressionHead c) (expressionHead c') :=
  fun i block => done (h i block) fun _ => .pure _

theorem forTest {t t' : Option ExprCode} {round exit : BlockId} (h : Perhaps K K.Code f t t') :
    K.holds i (f i) (forTest t (K.ctx i) block round exit) (forTest t' (K.ctx i) block round exit) := by
  cases h with
  | none => exact K.plain .jump
  | some h => exact done (h i _) fun _ => .perform rfl

theorem updatePart {u u' : Option ExprCode} (h : Perhaps K K.Code f u u') :
    K.holds i (f i) (updatePart u (K.ctx i) block) (updatePart u' (K.ctx i) block) := by
  cases h with
  | none => exact K.plain (.pure _)
  | some h => exact done (h i _) fun _ => .pure _

/-- A variable of a loop and its counterpart are found and declared alike. -/
structure Copied (K : Calculus) (i : K.Site) (v v' : LoopVariable) : Prop where
  lookup : K.holds i [] (naming (.lookup (K.ctx i).scope v.name false true))
    (naming (.lookup (K.ctx i).scope v'.name false true))
  lost : K.Fails [] (.internal (.lostLoopVariable v.name)) (.internal (.lostLoopVariable v'.name))
  declare : ∀ slot, K.holds i [] (naming (.declare (K.ctx i).scope v.name (some slot) v.constant))
    (naming (.declare (K.ctx i).scope v'.name (some slot) v'.constant))

theorem copyIn {v v' : LoopVariable} (h : Copied K i v v') :
    K.holds i [] (copyIn (K.ctx i) block v) (copyIn (K.ctx i) block v') := by
  refine K.bind h.lookup fun found => ?_
  cases found with
  | none => exact K.throw h.lost
  | some r =>
    exact step .slotAddress fun _ => step (.emit rfl) fun _ => step (.emit rfl) fun _ =>
      step (.perform rfl) fun _ => done (done (h.declare _) fun _ => .pure _) fun _ => .pure _

theorem copyAllIn {vars vars' : List LoopVariable} (h : List.Forall₂ (Copied K i) vars vars') :
    K.holds i [] (copyAllIn (K.ctx i) block vars) (copyAllIn (K.ctx i) block vars') := by
  induction h with
  | nil => exact K.plain (.pure _)
  | cons hv _ ih => exact K.bind (copyIn hv) fun _ => done ih fun _ => .pure _

/-- What receives the elements of a loop, and its counterpart. -/
def Receives (K : Calculus) (f : K.Site → List K.Grade) (t t' : ElementCode) : Prop :=
  ∀ i block element, K.holds i (f i) (t (K.ctx i) block element) (t' (K.ctx i) block element)

end Calculus

end ScriptIr.Lower
