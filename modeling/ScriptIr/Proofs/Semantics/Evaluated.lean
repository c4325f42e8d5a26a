import ScriptIr.Proofs.Semantics.Trees

/-!
# Evaluation of compiled expressions

The code of an expression, executed from the end of the block that it was lowered to, comes to the end of
the block that lowering answers. By then it has done what evaluating the expression from left to right
does, and the register that lowering answers holds the value.
-/
namespace ScriptIr.Run

open Code Lower Scope

/-- **Evaluation is kept.** Let an expression be lowered from the end of a block, and let the code of the
finished function hold what was lowered. In every world, a run that comes to the end of that block with
the slots of the names in scope comes to the end of the answered block. Until then it has done exactly
what evaluating the expression does, in the same order, and the answered register holds the value. The
registers that were filled before are as they were. -/
theorem lowered_expression_evaluates {V σ : Type} (S : Setting V σ) (e : Tree.Expression) (ctx : Ctx)
    (b n : Nat) (s t : State) (r : Lowered) (hready : Ready S.firstId n ctx b s)
    (hrun : Lower.expression e ctx b s = .ok r t) :
    ∃ names : InstId → String, ∀ (caps : List Capture) (A : Activation V) (F : Code.Function),
      Within S caps ctx s t names A F → ∀ prev regs w, Sees S caps ctx s regs →
        ∃ prev' regs',
          Reaches S.toWorld A F 0 (.running ⟨b, s.len ctx.func b, prev, regs, w⟩)
            (.running ⟨r.block, t.len ctx.func r.block, prev', regs',
              (evalExpression S.toScene e n w).2⟩) ∧
          regs' r.value = some (evalExpression S.toScene e n w).1 ∧
          ∀ v < s.instCount ctx.func, regs' v = regs v := by
  have p := expression_does e S ctx b n s r t hready hrun
  obtain ⟨names, hruns⟩ := p.runs
  refine ⟨names, fun caps A F hwithin prev regs w hsees => ?_⟩
  obtain ⟨prev', regs', hreach, hkeeps, _, hvalue⟩ :=
    hruns caps A F hwithin (Lower.announced_nil _ _) () prev regs w trivial hsees
  exact ⟨prev', regs', hreach, hvalue, hkeeps⟩

def Action.isEffect {V : Type} : Action V → Bool
  | .load _ | .store .. | .getItem .. | .setItem .. | .delItem .. | .new .. | .call .. | .closure .. =>
    true
  | _ => false

/-- Answers to effects, which depend on the effects up to now, and the other values. -/
structure Oracle (V : Type) where
  answer : List (Action V) → V
  compute : Action V → V
  truthy : V → Bool

def Oracle.world {V : Type} (O : Oracle V) : World V (List (Action V)) where
  act a trace :=
    if a.isEffect then (O.answer (trace ++ [a]), trace ++ [a]) else (O.compute a, trace)
  test v trace := (O.truthy v, trace)

/-- Values are texts. What a slot holds is told by its address, and only a test for null is true. -/
def textOracle : Oracle String where
  answer trace :=
    match trace.getLast? with
    | some (.load a) => "*" ++ a
    | _ => "?"
  compute
    | .global x | .string x => x
    | .binary .equal _ _ => "is null"
    | .binary _ a b => a ++ "+" ++ b
    | .undefined => "undefined"
    | .array vs => String.intercalate "," vs
    | _ => ""
  truthy v := v = "is null"

/-- Every name stands for itself. Nothing is said of closures. -/
def textSetting : Setting String (List (Action String)) where
  toWorld := textOracle.world
  address x := pure x
  closure _ _ := pure ""
  place x _ := x
  firstId := 0
  fits _ _ := False
  closes _ _ _ h := h.elim

def readOnce : Tree.Expression :=
  .assignment (.compound .add) (.member (.identifier { name := "o" }) (.identifier { name := "k" }) false)
    (.logical .nullish (.identifier { name := "a" })
      (.call (.identifier { name := "f" }) [.identifier { name := "b" }]))

def emptyFunction : State where
  module :=
    { name := "m", nextId := 1, functions := #[{ id := 0, name := "f", paramCount := 0, blocks :=
      #[#[]] }] }
  scopes := { scopes := #[{ parent := none, kind := .function }] }

theorem emptyFunction_ready : Ready 0 1 ⟨0, 0⟩ 0 emptyFunction := by
  let s1 : State := ({ module := .empty "m" 0 } : State).addFunction "f" 0
  let s2 : State := { s1 with scopes := emptyFunction.scopes }
  have h1 : Lower.newFunction "f" 0 { module := .empty "m" 0 } = .ok 0 s1 := rfl
  have h2 : Lower.newScope none .function s1 = .ok 0 s2 := rfl
  have h3 : Lower.newBlock ⟨0, 0⟩ s2 = .ok 0 emptyFunction := rfl
  have E : Lower.Enters none ⟨0, 0⟩ { module := .empty "m" 0 } s2 :=
    .of_code (fun _ h => by cases h) h1 h2 (show Lower.naming (Scope.Naming.setParams 0 []) s2 = _ from rfl)
  exact (E.newBlock Scope.Arena.sound_empty rfl rfl rfl h3).1

theorem readOnce_evaluates :
    ∃ (r : Lowered) (t : State) (F : Code.Function) (A : Activation String) (prev : BlockId)
      (regs : Registers String),
      Lower.expression readOnce ⟨0, 0⟩ 0 emptyFunction = .ok r t ∧ t.fn? 0 = some F ∧
      Reaches textOracle.world A F 0 (.running ⟨0, 0, 0, fun _ => none, []⟩)
        (.running ⟨r.block, t.len 0 r.block, prev, regs, [.load "o", .getItem "*o" "k", .load "a",
          .load "f", .load "b", .call "*f" "undefined" "*b", .setItem "*o" "k" "?+?"]⟩) ∧
      regs r.value = some "?+?" := by
  have hok : (match Lower.expression readOnce ⟨0, 0⟩ 0 emptyFunction with
      | .ok _ t => t.fnCount == 1
      | .error .. => false) = true := by decide +kernel
  have heval : (evalExpression textSetting.toScene readOnce 1 []).1 = "?+?" ∧
      (evalExpression textSetting.toScene readOnce 1 []).2 = [.load "o", .getItem "*o" "k", .load "a",
        .load "f", .load "b", .call "*f" "undefined" "*b", .setItem "*o" "k" "?+?"] := by decide +kernel
  split at hok
  · next r t hrun =>
    obtain ⟨names, hruns⟩ := lowered_expression_evaluates textSetting readOnce ⟨0, 0⟩ 0 1 emptyFunction t r
      emptyFunction_ready hrun
    have hcount : t.fnCount = 1 := beq_iff_eq.mp hok
    obtain ⟨F, hF⟩ := State.fn?_isSome (s := t) (f := 0) (by omega)
    have hwithin : Within textSetting (t.scopes.captures 0) ⟨0, 0⟩ emptyFunction t names
        ⟨fun v _ => names v⟩ F :=
      ⟨.of_fn? hF _, fun _ _ _ _ => rfl, List.prefix_rfl, fun g hge hlt => by
        have : emptyFunction.fnCount = 1 := rfl
        omega⟩
    have hsees : Sees textSetting (t.scopes.captures 0) ⟨0, 0⟩ emptyFunction fun _ => none :=
      ⟨fun x v hx => (by cases hx), fun _ _ _ => rfl, fun _ _ _ => rfl, fun _ _ => rfl⟩
    obtain ⟨prev, regs, hreach, hvalue, _⟩ := hruns _ _ F hwithin 0 _ [] hsees
    rw [heval.1] at hvalue
    rw [heval.2] at hreach
    exact ⟨r, t, F, _, prev, regs, hrun, hF, hreach, hvalue⟩
  · cases hok

end ScriptIr.Run
