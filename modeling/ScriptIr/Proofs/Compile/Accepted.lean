import ScriptIr.Proofs.Compile.Verified
import ScriptIr.Proofs.Static.Trees

/-!
# Programs that compile

A program that parsers make compiles if and only if it has only parts that are lowered and its static
semantics are as they should be: no scope has a name twice, no name is used in its own scope before it
is bound, no constant is assigned to, and no jump is outside a loop.

* `Program.Valid`: the static semantics of a program.
* `Program.valid_iff_fine`: in terms of what is found in the program.
-/
namespace ScriptIr

open Code (FuncId)
open Static (Fine)

namespace Tree

/-- Whether an expression has a shape that parsers make. -/
def Node.faultless : Node → Bool
  | .expression e => e.fault?.isNone
  | .body _ => true

/-- Whether all expressions of a program have shapes that parsers make. -/
def Program.faultless (p : Program) : Bool := p.nodes.all Node.faultless

/-- Programs that break no rule. -/
structure Program.Valid (p : Program) : Prop where
  /-- All parts are lowered. -/
  supported : ∀ e, .refused e ∉ p.findings
  /-- No scope has a name twice. -/
  distinct : ∀ names, .scope names ∈ p.findings → names.Nodup
  /-- No name is read or written in its own scope before it is bound. -/
  bound : ∀ name write pending constant, .use name write pending constant ∈ p.findings → pending = false
  /-- No constant is written. -/
  assignable : ∀ name pending constant, .use name true pending constant ∈ p.findings → constant = false
  /-- No jump is outside a loop. -/
  inLoop : ∀ inLoop, .jump inLoop ∈ p.findings → inLoop = true

theorem Program.valid_iff_fine (p : Program) : p.Valid ↔ Fine p.findings := by
  constructor
  · intro h f hf
    cases f with
    | scope names => exact h.distinct names hf
    | jump inLoop => exact h.inLoop inLoop hf
    | refused e => exact absurd hf (h.supported e)
    | use name write pending constant =>
      refine ⟨h.bound name write pending constant hf, ?_⟩
      cases write with
      | false => rfl
      | true => exact h.assignable name pending constant hf
  · intro h
    exact ⟨fun e he => h _ he, fun names hn => h _ hn, fun _ _ _ _ hu => (h _ hu).1,
      fun _ _ _ hu => (h _ hu).2, fun _ hj => h _ hj⟩

end Tree

theorem Lower.program_leads {p : Tree.Program} (h : p.parserShaped = true) :
    Static.Leads (· = Scope.Arena.empty) p.findings (Lower.program p) fun _ _ => True := by
  have hshaped : Static.Shaped (Tree.statementsNodes p.body) := List.all_eq_true.mp h
  refine .quiet_bind .newFunction fun func => ?_
  have hscope : Static.Leads (· = Scope.Arena.empty) [] (Lower.newScope none .function) fun m a =>
      Scope.Arena.Opens .empty m (none, .function, none, none) {} [] [] a := by
    intro s hs
    have hempty : s.scopes = .empty := hs
    refine ⟨Static.fine_nil, ?_⟩
    show Scope.Arena.Opens .empty (s.scopes.push none .function).1 _ _ _ _ (s.scopes.push none .function).2
    rw [hempty]
    exact Scope.Arena.opens_first
  refine .bind_nil hscope fun m => .step .newBlock fun entry => ?_
  exact (Static.statementBody_checks (Static.hoisted_check false p.body hshaped)
    (Static.inPlace_check false p.body hshaped) ⟨func, m⟩ entry _ {} [] none).conseq (fun _ h => h)
    fun _ _ _ => trivial

/-- **Static semantics.** A program of a shape that parsers make compiles if and only if all its parts
are lowered, no scope has a name twice, no name is used in its own scope before it is bound, no constant
is written and no jump is outside a loop. -/
theorem compiles_iff_valid (p : Tree.Program) (name : String) (firstId : FuncId)
    (hshape : p.parserShaped = true) (hfaultless : p.faultless = true) :
    (∃ m, (compile p name firstId).result = .ok m) ↔ p.Valid := by
  have hleads := Lower.program_leads hshape { module := .empty name firstId } rfl
  rw [p.valid_iff_fine]
  cases hrun : Lower.program p { module := .empty name firstId } with
  | ok u s =>
    rw [hrun] at hleads
    exact ⟨fun _ => hleads.1, fun _ => ⟨s.module, compile_of_ok hrun⟩⟩
  | error e s =>
    rw [hrun] at hleads
    refine ⟨fun ⟨m, hm⟩ => ?_, fun hfine => ?_⟩
    · rw [compile_of_error hrun] at hm
      cases hm
    · rcases hleads with ⟨fault, rfl⟩ | hne
      · obtain ⟨e, he, hfault⟩ :=
          (Lower.program_sat (Lower.faultMode_accepts p) name firstId).of_error hrun fault rfl
        have hnone := List.all_eq_true.mp hfaultless _ he
        rw [Tree.Node.faultless, hfault] at hnone
        cases hnone
      · exact absurd hfine hne

/-- Names that hide others, a name that an inner function uses before it is bound, a loop with a constant
in its head and jumps: `function f(a, ...r) { const g = () => x; let x = a; for (const i = x; i; ) {
let a = i; { const a = x; break; } } for (let k of r) { k = a; continue; } }`. -/
def hidingNames : Tree.Program :=
  ⟨[.function (.mk (some { name := "f" })
    [.identifier { name := "a" }, .rest (.identifier { name := "r" }) none]
    [.declaration (.mk .constant [.mk (.identifier { name := "g" })
        (some (.arrow [] (.expression (.identifier { name := "x" })) false none))] none),
      .declaration (.mk .blockWide [.mk (.identifier { name := "x" })
        (some (.identifier { name := "a" }))] none),
      .forLoop (some (.declaration (.mk .constant
          [.mk (.identifier { name := "i" }) (some (.identifier { name := "x" }))] none)))
        (some (.identifier { name := "i" })) none
        (.block [.declaration (.mk .blockWide [.mk (.identifier { name := "a" })
            (some (.identifier { name := "i" }))] none),
          .block [.declaration (.mk .constant [.mk (.identifier { name := "a" })
            (some (.identifier { name := "x" }))] none), .breaks none none]]),
      .forOf (.declaration (.mk .blockWide [.mk (.identifier { name := "k" }) none] none))
        (.identifier { name := "r" })
        (.block [.expression (.assignment .assign (.identifier { name := "k" })
          (.identifier { name := "a" })), .continues none none]) false none]
    false false none)]⟩

theorem hidingNames_valid :
    hidingNames.parserShaped = true ∧ hidingNames.faultless = true ∧ hidingNames.Valid := by
  have hshape : hidingNames.parserShaped = true := by decide +kernel
  have hfaultless : hidingNames.faultless = true := by decide +kernel
  have hrun : ∃ m ∈ (compile hidingNames "m" 0).result.toOption, m.functions.size = 3 := by
    decide +kernel
  obtain ⟨m, hm, _⟩ := hrun
  exact ⟨hshape, hfaultless, (compiles_iff_valid hidingNames "m" 0 hshape hfaultless).mp
    ⟨m, eq_ok_of_mem_toOption hm⟩⟩

end ScriptIr
