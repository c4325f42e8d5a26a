import ScriptIr.Proofs.Semantics.Programs

/-!
# Control flow of compiled code

The code of a function, walked from its first block, does what running the function's statements does,
one after the other and as often as their structure says.
-/
namespace ScriptIr

open Code (FuncId InstId)

/-- **Control flow is kept.** The functions of a compiled program are those of its tree. In whatever way
the world answers and decides conditions, the code of each of them does what running its statements
does: it does the same things in the same order and returns the same value. If a loop has used up a
number of rounds that can be chosen at will, the code has done the same things up to then, and has made
at least that many steps. The names of the slots that the code asks for depend neither on the arguments
nor on the state of the world. -/
theorem compiled_control_flow (p : Tree.Program) (name : String) (firstId : FuncId) (m : Code.Module)
    (h : (compile p name firstId).result = .ok m) (hshape : p.parserShaped = true) :
    m.functions.size = p.callables.length ∧
      ∀ (i : Nat) (c : Tree.Callable), p.callables[i]? = some c →
        ∃ F, m.functions[i]? = some F ∧ ∀ {V σ : Type} (L : Run.Labelled V σ),
          ∃ names : InstId → String, ∀ A : Run.Activation V,
            (∀ v inst, A.slot v inst = L.address (names v)) → ∀ fuel prev regs w,
              Run.Finishes L.toWorld A F fuel ⟨0, 0, prev, regs, w⟩
                (Run.execCallable (L.scene firstId) fuel c (i + 1) w) := by
  obtain ⟨hsize, hbehaves⟩ := Run.compile_behaves h
  refine ⟨hsize, fun i c hc => ?_⟩
  obtain ⟨F, hF, hB⟩ := hbehaves i c hc
  have hshaped : c.Shaped := Tree.Program.shaped_of_mem hshape (List.mem_of_getElem? hc)
  exact ⟨F, hF, fun L => hB hshaped _ _ (L.setting firstId) L.address rfl (L.plain firstId)⟩

/-- A world that takes down what is done, where conditions come out as given in advance. -/
def recording : Run.Labelled String (List (Run.Action String) × List Bool) where
  act a w :=
    match a with
    | .global x => (x, w)
    | .closure kind id _ => ("", w.1 ++ [.closure kind id []], w.2)
    | a => ("", w.1 ++ [a], w.2)
  test _ w := (w.2.headD false, w.1, w.2.tail)
  address x := x
  global _ := rfl
  closed _ _ _ _ := rfl

/-- What running a function does and how it ends, if conditions come out as given. -/
def recorded (fuel n : Nat) (choices : List Bool) (c : Tree.Callable) :
    Run.Outcome String × List (Run.Action String) × List Bool :=
  Run.execCallable (recording.scene 0) fuel c n ([], choices)

/-- A function that goes on with and leaves a loop from inside a choice:
`() => { while (a) { if (b) { continue; } if (c) { break; } d; } e; }`. -/
def leavingLoop : Tree.Program :=
  ⟨[.expression (.arrow [] (.block [.whileLoop (.identifier { name := "a" }) (.block
        [.ifElse (.identifier { name := "b" }) (.block [.continues none none]) none,
          .ifElse (.identifier { name := "c" }) (.block [.breaks none none]) none,
          .expression (.identifier { name := "d" })]),
      .expression (.identifier { name := "e" })]) false none)]⟩

theorem leavingLoop_control_flow :
    ∃ m F, (compile leavingLoop "m" 0).result = .ok m ∧ leavingLoop.parserShaped = true ∧
      m.functions[1]? = some F ∧ ∃ names : InstId → String, ∀ A : Run.Activation String,
        (∀ v inst, A.slot v inst = names v) →
          Run.Reaches recording.toWorld A F 0
            (.running ⟨0, 0, 0, fun _ => none, [], [true, true, true, false, false, true, false, true]⟩)
            (.returned "" (["a", "b", "a", "b", "c", "d", "a", "b", "c", "e"].map .load ++ [.undefined],
              [])) := by
  have hrun : (compile leavingLoop "m" 0).result.toOption.isSome := by decide +kernel
  obtain ⟨m, hm⟩ := Option.isSome_iff_exists.mp hrun
  have hm' := eq_ok_of_mem_toOption hm
  have hshape : leavingLoop.parserShaped = true := by decide +kernel
  have hexec : leavingLoop.callables[1]?.map (recorded 4 2
      [true, true, true, false, false, true, false, true]) =
      some (.returns "", ["a", "b", "a", "b", "c", "d", "a", "b", "c", "e"].map .load ++ [.undefined],
        []) := by
    decide +kernel
  obtain ⟨_, hflow⟩ := compiled_control_flow leavingLoop "m" 0 m hm' hshape
  obtain ⟨c, hc, hexec⟩ := Option.map_eq_some_iff.mp hexec
  obtain ⟨F, hF, hruns⟩ := hflow 1 c hc
  obtain ⟨names, hA⟩ := hruns recording
  refine ⟨m, F, hm', hshape, hF, names, fun A hslots => ?_⟩
  have hfinishes := hA A hslots 4 0 (fun _ => none)
    ([], [true, true, true, false, false, true, false, true])
  change Run.Finishes _ _ _ _ _
    (recorded 4 2 [true, true, true, false, false, true, false, true] c) at hfinishes
  rw [hexec] at hfinishes
  exact hfinishes

end ScriptIr
