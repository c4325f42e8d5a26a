import ScriptIr.Proofs.Compile.Verified
import ScriptIr.Proofs.Renaming.Programs
import Mathlib.Logic.Equiv.Basic

/-!
# Local names do not matter

A program in which local names are exchanged for others compiles to the same module, or fails with
the same error up to the name it reports.
-/
namespace ScriptIr

open ScriptIr.Tree

theorem Lower.start_rename (r : String → String) (name : String) (firstId : Code.FuncId) :
    Lower.State.rename r { module := .empty name firstId } = { module := .empty name firstId } := by
  simp [Lower.State.rename, Scope.Arena.rename, Scope.Arena.empty]

/-- **Erasure of local names.** A renaming may not touch the names that the program does not declare,
nor those of its functions, which the module keeps, nor `arguments`, which every function declares.
Under such a renaming the program compiles to the very same module, or both programs fail and the name
in the error is renamed. -/
theorem compile_rename (p : Program) (name : String) (firstId : Code.FuncId) (r : Equiv.Perm String)
    (harg : r "arguments" = "arguments") (hfree : ∀ x ∈ p.freeNames, r x = x)
    (hfunctions : ∀ x ∈ p.functionNames, r x = x) :
    (compile (p.rename r) name firstId).result
        = (compile p name firstId).result.mapError (Error.rename r) ∧
      (compile (p.rename r) name firstId).nextId = (compile p name firstId).nextId := by
  have himage := (Lower.program_steady p hfree ⟨harg, hfunctions⟩).image
    { module := .empty name firstId } trivial
  rw [Lower.start_rename] at himage
  cases hrun : Lower.program p { module := .empty name firstId } with
  | error e s =>
    rw [hrun] at himage
    refine ⟨?_, by unfold compile; rw [himage, hrun]; rfl⟩
    rw [compile_of_error himage, compile_of_error hrun]
    rfl
  | ok u s =>
    rw [hrun] at himage
    refine ⟨?_, by unfold compile; rw [himage, hrun]; rfl⟩
    rw [compile_of_ok himage, compile_of_ok hrun]
    rfl

/-- A loop whose body makes closures over the loop variable:
`function collect(into) { for (let i = start; i < into.length; i++) into.push(() => i); }`. -/
def closuresInLoop : Program :=
  let name (n : String) : Expression := .identifier { name := n }
  let member (o : String) (key : String) : Expression := .member (name o) (name key) false none
  ⟨[.function (.mk (some { name := "collect" }) [.identifier { name := "into" }]
    [.forLoop
      (some (.declaration (.mk .blockWide [.mk (.identifier { name := "i" }) (some (name "start"))] none)))
      (some (.binary .less (name "i") (member "into" "length")))
      (some (.update .increment false (name "i")))
      (.expression (.call (member "into" "push") [.arrow [] (.expression (name "i")) false none]))]
    false false none)]⟩

/-- The loop variable and the parameter can change their names, but not the global `start`. -/
theorem closuresInLoop_rename :
    closuresInLoop.freeNames = ["start"] ∧ closuresInLoop.functionNames = ["collect"] ∧
      (compile closuresInLoop "m" 0).result.toOption.isSome ∧
      (compile (closuresInLoop.rename (Equiv.swap "i" "into")) "m" 0).result
        = (compile closuresInLoop "m" 0).result.mapError (Error.rename (Equiv.swap "i" "into")) :=
  ⟨by decide +kernel, by decide +kernel, by decide +kernel,
    (compile_rename closuresInLoop "m" 0 (Equiv.swap "i" "into") (by decide) (by decide +kernel)
      (by decide +kernel)).1⟩

end ScriptIr
