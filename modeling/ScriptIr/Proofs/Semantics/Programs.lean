import ScriptIr.Proofs.Compile.Verified
import ScriptIr.Proofs.Semantics.Trees

/-!
# What programs do

The functions of a compiled module are those of the program, in the order of their numbers, and each of
them does what its tree says.

* `Labelled`: worlds in which names have addresses, `choosing`: the one that only makes choices.
-/
namespace ScriptIr.Run

open Code Lower ScriptIr.Tree

variable {firstId : FuncId} {p : Program} {name : String}

/-- A world in which names have addresses and closures do not depend on what they capture. -/
structure Labelled (V σ : Type) extends World V σ where
  address : String → V
  global : ∀ x, act (.global x) = fun w => (address x, w)
  closed : ∀ kind id vs ws, act (.closure kind id vs) = act (.closure kind id ws)

namespace Labelled

variable {V σ : Type} (L : Labelled V σ)

/-- Names have their addresses, and the function with number 0 has the id `firstId`. -/
def scene (firstId : FuncId) : Scene V σ where
  toWorld := L.toWorld
  address x := pure (L.address x)
  closure n kind := L.act (.closure kind (firstId + n.toUInt32) [])

theorem addresses_eq (firstId : FuncId) (names : List String) :
    (L.scene firstId).addresses names = pure (names.map L.address) := by
  induction names with
  | nil => rfl
  | cons x names ih => rw [Scene.addresses, ih]; rfl

/-- Slots have the addresses of the names that they are made for. -/
def setting (firstId : FuncId) : Setting V σ where
  toScene := L.scene firstId
  place x _ := L.address x
  firstId := firstId
  fits _ _ := True
  closes n names kind _ := by
    rw [addresses_eq]
    exact L.closed kind _ [] (names.map L.address)

theorem plain (firstId : FuncId) : Plain (L.setting firstId) L.address where
  address _ := rfl
  global x := L.global x
  place _ _ := rfl
  fits _ _ := trivial

end Labelled

/-- Nothing is told apart, and the outcomes of conditions are given in advance. -/
def choosing : Labelled Unit (List Bool) where
  act _ w := ((), w)
  test _ w := (w.headD false, w.tail)
  address _ := ()
  global _ := rfl
  closed _ _ _ _ := rfl

/-- The functions that lowering a program makes do what their trees say. -/
theorem program_does {x : Unit} {t : State}
    (hrun : Lower.program p { module := .empty name firstId } = .ok x t) :
    t.fnCount = p.callables.length ∧ ∀ i c, p.callables[i]? = some c →
      ∃ F, t.fn? i = some F ∧ Behaves firstId i F c := by
  simp only [Lower.program, Lower.run_bind_iff] at hrun
  obtain ⟨f, s1, h1, l, s2, h2, entry, s3, h3, h4⟩ := hrun
  have hparams : Lower.naming (Scope.Naming.setParams l []) s2 = .ok () s2 := rfl
  have E : Lower.Enters none ⟨f, l⟩ { module := .empty name firstId } s2 :=
    .of_code (fun _ h => by cases h) h1 h2 hparams
  have hid : (Code.Module.empty name firstId).nextId = firstId + (0 : Nat).toUInt32 := by
    simp [Code.Module.empty]
  obtain ⟨r3, a3, rfl, _⟩ := E.newBlock Scope.Arena.sound_empty rfl rfl hid h3
  have hs3 : s3.scopes = s2.scopes := Lower.Plain.newBlock.scopes_eq h3
  have hflow : ∀ {V σ : Type} (S : Setting V σ), S.firstId = (choosing.setting firstId).firstId →
      BodyFlow S (Behaves (choosing.setting firstId).firstId) ⟨f, l⟩ 0 p.main.Shaped s3 t
        (fun fuel => execCallable S.toScene fuel p.main (0 + 1))
        (Tree.hoistedFunctions p.body ++ Tree.inPlaceFunctions p.body) := fun S hS => by
    have hitems := items_does p.body S fun h : p.main.Shaped => h
    rw [← hS]
    exact statementBody_does hitems.list ⟨f, l⟩ 0 1 s3 x t (hS ▸ r3) h4
  obtain ⟨hg, F, hF, hB⟩ := behaves_of_flow E rfl a3 hs3 hflow
  have hf : f = 0 := E.func
  have hone : s2.fnCount = 1 := E.count
  refine ⟨by rw [hg.count, hone, Nat.add_comm]; rfl, fun i c hc => ?_⟩
  cases i with
  | zero =>
    cases hc
    exact ⟨F, hf ▸ hF, hf ▸ hB⟩
  | succ i =>
    obtain ⟨G, hG, hBG⟩ := hg.made i c hc
    rw [hone, Nat.add_comm] at hG hBG
    exact ⟨G, hG, hBG⟩

theorem compile_behaves {m : Code.Module} (h : (compile p name firstId).result = .ok m) :
    m.functions.size = p.callables.length ∧ ∀ i c, p.callables[i]? = some c →
      ∃ F, m.functions[i]? = some F ∧ Behaves firstId i F c := by
  obtain ⟨s, hrun, rfl⟩ := exists_of_compile h
  exact program_does hrun

end ScriptIr.Run
