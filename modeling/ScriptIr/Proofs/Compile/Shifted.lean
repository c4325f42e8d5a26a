import Mathlib.Algebra.Ring.Nat
import ScriptIr.Proofs.Closures.Numbering
import ScriptIr.Proofs.Closures.Shifting
import ScriptIr.Proofs.Compile.Verified

/-!
# Modules that share a counter

Programs that are compiled in turn draw their function ids from one counter. Each of them compiles to
the module that it compiles to alone, with all ids moved on by the number of ids that were drawn
before, or fails with the same error.
-/
namespace ScriptIr

open Lower List

open Code (FuncId Module)

variable {m : Module} {k n : Nat}

/-! ## One program -/

variable (p : Tree.Program) (name : String)

/-- The number of ids that a program draws: one for each function that is opened, also if lowering
fails behind it. -/
def drawnIds : Nat :=
  (endOf (program p { module := .empty name 0 })).fnCount

variable (d : FuncId)

theorem Lower.program_shift : program p { module := .empty name d }
      = shifted d id (program p { module := .empty name 0 }) := by
  have hstart : State.shift d { module := .empty name 0 } = { module := .empty name d } := by
    simp [State.shift, Code.Module.shift, Code.Module.empty]
  rw [← hstart]
  exact shift_program p d _

theorem fnCount_endOf_program :
    (endOf (program p { module := .empty name d })).fnCount = drawnIds p name := by
  rw [program_shift, drawnIds]
  cases program p { module := .empty name 0 } with
  | ok u s | error e s => exact Array.size_map

/-- A program compiles from any first id to the same module, up to the ids, or fails with the same
error. -/
theorem compile_shift : (compile p name d).result = (compile p name 0).result.map (Module.shift d) := by
  have hshift := program_shift p name d
  cases hrun : program p { module := .empty name 0 } with
  | ok u s =>
    rw [hrun] at hshift
    rw [compile_of_ok hrun, compile_of_ok hshift]
    rfl
  | error e s =>
    rw [hrun] at hshift
    rw [compile_of_error hrun, compile_of_error hshift]
    rfl

/-- The counter goes on by the number of ids that were drawn. -/
theorem compile_nextId : (compile p name d).nextId = d + (drawnIds p name).toUInt32 := by
  have hend : (compile p name d).nextId
      = (endOf (program p { module := .empty name d })).module.nextId := by
    unfold compile
    cases program p { module := .empty name d } <;> rfl
  rw [hend, (numbered_program p name d).next, fnCount_endOf_program]

def Code.Module.ids (m : Module) : List FuncId := m.functions.toList.map (·.id)

def idsFrom (firstId : FuncId) (n : Nat) : List FuncId :=
  (range n).map fun k => firstId + k.toUInt32

theorem length_idsFrom (firstId : FuncId) (n : Nat) : (idsFrom firstId n).length = n := by
  simp [idsFrom]

theorem getElem?_idsFrom (firstId : FuncId) (h : k < n) :
    (idsFrom firstId n)[k]? = some (firstId + k.toUInt32) := by
  simp [idsFrom, h]

theorem idsFrom_add (firstId : FuncId) (m n : Nat) :
    idsFrom firstId (m + n) = idsFrom firstId m ++ idsFrom (firstId + m.toUInt32) n := by
  simp [idsFrom, range_add, Function.comp_def, UInt32.add_assoc]

theorem add_toUInt32_inj (firstId : FuncId) {j : Nat} (hj : j < 2 ^ 32) (hk : k < 2 ^ 32) :
    firstId + j.toUInt32 = firstId + k.toUInt32 ↔ j = k := by
  refine ⟨fun h => ?_, fun h => h ▸ rfl⟩
  have hnat : j.toUInt32.toNat = k.toUInt32.toNat :=
    congrArg UInt32.toNat ((UInt32.add_right_inj firstId).mp h)
  rwa [Wire.toNat_toUInt32 hj, Wire.toNat_toUInt32 hk] at hnat

/-- Ids are different until the counter comes around. -/
theorem idsFrom_nodup (firstId : FuncId) (h : n ≤ 2 ^ 32) : (idsFrom firstId n).Nodup := by
  refine Nodup.map_on (fun j hj k hk => ?_) nodup_range
  rw [mem_range] at hj hk
  exact (add_toUInt32_inj firstId (hj.trans_le h) (hk.trans_le h)).mp

theorem ids_of_compile {p : Tree.Program} {name : String} {d : FuncId}
    (h : (compile p name d).result = .ok m) : m.ids = idsFrom d (drawnIds p name) := by
  obtain ⟨s, hs, rfl⟩ := exists_of_compile h
  have hnumbered := numbered_program p name d
  have hcount := fnCount_endOf_program p name d
  rw [hs] at hnumbered hcount
  have hlength : s.module.ids.length = drawnIds p name := by
    rw [← hcount, Module.ids, length_map, Array.length_toList]
    rfl
  refine ext_getElem? fun k => ?_
  by_cases hk : k < drawnIds p name
  · obtain ⟨F, hF⟩ := State.fn?_isSome (hcount.symm ▸ hk)
    have hids : s.module.ids[k]? = (s.fn? k).map (·.id) := by simp [Module.ids, State.fn?]
    rw [getElem?_idsFrom d hk, hids]
    exact (congrArg _ hF).trans (congrArg some (hnumbered.ids k F hF))
  · rw [getElem?_eq_none (by omega), getElem?_eq_none (by rw [length_idsFrom]; omega)]

/-- Closures and callers name functions by their ids. Until the counter comes around, the id of a
function leads back to its position. -/
theorem Lower.Numbered.position?_eq {d : FuncId} {s : State} (h : Numbered d s)
    (hcount : s.fnCount ≤ 2 ^ 32) (hk : k < s.fnCount) :
    s.module.position? (d + k.toUInt32) = some k := by
  have hid (j : Nat) (hj : j < s.module.functions.size) : s.module.functions[j].id = d + j.toUInt32 :=
    h.ids j _ (Array.getElem?_eq_getElem hj)
  refine Array.findIdx?_eq_some_iff_getElem.mpr ⟨hk, beq_iff_eq.mpr (hid k hk), fun j hj heq => hj.ne ?_⟩
  have hsame := (hid j (hj.trans hk)).symm.trans (beq_iff_eq.mp heq)
  exact (add_toUInt32_inj d ((hj.trans hk).trans_le hcount) (hk.trans_le hcount)).mp hsame

theorem position?_of_compile {p : Tree.Program} {name : String} {d : FuncId}
    (h : (compile p name d).result = .ok m) (hcount : m.functions.size ≤ 2 ^ 32)
    (hk : k < m.functions.size) : m.position? (d + k.toUInt32) = some k := by
  obtain ⟨s, hs, rfl⟩ := exists_of_compile h
  have hnumbered := numbered_program p name d
  rw [hs] at hnumbered
  exact hnumbered.position?_eq hcount hk

/-! ## Programs in turn -/

/-- The name of a module, and what was read of its text. -/
structure Input where
  name : String
  program? : Option Tree.Program

namespace Input

def compile (i : Input) : FuncId → Compiled := compileRead i.program? i.name

def drawn (i : Input) : Nat := (i.program?.map (drawnIds · i.name)).getD 0

theorem compile_shift (i : Input) (d : FuncId) :
    (i.compile d).result = (i.compile 0).result.map (Module.shift d) := by
  obtain ⟨name, _ | p⟩ := i
  · rfl
  · exact ScriptIr.compile_shift p name d

theorem compile_nextId (i : Input) (d : FuncId) : (i.compile d).nextId = d + i.drawn.toUInt32 := by
  obtain ⟨name, _ | p⟩ := i
  · exact (UInt32.add_zero d).symm
  · exact ScriptIr.compile_nextId p name d

theorem ids_of_compile {i : Input} {d : FuncId} (h : (i.compile d).result = .ok m) :
    m.ids = idsFrom d i.drawn := by
  obtain ⟨name, _ | p⟩ := i
  · cases h
  · exact ScriptIr.ids_of_compile h

end Input

def compileSeries : FuncId → List Input → List (Except Error Module) × FuncId :=
  compileInTurn Input.compile

def Source.input (s : Source) : Input := ⟨s.name, Tree.readProgram? s.text⟩

theorem compileAll_eq (firstId : FuncId) (sources : List Source) :
    compileAll firstId sources = compileSeries firstId (sources.map Source.input) := by
  induction sources generalizing firstId with
  | nil => rfl
  | cons s sources ih => exact congrArg (fun r => (_ :: r.1, r.2)) (ih _)

/-- The number of ids that several programs draw. -/
def drawnBy (inputs : List Input) : Nat := (inputs.map Input.drawn).sum

theorem getElem?_compileSeries (b : FuncId) (inputs : List Input) (i : Nat) :
    (compileSeries b inputs).1[i]? = inputs[i]?.map fun input =>
      (input.compile 0).result.map (Module.shift (b + (drawnBy (inputs.take i)).toUInt32)) := by
  induction inputs generalizing b i with
  | nil => simp [compileSeries, compileInTurn]
  | cons input inputs ih =>
    cases i with
    | zero =>
      simp [compileSeries, compileInTurn, drawnBy, input.compile_shift b]
    | succ i =>
      refine (ih (input.compile b).nextId i).trans ?_
      rw [input.compile_nextId]
      simp [drawnBy, UInt32.add_assoc]

theorem compileSeries_nextId (b : FuncId) (inputs : List Input) :
    (compileSeries b inputs).2 = b + (drawnBy inputs).toUInt32 := by
  induction inputs generalizing b with
  | nil => simp [compileSeries, compileInTurn, drawnBy]
  | cons input inputs ih =>
    refine (ih (input.compile b).nextId).trans ?_
    rw [input.compile_nextId]
    simp [drawnBy, UInt32.add_assoc]

def idsOf (results : List (Except Error Module)) : List FuncId :=
  results.flatMap fun r => (r.toOption.map Module.ids).getD []

/-- The ids of a series are among those that it drew, in their order. -/
theorem idsOf_compileSeries (b : FuncId) (inputs : List Input) :
    (idsOf (compileSeries b inputs).1).Sublist (idsFrom b (drawnBy inputs)) := by
  induction inputs generalizing b with
  | nil => exact .refl _
  | cons input inputs ih =>
    have hdrawn : drawnBy (input :: inputs) = input.drawn + drawnBy inputs := by simp [drawnBy]
    rw [hdrawn, idsFrom_add]
    refine Sublist.append ?_ (input.compile_nextId b ▸ ih (input.compile b).nextId)
    cases h : (input.compile b).result with
    | error e => exact nil_sublist _
    | ok m =>
      rw [← input.ids_of_compile h]
      exact .refl _

/-- **Modules that share a counter.** Of programs that are compiled in turn, each gives the module that
it gives alone, with all function ids moved on by the number of ids drawn before it, or the same
error. As long as the counter has not come around, no two functions have the same id. -/
theorem series_shifted (b : FuncId) :
    (∀ sources, compileAll b sources = compileSeries b (sources.map Source.input)) ∧
    ∀ inputs : List Input,
      (∀ i : Nat, (compileSeries b inputs).1[i]? = inputs[i]?.map fun input : Input =>
        (input.compile 0).result.map (Module.shift (b + (drawnBy (inputs.take i)).toUInt32))) ∧
      (compileSeries b inputs).2 = b + (drawnBy inputs).toUInt32 ∧
      (drawnBy inputs < 2 ^ 32 → (idsOf (compileSeries b inputs).1).Nodup) :=
  ⟨compileAll_eq b, fun inputs => ⟨getElem?_compileSeries b inputs, compileSeries_nextId b inputs,
    fun h => (idsOf_compileSeries b inputs).nodup (idsFrom_nodup b h.le)⟩⟩

/-- A program that fails in its second function, a text that is not a program, and a program with a
function in a function: `function f() { break; }` and `function g() { return () => this; }`. -/
def failingThenNested : List Input :=
  [⟨"a", some ⟨[.function (.mk (some { name := "f" }) [] [.breaks none none] false false none)]⟩⟩,
    ⟨"b", none⟩,
    ⟨"c", some ⟨[.function (.mk (some { name := "g" }) []
      [.returns (some (.arrow [] (.expression (.this none)) false none))] false false none)]⟩⟩]

theorem failingThenNested_shifted :
    drawnBy failingThenNested = 5 ∧
      idsOf (compileSeries 4294967293 failingThenNested).1 = [4294967295, 0, 1] ∧
      (idsOf (compileSeries 4294967293 failingThenNested).1).Nodup :=
  ⟨by decide +kernel, by decide +kernel,
    ((series_shifted 4294967293).2 failingThenNested).2.2 (by decide +kernel)⟩

end ScriptIr
