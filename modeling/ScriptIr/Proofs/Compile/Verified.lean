import ScriptIr.Proofs.Code.ReadsBack
import ScriptIr.Proofs.Lower.Programs

/-!
# Compiled modules are well formed

Lowering ends every block once and uses only values that are there, so the check at the end of a
compilation finds nothing, and a compiled module can be written to a file. An internal fault is the
answer only to trees of two shapes that no parser makes.

* `Config.verify_eq_ok`: code without open blocks is well formed.
-/
namespace ScriptIr

open Code Lower Layout

namespace Lower

variable {strict : Prop} {c : Config strict}

/-! ## Finished code -/

section Finished

variable {p : Layout} {f : Nat} {F : Function}

section

variable (hF : p.fn? f = some F)
include hF

theorem Layout.inst?_eq (v : InstId) : p.inst? f v = F.insts[v]? := by
  unfold State.inst?
  rw [hF]
  rfl

theorem Layout.endsBlock_eq {v : InstId} {i : Inst}
    (hi : p.inst? f v = some i) : F.endsBlock v = i.isTerminator := by
  rw [inst?_eq hF] at hi
  unfold Function.endsBlock
  rw [hi]
  rfl

theorem Layout.Path.endsBlock_eq_false {k l : Scope.ScopeId}
    {ids : List InstId} (h : p.Path f k ids l) : ∀ v ∈ ids, F.endsBlock v = false := by
  induction h with
  | nil => exact nofun
  | cons hmove _ ih =>
    refine List.forall_mem_cons.mpr ⟨?_, ih⟩
    cases hmove with
    | stay hi hterm _ => rw [endsBlock_eq hF hi, hterm]
    | push hi _ _ _ => rw [endsBlock_eq hF hi]; rfl
    | pop hi _ _ => rw [endsBlock_eq hF hi]; rfl

theorem Layout.Sealed.function {k : Scope.ScopeId} {ids : List InstId}
    (h : p.Sealed f k ids) : F.Sealed ids := by
  obtain ⟨body, last, l, hids, hpath, i, hi, hterm, _⟩ := h
  exact ⟨body, last, hids, (endsBlock_eq hF hi).trans hterm, hpath.endsBlock_eq_false hF⟩

theorem Layout.Refers.function (hplaced : F.Placed) {i : Inst}
    (h : p.Refers f i) : F.Refers i := by
  refine ⟨fun v hv => ?_, fun t ht => ?_⟩
  · obtain ⟨j, hj, hvalue⟩ := h.operands v hv
    rw [inst?_eq hF] at hj
    refine ⟨hplaced.mem_order.mpr (Array.getElem?_eq_some_iff.mp hj).1, ?_⟩
    unfold Function.producesValue
    rw [hj]
    exact hvalue
  · have hlt := h.blocks t ht
    unfold State.blockCount at hlt
    rwa [hF] at hlt

end

end Finished

section

variable (hopen : ∀ f b k, .block f b k ∉ c.tokens)
include hopen

theorem Config.wellFormed {f : Nat} {F : Function} (hF : c.fn? f = some F) :
    F.violation? = none ∧ ∀ id ∈ F.closures, ∃ G ∈ c.module.functions, G.id = id := by
  have hplaced := c.codeOk.placed f F hF
  refine ⟨(Function.violation?_eq_none_iff hplaced).mpr fun ids hids => ⟨?_, ?_⟩, ?_⟩
  · obtain ⟨b, hb⟩ := Array.mem_iff_getElem?.mp hids
    have hblock : c.block? f b = some ids.toList := by
      unfold State.block?
      rw [hF, Option.bind_some, hb]
      rfl
    exact (c.codeOk.finished f b _ hblock (hopen f b)).function hF
  · intro v _ i hi
    exact (c.codeOk.refers f v i ((inst?_eq hF v).trans hi)).function hF hplaced
  · intro id hid
    obtain ⟨v, _, hv⟩ := List.mem_filterMap.mp hid
    obtain ⟨i, hi, hclosure⟩ := Option.bind_eq_some_iff.mp hv
    obtain ⟨g, G, hG, rfl⟩ :=
      (c.codeOk.refers f v i ((inst?_eq hF v).trans hi)).closure id hclosure
    exact ⟨G, Array.mem_of_getElem? hG, rfl⟩

theorem Config.verify_eq_ok : c.module.verify = .ok () := by
  refine (Module.verify_eq_ok_iff c.module).mpr fun F hF => ?_
  obtain ⟨f, hf⟩ := Array.mem_iff_getElem?.mp hF
  exact Config.wellFormed hopen hf

theorem Config.exists_toBytes : ∃ bytes, c.module.toBytes = .ok bytes := by
  have hfs : ∀ F ∈ c.module.functions.toList, F.Placed ∧ F.violation? = none := by
    intro F hF
    obtain ⟨f, hf⟩ := Array.mem_iff_getElem?.mp (Array.mem_toList_iff.mp hF)
    exact ⟨c.codeOk.placed f F hf, (Config.wellFormed hopen hf).1⟩
  obtain ⟨container, pool, _, hadd, _⟩ := Module.addSections_reads c.module.functions.toList
    hfs Wire.Container.empty Wire.StringPool.empty Wire.StringPool.sound_empty
  refine ⟨(container.add .stringPool pool.bytes).toBytes, ?_⟩
  unfold Module.toBytes Module.container
  rw [hadd]
  rfl

end

/-! ## Faults -/

/-- Names may enter scopes at any time, and the faults of the program's expressions are allowed. -/
def faultMode (p : Tree.Program) : Mode where
  strict := False
  allowed e := ∀ fault, e = .internal fault → ∃ e, .expression e ∈ p.nodes ∧ e.fault? = some fault
  external _ h fault he := absurd he (h fault)

theorem faultMode_accepts (p : Tree.Program) : ∀ n ∈ p.nodes, (faultMode p).Accepts n := by
  intro n hn
  cases n with
  | expression e =>
    rintro fault hfault _ ⟨⟩
    exact ⟨e, hn, hfault⟩
  | body s => exact False.elim

end Lower

section Outcome

variable {p : Tree.Program} {name : String} {firstId : FuncId} {s : State}

section

variable (h : program p { module := .empty name firstId } = .ok () s)
include h

theorem Lower.exists_finished :
    ∃ d : Config False, d.toState = s ∧ ∀ f b k, .block f b k ∉ d.tokens := by
  obtain ⟨d, hd, _, htokens⟩ :=
    (program_sat (faultMode_accepts p) name firstId).of_ok h
  refine ⟨d, hd, fun f b k => ?_⟩
  rw [htokens, Multiset.mem_singleton]
  rintro ⟨⟩

/-- The module of a program that is lowered is well formed and can be written. -/
theorem Lower.program_verifies : s.module.verify = .ok () ∧ ∃ bytes, s.module.toBytes = .ok bytes := by
  obtain ⟨d, rfl, hopen⟩ := exists_finished h
  exact ⟨Config.verify_eq_ok hopen, Config.exists_toBytes hopen⟩

theorem compile_of_ok : (compile p name firstId).result = .ok s.module := by
  unfold compile
  rw [h]
  show (do s.module.verify; return s.module) = _
  rw [(program_verifies h).1]
  rfl

end

theorem compile_of_error {e : Error} (h : program p { module := .empty name firstId } = .error e s) :
    (compile p name firstId).result = .error e := by
  unfold compile
  rw [h]

theorem exists_of_compile {m : Module} (h : (compile p name firstId).result = .ok m) :
    ∃ s, program p { module := .empty name firstId } = .ok () s ∧ s.module = m := by
  cases hrun : program p { module := .empty name firstId } with
  | error e s => rw [compile_of_error hrun] at h; cases h
  | ok u s =>
    rw [compile_of_ok hrun] at h
    cases h
    exact ⟨s, rfl, rfl⟩

theorem eq_ok_of_mem_toOption {r : Except Error α} {a : α} (h : a ∈ r.toOption) : r = .ok a := by
  cases r with
  | error e => cases h
  | ok b => cases h; rfl

end Outcome

/-- **Internal faults.** A compilation ends in an internal fault only if the program has an expression
with that fault. So the module that lowering makes always passes the check, and a compiled module can
be written to a file. -/
theorem compile_fault_only_if_misshapen (p : Tree.Program) (name : String) (firstId : FuncId) :
    (∀ fault, (compile p name firstId).result = .error (.internal fault) →
      ∃ e, .expression e ∈ p.nodes ∧ e.fault? = some fault) ∧
    (∀ s, Lower.program p { module := .empty name firstId } = .ok () s →
      s.module.verify = .ok () ∧ (compile p name firstId).result = .ok s.module) ∧
    ∀ m, (compile p name firstId).result = .ok m →
      m.verify = .ok () ∧ ∃ bytes, m.toBytes = .ok bytes := by
  refine ⟨fun fault h => ?_, fun s h => ⟨(Lower.program_verifies h).1, compile_of_ok h⟩,
    fun m h => ?_⟩
  · cases hrun : Lower.program p { module := .empty name firstId } with
    | error e s =>
      rw [compile_of_error hrun] at h
      cases h
      exact (Lower.program_sat (Lower.faultMode_accepts p) name firstId).of_error hrun fault rfl
    | ok u s =>
      rw [compile_of_ok hrun] at h
      cases h
  · obtain ⟨s, hs, rfl⟩ := exists_of_compile h
    exact Lower.program_verifies hs

/-- An expression that no parser makes, in the body of a function. -/
def misshapen : Tree.Program :=
  ⟨[.function (.mk (some { name := "f" }) [] [.returns (some (.sequence []))] false false none)]⟩

theorem misshapen_faults :
    (compile misshapen "m" 0).result = .error (.internal .emptySequence) ∧
      ∃ e, .expression e ∈ misshapen.nodes ∧ e.fault? = some .emptySequence :=
  ⟨by decide +kernel,
    (compile_fault_only_if_misshapen misshapen "m" 0).1 .emptySequence (by decide +kernel)⟩

end ScriptIr
