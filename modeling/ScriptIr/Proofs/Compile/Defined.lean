import Mathlib.Data.Fintype.EquivFin
import ScriptIr.Proofs.Semantics.Programs

/-!
# Definitions before uses

A run that takes a given path and never gets stuck has executed everything that it reads. Since the code
of a function runs on whatever the outcomes of its conditions, all its paths are such runs.
-/
namespace ScriptIr

open Code List Option

/-! ## Paths -/

/-- A path from the first block leads to the instruction at a position of a block, which was entered from
another block unless it is the start. The instructions `done` have been executed on it, the latest
first. -/
inductive Code.Function.Walk (F : Code.Function) :
    (entered : Option BlockId) → (block : BlockId) → (index : Nat) → (done : List InstId) → Prop where
  | start : F.Walk none 0 0 []
  | onward {entered block index done v i} : F.Walk entered block index done →
    Run.fetch? F block index = some (v, i) → i.isTerminator = false →
    F.Walk entered block (index + 1) (v :: done)
  | goto {entered block index done v i target} : F.Walk entered block index done →
    Run.fetch? F block index = some (v, i) → target ∈ i.successors →
    F.Walk (some block) target 0 (v :: done)

namespace Run

variable {V σ : Type} {W : World V σ} {A : Activation V} {F : Code.Function} {p : Point V σ}
  {regs : Registers V} {prev : BlockId} {v : InstId} {i : Inst} {eff : Effect V}

/-! ## Runs that go on -/

/-- A function that finishes in any number of rounds is never stuck. -/
theorem Finishes.isSome_after? {r : Nat → Outcome V × σ} (h : ∀ fuel, Finishes W A F fuel p (r fuel))
    (n : Nat) : (after? W A F n (.running p)).isSome := by
  have hlong : ∃ k st, n ≤ k ∧ after? W A F k (.running p) = some st := by
    have hn := h n
    generalize r n = out at hn
    obtain ⟨o, w⟩ := out
    cases o with
    | returns v =>
      obtain ⟨k, _, hk⟩ := hn
      exact ⟨k + n, _, Nat.le_add_left n k, by rw [after?_add, hk]; exact after?_returned n v w⟩
    | unfinished =>
      obtain ⟨st, ⟨k, hk, hst⟩, _⟩ := hn
      exact ⟨k, st, hk, hst⟩
    | normal | breaks | continues => exact hn.elim
  obtain ⟨k, st, hle, hk⟩ := hlong
  obtain ⟨m, rfl⟩ := Nat.exists_eq_add_of_le hle
  rw [after?_add] at hk
  cases hafter : after? W A F n (.running p) with
  | some st => rfl
  | none =>
    rw [hafter] at hk
    cases hk

/-! ## What an instruction reads -/

theorem Registers.isSome_of_read? {vs : List InstId} {as : List V} (h : regs.read? vs = some as) :
    ∀ x ∈ vs, (regs x).isSome := by
  induction vs generalizing as with
  | nil => exact nofun
  | cons v vs ih =>
    simp only [read?, bind_eq_bind, bind_eq_some_iff] at h
    obtain ⟨a, ha, bs, hbs, _⟩ := h
    exact forall_mem_cons.mpr ⟨by rw [ha]; rfl, ih hbs⟩

theorem Registers.isSome_of_readProps? {props : List (InstId × InstId)} {as : List (V × V)}
    (h : regs.readProps? props = some as) : ∀ e ∈ props, (regs e.1).isSome ∧ (regs e.2).isSome := by
  induction props generalizing as with
  | nil => exact nofun
  | cons e props ih =>
    obtain ⟨k, v⟩ := e
    simp only [readProps?, bind_eq_bind, bind_eq_some_iff] at h
    obtain ⟨a, ha, b, hb, bs, hbs, _⟩ := h
    exact forall_mem_cons.mpr ⟨⟨by rw [ha]; rfl, by rw [hb]; rfl⟩, ih hbs⟩

/-- What an instruction reads has been executed. -/
theorem isSome_of_effect? (h : effect? A prev regs v i = some eff)
    (hphi : ∀ incoming, i ≠ .phi incoming) : ∀ x ∈ i.operands, (regs x).isSome := by
  cases i with
  | phi incoming => exact absurd rfl (hphi incoming)
  | ret _ | jump _ | branch _ _ _ => cases h
  | undefined | null | boolean _ | number _ | string _ | regex _ | getGlobal _ | popScope _ | alloca
  | arg _ | capture _ | this | arguments | debugger => exact nofun
  | load x | unary _ x | move x =>
    obtain ⟨a, ha, _⟩ := bind_eq_some_iff.mp h
    exact forall_mem_singleton.mpr (isSome_of_eq_some ha)
  | store x y | getItem x y | delItem x y | new x y | binary _ x y =>
    obtain ⟨a, ha, h⟩ := bind_eq_some_iff.mp h
    obtain ⟨b, hb, _⟩ := bind_eq_some_iff.mp h
    exact forall_mem_cons.mpr ⟨isSome_of_eq_some ha,
      forall_mem_singleton.mpr (isSome_of_eq_some hb)⟩
  | setItem x y z | call x y z =>
    obtain ⟨a, ha, h⟩ := bind_eq_some_iff.mp h
    obtain ⟨b, hb, h⟩ := bind_eq_some_iff.mp h
    obtain ⟨c, hc, _⟩ := bind_eq_some_iff.mp h
    exact forall_mem_cons.mpr ⟨isSome_of_eq_some ha, forall_mem_cons.mpr
      ⟨isSome_of_eq_some hb, forall_mem_singleton.mpr (isSome_of_eq_some hc)⟩⟩
  | object props =>
    obtain ⟨as, has, _⟩ := bind_eq_some_iff.mp h
    rw [Inst.operands_object]
    intro x hx
    obtain ⟨e, he, hx⟩ := mem_flatMap.mp hx
    have hread := Registers.isSome_of_readProps? has e he
    rcases mem_pair.mp hx with rfl | rfl
    · exact hread.1
    · exact hread.2
  | array vs | func _ vs | arrow _ vs | pushScope _ vs =>
    obtain ⟨as, has, _⟩ := bind_eq_some_iff.mp h
    simpa [Inst.operands_array, Inst.operands_func, Inst.operands_arrow, Inst.operands_pushScope]
      using Registers.isSome_of_read? has

/-- What a phi takes has been executed. -/
theorem isSome_of_phi {incoming : List (BlockId × InstId)}
    (h : effect? A prev regs v (.phi incoming) = some eff) :
    ∃ x, (prev, x) ∈ incoming ∧ (regs x).isSome := by
  obtain ⟨x, hx, h⟩ := bind_eq_some_iff.mp h
  obtain ⟨a, ha, _⟩ := bind_eq_some_iff.mp h
  obtain ⟨e, he, rfl⟩ := map_eq_some_iff.mp hx
  have hprev : e.1 = prev := by simpa using find?_some he
  refine ⟨e.2, ?_, isSome_of_eq_some ha⟩
  rw [← hprev]
  exact mem_of_find?_eq_some he

theorem effect?_of_step? (h : (step? W A F p).isSome) (hfetch : fetch? F p.block p.index = some (v, i))
    (hi : i.isTerminator = false) :
    ∃ eff, effect? A p.prev p.regs v i = some eff ∧
      step? W A F p = some (.running (p.perform W v eff)) := by
  obtain ⟨st, hst⟩ := isSome_iff_exists.mp h
  cases heff : effect? A p.prev p.regs v i with
  | none =>
    unfold step? at hst
    rw [hfetch] at hst
    cases i with
    | ret _ | jump _ | branch _ _ _ => cases hi
    | _ => simp [heff] at hst
  | some eff =>
    refine ⟨eff, rfl, ?_⟩
    unfold step?
    rw [hfetch]
    cases i with
    | ret _ | jump _ | branch _ _ _ => cases hi
    | _ => simp [heff]

/-- A step has read what its instruction reads. -/
theorem isSome_of_step? (h : (step? W A F p).isSome) (hfetch : fetch? F p.block p.index = some (v, i)) :
    ((∀ incoming, i ≠ .phi incoming) → ∀ x ∈ i.operands, (p.regs x).isSome) ∧
      ∀ incoming, i = .phi incoming → ∃ x, (p.prev, x) ∈ incoming ∧ (p.regs x).isSome := by
  by_cases hi : i.isTerminator = false
  · obtain ⟨eff, heff, _⟩ := effect?_of_step? h hfetch hi
    exact ⟨isSome_of_effect? heff, fun incoming hphi => isSome_of_phi (hphi ▸ heff)⟩
  · obtain ⟨st, hst⟩ := isSome_iff_exists.mp h
    unfold step? at hst
    rw [hfetch] at hst
    cases i with
    | jump target => exact ⟨fun _ _ hx => (by cases hx), fun _ h => (by cases h)⟩
    | ret x | branch x yes no =>
      simp only [bind_eq_bind, bind_some] at hst
      obtain ⟨a, ha, _⟩ := bind_eq_some_iff.mp hst
      exact ⟨fun _ => forall_mem_singleton.mpr (isSome_of_eq_some ha), nofun⟩
    | _ => exact absurd rfl hi

/-! ## Runs along paths -/

theorem after?_succ (n : Nat) (st : Status V σ) :
    after? W A F (n + 1) st = (after? W A F n st).bind (next? W A F) := by
  rw [after?_add]
  refine congrArg _ (funext fun st => ?_)
  simp only [after?, bind_eq_bind, bind_fun_some]

/-- An instruction that does not end its block fills at most its own register. -/
theorem choosing_perform (p : Point Unit (List Bool)) (v : InstId) (eff : Effect Unit) :
    ∃ regs, p.perform choosing.toWorld v eff = { p with index := p.index + 1, regs } ∧
      ∀ x, (regs x).isSome → x = v ∨ (p.regs x).isSome := by
  have hset : ∀ a x, (p.regs.set v a x).isSome → x = v ∨ (p.regs x).isSome := fun a x hx => by
    by_cases hv : x = v
    · exact .inl hv
    · rw [Registers.set_other _ _ hv] at hx
      exact .inr hx
  cases eff with
  | act a => exact ⟨p.regs.set v (), rfl, hset ()⟩
  | value a => exact ⟨p.regs.set v a, rfl, hset a⟩
  | quiet => exact ⟨p.regs, rfl, fun _ => .inr⟩

/-- A world that chooses can take any path, if the function is never stuck. Only what has been executed
on the path is in a register. -/
theorem Walk.follows {A : Activation Unit} {entered : Option BlockId} {block : BlockId} {index : Nat}
    {done : List InstId}
    (hon : ∀ n w, (after? choosing.toWorld A F n (.running ⟨0, 0, prev, fun _ => none, w⟩)).isSome)
    (h : F.Walk entered block index done) :
    ∃ choices, ∀ rest, ∃ regs, after? choosing.toWorld A F done.length
          (.running ⟨0, 0, prev, fun _ => none, choices ++ rest⟩) =
        some (.running ⟨block, index, entered.getD prev, regs, rest⟩) ∧
      ∀ v, (regs v).isSome → v ∈ done := by
  induction h with
  | start => exact ⟨[], fun rest => ⟨fun _ => none, rfl, fun v hv => by cases hv⟩⟩
  | @onward entered block index done v i _ hfetch hi ih =>
    obtain ⟨choices, hih⟩ := ih
    refine ⟨choices, fun rest => ?_⟩
    obtain ⟨regs, hafter, hregs⟩ := hih rest
    have hstep := hon (done.length + 1) (choices ++ rest)
    rw [after?_succ, hafter] at hstep
    obtain ⟨eff, _, hnext⟩ := effect?_of_step? hstep hfetch hi
    obtain ⟨regs', hperform, hregs'⟩ := choosing_perform
      ⟨block, index, entered.getD prev, regs, rest⟩ v eff
    rw [hperform] at hnext
    refine ⟨regs', ?_, fun x hx => ?_⟩
    · rw [length_cons, after?_succ, hafter]
      exact hnext
    · exact mem_cons.mpr ((hregs' x hx).imp_right (hregs x))
  | @goto entered block index done v i target _ hfetch htarget ih =>
    obtain ⟨choices, hih⟩ := ih
    cases i with
    | jump t =>
      cases mem_singleton.mp htarget
      refine ⟨choices, fun rest => ?_⟩
      obtain ⟨regs, hafter, hregs⟩ := hih rest
      refine ⟨regs, ?_, fun x hx => mem_cons_of_mem _ (hregs x hx)⟩
      rw [length_cons, after?_succ, hafter]
      show step? _ _ _ _ = _
      unfold step?
      rw [hfetch]
      rfl
    | branch c yes no =>
      obtain ⟨choice, hchoice⟩ : ∃ choice : Bool, target = if choice then yes else no := by
        rcases mem_pair.mp htarget with rfl | rfl
        · exact ⟨true, rfl⟩
        · exact ⟨false, rfl⟩
      refine ⟨choices ++ [choice], fun rest => ?_⟩
      obtain ⟨regs, hafter, hregs⟩ := hih (choice :: rest)
      refine ⟨regs, ?_, fun x hx => mem_cons_of_mem _ (hregs x hx)⟩
      have hstep := hon (done.length + 1) (choices ++ choice :: rest)
      rw [after?_succ, hafter] at hstep
      have hread : (regs c).isSome :=
        (isSome_of_step? hstep hfetch).1 (nofun) c (mem_singleton_self c)
      obtain ⟨a, ha⟩ := isSome_iff_exists.mp hread
      rw [append_assoc, length_cons, after?_succ, singleton_append, hafter]
      show step? _ _ _ _ = _
      unfold step?
      rw [hfetch, hchoice]
      simp only [bind_eq_bind, bind_some, ha]
      rfl
    | _ => cases htarget

end Run

theorem Run.compile_goes_on {p : Tree.Program} {name : String} {firstId : FuncId} {m : Code.Module}
    (h : (compile p name firstId).result = .ok m) (hshape : p.parserShaped = true) {F : Code.Function}
    (hF : F ∈ m.functions) :
    ∃ A, ∀ prev n w, (after? choosing.toWorld A F n (.running ⟨0, 0, prev, fun _ => none, w⟩)).isSome := by
  obtain ⟨hsize, hbehaves⟩ := compile_behaves h
  obtain ⟨k, hk⟩ := Array.mem_iff_getElem?.mp hF
  have hlt : k < p.callables.length := by
    rw [← hsize]
    exact (Array.getElem?_eq_some_iff.mp hk).1
  have hc := getElem?_eq_getElem hlt
  obtain ⟨G, hG, hB⟩ := hbehaves k _ hc
  rw [hk] at hG
  cases hG
  have hshaped := Tree.Program.shaped_of_mem hshape (mem_of_getElem? hc)
  obtain ⟨names, hruns⟩ :=
    hB hshaped _ _ (choosing.setting firstId) choosing.address rfl (choosing.plain firstId)
  refine ⟨⟨fun _ _ => ()⟩, fun prev n w => ?_⟩
  exact Finishes.isSome_after? (fun fuel => hruns _ (fun _ _ => rfl) fuel prev (fun _ => none) w) n

/-- **Definitions come before uses.** In a compiled program whose block-wide declarations stand where a
parser puts them, take any path through a function from its first block. What the instruction at its end
reads has been executed on the path. A phi there was entered from another block, and it has an entry
for that block whose value has been executed on the path. -/
theorem compiled_definitions_precede_uses (p : Tree.Program) (name : String) (firstId : FuncId)
    (m : Code.Module) (h : (compile p name firstId).result = .ok m) (hshape : p.parserShaped = true)
    (F : Code.Function) (hF : F ∈ m.functions) (entered : Option BlockId) (block : BlockId)
    (index : Nat) (done : List InstId) (hwalk : F.Walk entered block index done) (v : InstId) (i : Inst)
    (hi : Run.fetch? F block index = some (v, i)) :
    ((∀ incoming, i ≠ .phi incoming) → ∀ x ∈ i.operands, x ∈ done) ∧
      ∀ incoming, i = .phi incoming →
        ∃ prev x, entered = some prev ∧ (prev, x) ∈ incoming ∧ x ∈ done := by
  obtain ⟨A, hon⟩ := Run.compile_goes_on h hshape hF
  have hreads : ∀ prev, ∃ regs : Run.Registers Unit, (∀ x, (regs x).isSome → x ∈ done) ∧
      ((∀ incoming, i ≠ .phi incoming) → ∀ x ∈ i.operands, (regs x).isSome) ∧
      ∀ incoming, i = .phi incoming → ∃ x, (entered.getD prev, x) ∈ incoming ∧ (regs x).isSome := by
    intro prev
    obtain ⟨choices, hfollows⟩ := Run.Walk.follows (hon prev) hwalk
    obtain ⟨regs, hafter, hregs⟩ := hfollows []
    have hstep := hon prev (done.length + 1) (choices ++ [])
    rw [Run.after?_succ, hafter] at hstep
    exact ⟨regs, hregs, Run.isSome_of_step? hstep hi⟩
  refine ⟨fun hphi x hx => ?_, fun incoming hphi => ?_⟩
  · obtain ⟨regs, hdone, hread, _⟩ := hreads 0
    exact hdone x (hread hphi x hx)
  · -- Nothing can be said of where control came from at the start, so it could be a block without entry.
    obtain ⟨prev, hprev⟩ := Infinite.exists_notMem_finset (incoming.map (·.1)).toFinset
    obtain ⟨regs, hdone, _, hread⟩ := hreads prev
    obtain ⟨x, hx, hsome⟩ := hread incoming hphi
    cases entered with
    | none => exact absurd (List.mem_toFinset.mpr (List.mem_map_of_mem hx)) hprev
    | some b => exact ⟨b, x, rfl, hx, hdone x hsome⟩

def secondOperand : Tree.Program :=
  ⟨[.expression (.logical .and (.identifier { name := "a" }) (.identifier { name := "b" }))]⟩

/-- The value of the second operand is there when control comes from its block. -/
theorem secondOperand_definitions_precede :
    ∃ (m : Code.Module) (F : Code.Function), (compile secondOperand "m" 0).result = .ok m ∧
      F ∈ m.functions ∧ F.Walk (some 1) 2 0 [5, 4, 3, 2, 1, 0] ∧
      Run.fetch? F 2 0 = some (6, .phi [(0, 1), (1, 4)]) ∧
      ∃ prev x, some 1 = some prev ∧ (prev, x) ∈ [(0, 1), (1, 4)] ∧ x ∈ [5, 4, 3, 2, 1, 0] := by
  have hrun : ∃ m ∈ (compile secondOperand "m" 0).result.toOption, ∃ F ∈ m.functions[0]?,
      Run.fetch? F 0 0 = some (0, .getGlobal "a") ∧ Run.fetch? F 0 1 = some (1, .load 0) ∧
      Run.fetch? F 0 2 = some (2, .branch 1 1 2) ∧ Run.fetch? F 1 0 = some (3, .getGlobal "b") ∧
      Run.fetch? F 1 1 = some (4, .load 3) ∧ Run.fetch? F 1 2 = some (5, .jump 2) ∧
      Run.fetch? F 2 0 = some (6, .phi [(0, 1), (1, 4)]) := by decide +kernel
  obtain ⟨m, hm, F, hF, h0, h1, h2, h3, h4, h5, h6⟩ := hrun
  have hm' := eq_ok_of_mem_toOption hm
  have hF' : F ∈ m.functions := Array.mem_of_getElem? hF
  have hfirst : F.Walk (some 0) 1 0 [2, 1, 0] :=
    .goto (.onward (.onward .start h0 rfl) h1 rfl) h2 (List.mem_cons_self ..)
  have hwalk : F.Walk (some 1) 2 0 [5, 4, 3, 2, 1, 0] :=
    .goto (.onward (.onward hfirst h3 rfl) h4 rfl) h5 (List.mem_singleton_self 2)
  have hdefined := compiled_definitions_precede_uses secondOperand "m" 0 m hm' (by decide +kernel) F hF'
    (some 1) 2 0 [5, 4, 3, 2, 1, 0] hwalk 6 _ h6
  exact ⟨m, F, hm', hF', hwalk, h6, hdefined.2 _ rfl⟩

end ScriptIr
