import ScriptIr.Proofs.Lower.Parameters
import ScriptIr.Proofs.Semantics.Elements
import ScriptIr.Proofs.Tree.Callables

/-!
# What functions do

A function is lowered where it stands: the code around it stays as it is, and its own code, which is
finished then, does what running the function does.

* `BodyDoes`: what the code of a body does (`expressionBody_does`, `statementBody_does`).
* `closureCode_does`: closures.
-/
namespace ScriptIr

open Code List Scope
open ScriptIr.Tree (Callable Pattern)

variable {names : List String} {x : Unit} {F : Function}

/-! ## New functions -/

namespace Lower

variable {l : ScopeId}

/-- A function and its scope are there. The scope has no names but parameters. -/
structure Enters (parent : Option ScopeId) (ctx : Ctx) (s t : State) : Prop where
  func : ctx.func = s.fnCount
  scope : ctx.scope = s.scopes.scopes.size
  size : t.scopes.scopes.size = s.scopes.scopes.size + 1
  count : t.fnCount = s.fnCount + 1
  others : ∀ g < s.fnCount, t.fn? g = s.fn? g
  new : ∃ F, t.fn? ctx.func = some F ∧ F.insts = #[] ∧ F.blocks = #[]
  nextId : t.module.nextId = s.module.nextId + 1
  bodies : t.scopes.bodies = s.scopes.bodies ++ [ctx.scope]
  sound : s.scopes.Sound → t.scopes.Sound
  grows : ∀ k, parent = some k → s.scopes.Grows k False t.scopes
  chain : ∀ k, parent = some k → ∀ x ∈ t.scopes.chain ctx.scope, x < s.scopes.scopes.size →
    x ∈ s.scopes.chain k
  kind : (t.scopes.get ctx.scope).kind = .function
  onBreak : (t.scopes.get ctx.scope).breakTarget = none
  onContinue : (t.scopes.get ctx.scope).continueTarget = none
  rest : (t.scopes.get ctx.scope).rest = none
  own : ∀ x v, (t.scopes.get ctx.scope).own? x ≠ some (.cell v)

namespace Enters

variable {parent : Option ScopeId} {ctx : Ctx} {s t u v : State} {firstId : FuncId} {n : Nat}
  {B : FunctionSpec} {b c : Nat} {free : Prop} {fs : List Callable}

variable {f : Nat}

theorem setParams_ok (hl : l < s.scopes.scopes.size) (hnone : ∀ name, (s.scopes.get l).own? name = none)
    (hrun : naming (Naming.setParams l names) s = .ok x t) :
    t.module = s.module ∧ s.scopes.Replaced l
        { s.scopes.get l with params := (s.scopes.get l).params ++ names.zipIdx } t.scopes ∧
      s.scopes.Grows l True t.scopes ∧ ∀ x v, (t.scopes.get l).own? x ≠ some (.cell v) := by
  have hsound := Naming.setParamsFrom_sound names hl 0
  unfold naming at hrun
  split at hrun
  · next a arena hset =>
    rw [Naming.setParams] at hset
    rw [hset] at hsound
    cases hrun
    obtain ⟨_, _, hr⟩ := hsound
    have hown := Scope.own?_set_params hnone names
    refine ⟨rfl, hr, hr.grows rfl rfl rfl rfl ⟨rfl, rfl⟩ (fun name h => ?_) fun name h => h, fun x v h => ?_⟩
    · rw [hnone] at h
      cases h
    · rw [hr.here, hown] at h
      cases hfind : Scope.Table.find? names.zipIdx x <;> rw [hfind] at h <;> cases h
  · cases hrun

theorem of_code {name : String} {count : Nat} (hparent : ∀ p, parent = some p → p < s.scopes.scopes.size)
    (h1 : newFunction name count s = .ok f t) (h2 : newScope parent .function t = .ok l u)
    (h3 : naming (Naming.setParams l names) u = .ok x v) : Enters parent ⟨f, l⟩ s v := by
  rw [newFunction_eq] at h1
  cases h1
  rw [newScope_eq] at h2
  cases h2
  have hget : ((s.scopes.push parent .function).2).get s.scopes.scopes.size =
      { parent, kind := .function } := by rw [Arena.get_push, if_pos rfl]
  have hsize : ((s.scopes.push parent .function).2).scopes.size = s.scopes.scopes.size + 1 :=
    Arena.size_push ..
  obtain ⟨hm, hr, hgrows', hown⟩ := setParams_ok (Nat.lt_of_lt_of_eq (Nat.lt_succ_self _) hsize.symm)
    (fun name => by
      show (((s.scopes.push parent .function).2).get s.scopes.scopes.size).own? name = none
      rw [hget]
      rfl) h3
  have hgrows : ∀ k, s.scopes.Grows k False (s.scopes.push parent .function).2 :=
    fun k => Arena.grows_push s.scopes .function hparent k False
  have hfn : ∀ g, v.fn? g = (s.addFunction name count.toUInt32).fn? g := fun g => by
    unfold State.fn?
    rw [hm]
  have hchain : ∀ k, parent = some k → ∀ x ∈ ((s.scopes.push parent .function).2).chain
      s.scopes.scopes.size, x < s.scopes.scopes.size → x ∈ s.scopes.chain k := fun k hk x hx hlt => by
    rw [Arena.chain_inner (p := k) (by rw [hget, hk]) (hparent k hk),
      (hgrows k).chain (hparent k hk)] at hx
    rcases mem_cons.mp hx with rfl | hx
    · exact absurd hlt (Nat.lt_irrefl _)
    · exact hx
  have hbodies : v.scopes.bodies = ((s.scopes.push parent .function).2).bodies :=
    hgrows'.bodies_eq hr.size
  refine ⟨rfl, rfl, hr.size.trans hsize, ?_, fun g hg => ?_, ?_, congrArg Code.Module.nextId hm, ?_,
    fun hs => hgrows'.sound ((hgrows 0).sound hs), fun k hk => ?_, fun k hk x hx hlt => ?_,
    (congrArg Scope.kind hr.here).trans (congrArg Scope.kind hget),
    (congrArg Scope.breakTarget hr.here).trans (congrArg Scope.breakTarget hget),
    (congrArg Scope.continueTarget hr.here).trans (congrArg Scope.continueTarget hget),
    (congrArg Scope.rest hr.here).trans (congrArg Scope.rest hget), hown⟩
  · unfold State.fnCount
    rw [hm]
    exact State.fnCount_addFunction ..
  · rw [hfn, State.fn?_addFunction, if_neg (Nat.ne_of_lt hg)]
  · exact ⟨_, (hfn _).trans ((State.fn?_addFunction ..).trans (if_pos rfl)), rfl, rfl⟩
  · rw [hbodies]
    unfold Arena.bodies
    rw [hsize, range_succ, filter_append, filter_cons]
    simp only [hget, filter_nil]
    rw [filter_congr fun x hx => by rw [(hgrows 0).kind x (mem_range.mp hx)]]
    rfl
  · exact (hgrows k).trans hgrows' (hchain k hk) fun _ hlt => absurd hlt (Nat.lt_irrefl _)
  · have hsame : v.scopes.chain s.scopes.scopes.size =
        ((s.scopes.push parent .function).2).chain s.scopes.scopes.size :=
      hgrows'.chain (Nat.lt_of_lt_of_eq (Nat.lt_succ_self _) hsize.symm)
    exact hchain k hk x (hsame ▸ hx) hlt

theorem newBlock (h : Enters parent ctx s t) (hs : s.scopes.Sound) (hp : s.Paired)
    (hcount : s.fnCount = n) (hnext : s.module.nextId = firstId + n.toUInt32)
    (hrun : newBlock ctx t = .ok b u) :
    Ready firstId (n + 1) ctx b u ∧ State.Adds ctx.func b t u ∧ b = 0 ∧ u.instCount ctx.func = 0 := by
  obtain ⟨F, hF, hinsts, hblocks⟩ := h.new
  have hf : ctx.func < t.fnCount := by rw [h.func, h.count]; exact Nat.lt_succ_self _
  have ha := newBlock_adds hf hrun
  have hb : b = 0 := by rw [ha.block, State.blockCount, hF, Option.map_some, hblocks]; rfl
  have hi : t.instCount ctx.func = 0 := by rw [State.instCount, hF, Option.map_some, hinsts]; rfl
  have hg := ha.grows (fun _ _ _ => True) ctx.scope False 0
  have hpaired : t.Paired := by
    unfold State.Paired at hp ⊢
    rw [h.bodies, length_append, hp, h.count]
    rfl
  refine ⟨⟨?_, ?_, ?_, hg.scopes.sound (h.sound hs), hg.paired hpaired, ?_, ?_⟩, ha, hb, ?_⟩
  · rw [hg.count]
    exact hf
  · rw [ha.blockCount, ha.block]
    exact Nat.lt_succ_self _
  · refine Nat.lt_of_lt_of_le ?_ hg.scopes.size
    rw [h.scope, h.size]
    exact Nat.lt_succ_self _
  · rw [hg.count, h.count, hcount]
    rfl
  · rw [hg.nextId, h.nextId, hnext]
    simp [UInt32.add_assoc]
  · rw [ha.instCount, hi]

/-- Functions that were there stay as they are. -/
theorem old (h : Enters parent ctx s t) (hg : t.Grows B ctx.func ctx.scope free c fs u) {g : Nat}
    (hlt : g < s.fnCount) : u.fn? g = s.fn? g := by
  rw [hg.others g (by rw [h.count]; omega) (by rw [h.func]; omega), h.others g hlt]

theorem close {k : ScopeId} {d : Callable} (h : Enters (some k) ctx s t)
    (hg : t.Grows B ctx.func ctx.scope free c fs u) (hf : f < s.fnCount) (hF : u.fn? ctx.func = some F)
    (hB : B ctx.func F d) : s.Grows B f k False b (d :: fs) u := by
  have hfn : ∀ g < s.fnCount, u.fn? g = s.fn? g := fun g hlt => h.old hg hlt
  have hinst : ∀ v, u.inst? f v = s.inst? f v := fun v => by unfold State.inst?; rw [hfn f hf]
  have hblock : ∀ v, u.block? f v = s.block? f v := fun v => by unfold State.block?; rw [hfn f hf]
  refine ⟨⟨(h.grows k rfl).trans hg.scopes (h.chain k rfl) fun _ hlt => ?_, ?_, ?_, fun g hlt _ => hfn g hlt,
    fun i c hi => ?_, fun hp => hg.paired ?_⟩, fun v _ => hinst v, ?_, ?_, fun c _ _ => hblock c,
    fun ids hids => ⟨[], ?_⟩⟩
  · rw [h.scope] at hlt
    exact absurd hlt (Nat.lt_irrefl _)
  · rw [hg.count, h.count, length_cons]
    omega
  · rw [hg.nextId, h.nextId, length_cons, UInt32.add_assoc]
    simp [UInt32.add_comm]
  · cases i with
    | zero =>
      cases hi
      rw [Nat.add_zero, ← h.func]
      exact ⟨F, hF, hB⟩
    | succ i =>
      obtain ⟨G, hG, hBG⟩ := hg.made i c hi
      rw [h.count, Nat.add_assoc, Nat.add_comm 1 i] at hG hBG
      exact ⟨G, hG, hBG⟩
  · unfold State.Paired at hp ⊢
    rw [h.bodies, length_append, hp, h.count]
    rfl
  · unfold State.instCount
    exact Nat.le_of_eq (by rw [hfn f hf])
  · unfold State.blockCount
    exact Nat.le_of_eq (by rw [hfn f hf])
  · rw [hblock, hids, append_nil]

theorem captures (h : Enters parent ctx s t) (hp : s.Paired) (hg : t.scopes.Grows ctx.scope free u.scopes) :
    u.scopes.capturedBy ctx.func = (u.scopes.captures ctx.scope).map (·.name) := by
  have hbody : t.scopes.bodies[ctx.func]? = some ctx.scope := by
    rw [h.bodies, h.func, ← hp, getElem?_append_right (Nat.le_refl _), Nat.sub_self]
    rfl
  have hbody' : u.scopes.bodies[ctx.func]? = some ctx.scope := by
    obtain ⟨more, hmore⟩ := hg.bodies
    have hlt : ctx.func < t.scopes.bodies.length := by
      by_contra hge
      rw [getElem?_eq_none (Nat.not_lt.mp hge)] at hbody
      cases hbody
    rw [← hmore, getElem?_append_left hlt, hbody]
  unfold Arena.capturedBy
  rw [hbody']

end Enters

end Lower

/-! ## Bodies -/

namespace Run

open Lower

variable {rest : Option String} {h : Header} {body : BodyCode}

section Bodies

variable {V σ : Type}

/-- A function that starts at a moment returns as a run says. If the run is unfinished, the function has
made at least `fuel` steps and the world is the same. -/
def Finishes (W : World V σ) (A : Activation V) (F : Function) (fuel : Nat) (p : Point V σ) :
    Outcome V × σ → Prop
  | (.returns v, w) => Reaches W A F 0 (.running p) (.returned v w)
  | (.unfinished, w) => ∃ st, Reaches W A F fuel (.running p) st ∧ st.world = w
  | _ => False

/-- A finished function with number `g` does what running a callable does, whatever the world, once the
slots it asks for are known by name. -/
def Behaves (firstId : FuncId) (g : Nat) (F : Function) (c : Callable) : Prop :=
  c.Shaped → ∀ (V σ : Type) (S : Setting V σ) (addr : String → V), S.firstId = firstId → Plain S addr →
    ∃ names : InstId → String, ∀ A : Activation V, (∀ v i, A.slot v i = addr (names v)) →
      ∀ fuel prev regs w, Finishes S.toWorld A F fuel ⟨0, 0, prev, regs, w⟩
        (execCallable S.toScene fuel c (g + 1) w)

variable (S : Setting V σ) (B : FunctionSpec)

/-- The code of a body, lowered between two states from the end of block `b` on, does what `ev` does. -/
structure BodyFlow (ctx : Ctx) (b : Nat) (strict : Prop) (s t : State)
    (ev : Nat → StateM σ (Outcome V)) (fs : List Callable) : Prop where
  grows : s.Grows B ctx.func ctx.scope True b fs t
  runs : strict → s.breakTo ctx.scope = none → s.continueTo ctx.scope = none → ∀ addr, Plain S addr →
    ∃ names, ∀ A F, Inside S ctx.func s t names A F → ∀ fuel prev regs w, Cells addr ctx s regs →
      Finishes S.toWorld A F fuel ⟨b, s.len ctx.func b, prev, regs, w⟩ (ev fuel w)

def BodyDoes (strict : Prop) (code : BodyCode) (ev : Nat → Nat → StateM σ (Outcome V))
    (fs : List Callable) : Prop :=
  ∀ ctx b n s x t, Ready S.firstId n ctx b s → code ctx b s = .ok x t →
    BodyFlow S B ctx b strict s t (fun fuel => ev fuel n) fs

end Bodies

variable {V σ : Type} {S : Setting V σ} {B : FunctionSpec} {n : Nat}
  {ctx : Ctx} {b c : Nat} {strict : Prop} {fs gs : List Callable} {s t u : State}

theorem expressionBody_does {code : ExprCode} {ev : Nat → StateM σ V} (h : ExprDoes S B code ev fs) :
    BodyDoes S B strict (expressionBody code) (fun _ n => do return .returns (← ev n)) fs := by
  intro ctx b n s x t hready hrun
  obtain ⟨r, s1, h1, h2⟩ := run_bind hrun
  have p1 := h ctx b n s r s1 hready h1
  have g1 : Since S.firstId n B ctx b True fs s s1 := ⟨hready, p1.keeps.weaken False.elim⟩
  obtain ⟨g2, a2, _⟩ := g1.perform h2 p1.next p1.lt
  refine ⟨g2.grows, fun _ _ _ addr hp => ?_⟩
  obtain ⟨names, hruns⟩ := p1.plain (announced_nil _ _) hp
  refine ⟨names, fun A F hin fuel prev regs w hcells => ?_⟩
  obtain ⟨prev', regs', hreach, _, hv⟩ := hruns A F (hin.part _ a2.keeps) () prev regs w trivial hcells
  have hret := hin.fetch g1.func p1.keeps.instCount a2 (.refl _ (fun _ => False) _) id p1.lt
  exact hreach.andThen (Reaches.ret hret hv.2 prev' _)

theorem statementBody_does {code : StmtCode} {ev : Nat → Nat → StateM σ (Outcome V)}
    (h : ListDoes S B strict code ev fs) :
    BodyDoes S B strict (statementBody code) (fun fuel n => do
        match ← ev fuel n with
        | .normal => return .returns (← S.perform .undefined)
        | o => return o) fs := by
  intro ctx b n s x t hready hrun
  obtain ⟨last, s1, h1, hrun⟩ := run_bind hrun
  obtain ⟨v, s2, h2, h3⟩ := run_bind hrun
  have f1 := h ctx b n s last s1 hready h1
  have g1 : Since S.firstId n B ctx b True fs s s1 := ⟨hready, f1.grows⟩
  obtain ⟨g2, rfl, a2, _⟩ := g1.emit h2 f1.next f1.lt
  obtain ⟨g3, a3, _⟩ := g2.perform h3 f1.next (Nat.lt_of_lt_of_eq f1.lt a2.blockCount.symm)
  refine ⟨g3.grows, fun hstrict hbreak hcontinue addr hp => ?_⟩
  obtain ⟨names1, hruns1⟩ := f1.runs hstrict addr hp
  refine ⟨names1, fun A F hin fuel prev regs w hcells => ?_⟩
  have hin1 := hin.part names1 (a2.keeps.trans a3.keeps) (Nat.le_refl _)
  have hends := hruns1 A F hin1 fuel prev regs w hcells
  rw [hbreak, hcontinue] at hends
  dsimp only at hends
  show Finishes _ _ _ _ _ ((match (ev fuel n w).1 with
    | .normal => do return .returns (← S.perform .undefined)
    | o => pure o : StateM σ (Outcome V)) (ev fuel n w).2)
  generalize hout : ev fuel n w = out at hends ⊢
  obtain ⟨o, w'⟩ := out
  cases o with
  | normal =>
    obtain ⟨prev', regs', hreach, _⟩ := hends
    have k2 : s2.Keeps ctx.func (fun _ => False) t := a3.keeps
    have hundefined := hin.fetch g1.func f1.grows.instCount a2 k2 id f1.lt
    have hret := hin.fetch g2.func g2.grows.instCount a3 (.refl _ (fun _ => False) _) id
      (Nat.lt_of_lt_of_eq f1.lt a2.blockCount.symm)
    have hmade := Reaches.perform (W := S.toWorld) (A := A)
      (p := ⟨last, s1.len ctx.func last, prev', regs', w'⟩) hundefined rfl
    rw [a2.len_same] at hret
    exact (hreach.andThen hmade).andThen (Reaches.ret hret (Registers.set_same _ _ _) prev' _)
  | breaks =>
    obtain ⟨_, h, _⟩ := hends
    cases h
  | continues =>
    obtain ⟨_, h, _⟩ := hends
    cases h
  | returns v => exact hends
  | unfinished => exact hends

/-! ## Parameters -/

theorem restName?_cons {p : Pattern} (params : List Pattern)
    (h : ∀ id loc, p ≠ .rest (.identifier id) loc) : restName? (p :: params) = restName? params := by
  unfold restName?
  cases params with
  | nil =>
    simp only [getLast?_singleton, getLast?_nil]
    split
    · next id loc hp =>
      cases hp
      exact absurd rfl (h id loc)
    · rfl
  | cons q params => rw [getLast?_cons_cons]

theorem parameters_ok {params : List Pattern} (h : Parameters params names rest) :
    (∀ x, x ∈ names ↔ some x ∈ params.map Pattern.plainName?) ∧ rest = restName? params ∧
      (rest.isSome → names.length = params.length - 1) := by
  induction h with
  | nil => exact ⟨fun x => by simp, rfl, nofun⟩
  | rest => exact ⟨fun x => by simp [Pattern.plainName?], rfl, fun _ => rfl⟩
  | @plain params names rest id _ ih =>
    obtain ⟨hmem, hrest, hlen⟩ := ih
    refine ⟨fun x => ?_, ?_, fun hr => ?_⟩
    · rw [map_cons, mem_cons, mem_cons, hmem x]
      simp [Pattern.plainName?]
    · rw [hrest, restName?_cons params fun _ _ hp => by cases hp]
    · have hlen := hlen hr
      have hne : params ≠ [] := fun he => by
        rw [he] at hrest
        rw [hrest] at hr
        cases hr
      have hpos := length_pos_iff.2 hne
      simp only [length_cons]
      omega

/-- What the rest parameter of a function stands for. -/
def restPart (ctx : Ctx) (entry : BlockId) (skip : Nat) : Option String → Emit Unit
  | some name => declareRest ctx entry skip name
  | none => pure ()

/-- The arguments of a function are bound before its body runs. -/
theorem bindings_open {c : Callable} {y : Unit} (hkind : c.kind = h.kind)
    (hnames : parameterNames c.params = .ok (names, rest)) (hready : Ready S.firstId n ctx b s)
    (hrest : (s.scopes.get ctx.scope).rest = none)
    (h1 : declareArguments h names ctx b s = .ok x t)
    (h2 : restPart ctx b names.length rest t = .ok y u) :
    Opening S B ctx b s u (.any Unit V) (do bindArguments S.toScene c; bindRest S.toScene c.params) := by
  obtain ⟨hmem, hrest', hskip⟩ := parameters_ok (parameters_of_names hnames)
  obtain ⟨hsame, o1⟩ := declareArguments_opens (B := B) hready h1
  have hbind : (if h.kind = .function && !names.contains "arguments" then do
      S.assign "arguments" (← S.perform .arguments) else pure ()) = bindArguments S.toScene c := by
    unfold bindArguments
    rw [hkind]
    refine if_congr ?_ rfl rfl
    rw [← hmem]
    simp
  rw [hbind] at o1
  have r1 := hready.grown o1.grows (Nat.lt_of_lt_of_le hready.block o1.grows.blockCount)
  refine .seq hready o1 ?_
  unfold bindRest
  rw [← hrest']
  cases rest with
  | none =>
    cases h2
    exact .refl S B ctx b t
  | some name =>
    rw [← hskip rfl]
    exact declareRest_opens r1 (hsame.trans hrest) h2

/-- A function returns the same if it comes to a moment later. -/
theorem Finishes.after {W : World V σ} {A : Activation V} {fuel k : Nat} {p q : Point V σ}
    {r : Outcome V × σ} (hreach : Reaches W A F k (.running p) (.running q))
    (h : Finishes W A F fuel q r) : Finishes W A F fuel p r := by
  obtain ⟨o, w⟩ := r
  cases o with
  | returns v => exact (hreach.trans h).mono (Nat.zero_le _)
  | unfinished =>
    obtain ⟨st, hst, hw⟩ := h
    exact ⟨st, (hreach.trans hst).mono (Nat.le_add_left _ _), hw⟩
  | normal | breaks | continues => exact h.elim

/-- The arguments of a function are bound, and then its body runs. -/
theorem Opening.beforeBody {ev : StateM σ Unit} {evs : Nat → StateM σ (Outcome V)}
    (hready : Ready S.firstId n ctx b s) (h : Opening S B ctx b s t (.any Unit V) ev)
    (h' : BodyFlow S B ctx b strict t u evs fs) :
    BodyFlow S B ctx b strict s u (fun fuel => do ev; evs fuel) fs := by
  refine ⟨h.grows.after h'.grows hready.func hready.scope (.inl rfl) id,
    fun hstrict hbreak hcontinue addr hp => ?_⟩
  have hbreak' : t.breakTo ctx.scope = none := (h.grows.scopes.onBreak hready.scope).trans hbreak
  have hcontinue' : t.continueTo ctx.scope = none :=
    (h.grows.scopes.onContinue hready.scope).trans hcontinue
  obtain ⟨names, hruns⟩ := h.runs addr hp
  obtain ⟨names', hruns'⟩ := h'.runs hstrict hbreak' hcontinue' addr hp
  refine ⟨joinAt (t.instCount ctx.func) names names', fun A F hin fuel prev regs w hcells => ?_⟩
  obtain ⟨prev1, regs1, hreach, _, hcells1, _⟩ :=
    hruns A F (hin.part _ h'.grows.keepsCode) prev regs w hcells
  exact .after hreach (hruns' A F (hin.part _ (.refl _ _ _) h.grows.instCount) fuel prev1 regs1 _ hcells1)

/-- A function whose body runs as it should behaves as its tree says. -/
theorem behaves_of_flow {parent : Option ScopeId} {c : Callable} {v : State}
    (E : Enters parent ctx s t) (hcount : s.fnCount = n) (hadds : State.Adds ctx.func 0 t u)
    (hscopes : u.scopes = t.scopes)
    (hflow : ∀ {V' σ' : Type} (S' : Setting V' σ'), S'.firstId = S.firstId →
      BodyFlow S' (Behaves S.firstId) ctx 0 c.Shaped u v
        (fun fuel => execCallable S'.toScene fuel c (n + 1)) fs) :
    t.Grows (Behaves S.firstId) ctx.func ctx.scope True 0 fs v ∧
      ∃ F, v.fn? ctx.func = some F ∧ Behaves S.firstId ctx.func F c := by
  have hf : ctx.func < t.fnCount := by rw [E.func, E.count]; exact Nat.lt_succ_self _
  have hl : ctx.scope < t.scopes.scopes.size := by rw [E.scope, E.size]; exact Nat.lt_succ_self _
  have hg : t.Grows (Behaves S.firstId) ctx.func ctx.scope True 0 fs v :=
    (hadds.grows _ ctx.scope True 0).after (hflow S rfl).grows hf hl (.inl rfl) id
  obtain ⟨F, hF⟩ := State.fn?_isSome (s := v) (f := ctx.func) (by rw [hg.count]; omega)
  have hbreak : u.breakTo ctx.scope = none := by
    unfold State.breakTo
    rw [hscopes]
    exact Arena.exit?_function E.onBreak E.kind
  have hcontinue : u.continueTo ctx.scope = none := by
    unfold State.continueTo
    rw [hscopes]
    exact Arena.exit?_function E.onContinue E.kind
  refine ⟨hg, F, hF, fun hshape V' σ' S' addr hS' hplain => ?_⟩
  obtain ⟨names, hruns⟩ := (hflow S' hS').runs hshape hbreak hcontinue addr hplain
  refine ⟨names, fun A hA fuel prev regs w => ?_⟩
  have hin : Inside S' ctx.func u v names A F :=
    ⟨.of_fn? hF _, fun v _ _ i => (hA v i).trans (hplain.place _ _).symm⟩
  have hcells : Cells addr ctx u regs := fun x v hx => by
    rw [hscopes] at hx
    exact absurd hx (E.own x v)
  have hfinishes := hruns A F hin fuel prev regs w hcells
  rw [hadds.len_new] at hfinishes
  rw [E.func, hcount]
  exact hfinishes

/-! ## Closures -/

theorem functionCode_eq (h : Header) (body : BodyCode) (parent : ScopeId) :
    functionCode h body parent = (do
      checkHeader h
      let p ← ofExcept (parameterNames h.params)
      let s ← get
      let func ← newFunction h.name p.1.length
      let scope ← newScope (some parent) .function
      naming (Naming.setParams scope p.1)
      let entry ← newBlock ⟨func, scope⟩
      declareArguments h p.1 ⟨func, scope⟩ entry
      restPart ⟨func, scope⟩ entry p.1.length p.2
      body ⟨func, scope⟩ entry
      let names ← capturedNames scope
      return (s.module.nextId, names)) := by
  unfold functionCode
  refine bind_congr fun _ => bind_congr fun p => bind_congr fun s => bind_congr fun func =>
    bind_congr fun scope => bind_congr fun _ => bind_congr fun entry => bind_congr fun _ => ?_
  obtain ⟨names, rest⟩ := p
  cases rest with
  | none => rfl
  | some name => rfl

theorem checkHeader_ok (hrun : checkHeader h s = .ok x t) : s = t := by
  unfold checkHeader at hrun
  dsimp only at hrun
  split at hrun
  · cases hrun
  · split at hrun
    · cases hrun
    · cases hrun
      rfl

theorem ofExcept_ok {α : Type} {r : Except Error α} {a : α}
    (hrun : (ofExcept r : Emit α) s = .ok a t) : r = .ok a ∧ s = t := by
  cases r with
  | error e => cases hrun
  | ok a => cases hrun; exact ⟨rfl, rfl⟩

theorem functionCode_does {c : Callable} (hkind : c.kind = h.kind) (hparams : c.params = h.params)
    (hbody : ∀ {V' σ' : Type} (S' : Setting V' σ'), S'.firstId = S.firstId →
      BodyDoes S' (Behaves S.firstId) c.Shaped body (fun fuel n => execBody S'.toScene fuel c.body n) fs)
    (hready : Ready S.firstId n ctx b s) {r : FuncId × List String}
    (hrun : functionCode h body ctx.scope s = .ok r t) :
    s.Grows (Behaves S.firstId) ctx.func ctx.scope False b (c :: fs) t ∧
      t.fn? ctx.func = s.fn? ctx.func ∧ r = (S.firstId + n.toUInt32, t.scopes.capturedBy n) := by
  rw [functionCode_eq, ← hparams] at hrun
  obtain ⟨_, s', h0, hrun⟩ := run_bind hrun
  cases checkHeader_ok h0
  obtain ⟨p, s', h0, hrun⟩ := run_bind hrun
  obtain ⟨hnames, rfl⟩ := ofExcept_ok h0
  obtain ⟨_, s', h0, hrun⟩ := run_bind hrun
  cases h0
  simp only [run_bind_iff] at hrun
  obtain ⟨f, s1, h1, l, s2, h2, _, s3, h3, entry, s4, h4, _, s5, h5, _, s6, h6, _, s7, h7, names,
    s', h0, hrun⟩ := hrun
  cases h0
  cases hrun
  have E : Enters (some ctx.scope) ⟨f, l⟩ s s3 :=
    .of_code (fun _ hk => by cases hk; exact hready.scope) h1 h2 h3
  obtain ⟨r4, a4, rfl, hinst⟩ := E.newBlock hready.sound hready.paired hready.count hready.nextId h4
  have hs4 : s4.scopes = s3.scopes := Plain.newBlock.scopes_eq h4
  have hf : f = n := E.func.trans hready.count
  have hflow : ∀ {V' σ' : Type} (S' : Setting V' σ'), S'.firstId = S.firstId →
      BodyFlow S' (Behaves S.firstId) ⟨f, l⟩ 0 c.Shaped s4 t
        (fun fuel => execCallable S'.toScene fuel c (n + 1)) fs := fun S' hS' => by
    have r4 : Ready S'.firstId (n + 1) ⟨f, l⟩ 0 s4 := hS' ▸ r4
    have o := bindings_open (B := Behaves S.firstId) hkind hnames r4
      ((congrArg (fun a => (a.get l).rest) hs4).trans E.rest) h5 h6
    have r6 := r4.grown o.grows (Nat.lt_of_lt_of_le r4.block o.grows.blockCount)
    have hbody := o.beforeBody r4 (hbody S' hS' ⟨f, l⟩ 0 (n + 1) s6 _ t r6 h7)
    exact hbody
  obtain ⟨hg, F, hF, hB⟩ := behaves_of_flow E hready.count a4 hs4 hflow
  refine ⟨E.close hg hready.func hF hB, E.old hg hready.func, ?_⟩
  rw [← hf, E.captures hready.paired hg.scopes, hf, ← hready.nextId]

/-- Code that comes after other functions are lowered. -/
theorem Piece.afterFunctions {ι β : Type} {K : Context ι V} {L : Context β V} {ev : ι → StateM σ β}
    (hready : Ready S.firstId n ctx b s) (hg : s.Grows B ctx.func ctx.scope False b fs t)
    (hinsts : t.instCount ctx.func = s.instCount ctx.func)
    (hlen : t.len ctx.func b = s.len ctx.func b) (h : Piece S B ctx b K [] t u c L ev gs) :
    Piece S B ctx b K [] s u c L ev (fs ++ gs) := by
  refine ⟨(hg.after h.keeps hready.func hready.scope (.inl rfl) False.elim).weaken False.elim,
    h.next.imp_right (Nat.le_trans hg.blockCount), h.lt, ?_⟩
  obtain ⟨names, hruns⟩ := h.runs
  refine ⟨names, fun caps A F hw _ i prev regs w hK hsees => ?_⟩
  have hrun := hruns caps A F (hw.from_ hg.follows fun _ _ _ => rfl) (announced_nil _ _) i prev
    regs w (by rw [hinsts]; exact hK) (hsees.grown hg id hready.scope fun _ _ => rfl)
  rw [hlen, hinsts] at hrun
  exact hrun

variable (kind : FunctionKind)

/-- The instruction that makes a closure. -/
def closureInst (id : FuncId) (captured : List InstId) : Inst :=
  match kind with
  | .function => .func id captured
  | .arrow => .arrow id captured

def closureOf (id : FuncId) (names : List String) : ExprCode :=
  fun ctx block => do
    let captured ← capturedAddresses ctx block names
    return ⟨block, ← emit ctx block (closureInst kind id captured)⟩

theorem closureOf_does (id : FuncId) (names : List String) :
    ExprDoes S B (closureOf kind id names) (fun _ => do
      let captured ← S.addresses names
      S.perform (.closure kind id captured)) [] := fun ctx b n => by
  refine .bind (capturedAddresses_does names) fun captured =>
    .result (.act fun p m regs h A prev v => ?_) (fun _ => rfl) fun _ _ _ _ h => h
  have hread := Context.registers_read h.1
  cases kind <;> simp only [closureInst, effect?, hread] <;> rfl

theorem closureCode_does {c : Callable} (hkind : c.kind = h.kind) (hparams : c.params = h.params)
    (hbody : ∀ {V' σ' : Type} (S' : Setting V' σ'), S'.firstId = S.firstId →
      BodyDoes S' (Behaves S.firstId) c.Shaped body (fun fuel n => execBody S'.toScene fuel c.body n) fs) :
    ExprDoes S (Behaves S.firstId) (closureCode h body) (fun n => S.closure n c.kind) (c :: fs) := by
  intro ctx b n s r t hready hrun
  obtain ⟨p, s1, h1, h2⟩ := run_bind hrun
  obtain ⟨g1, hfn, rfl⟩ := functionCode_does hkind hparams hbody hready h1
  have hinsts : s1.instCount ctx.func = s.instCount ctx.func := by
    unfold State.instCount
    rw [hfn]
  have hlen : s1.len ctx.func b = s.len ctx.func b := by
    unfold State.len State.block?
    rw [hfn]
  have r1 := hready.grown g1 (Nat.lt_of_lt_of_le hready.block g1.blockCount)
  have p2 := closureOf_does (B := Behaves S.firstId) h.kind (S.firstId + n.toUInt32)
    (s1.scopes.capturedBy n) ctx b _ s1 r t r1 h2
  have p := p2.afterFunctions hready g1 hinsts hlen
  rw [append_nil] at p
  refine ⟨p.grows, p.next, p.lt, ?_⟩
  obtain ⟨names, hruns⟩ := p.runs
  refine ⟨names, fun caps A F hw hann i prev regs w hK hsees => ?_⟩
  -- The names that are captured are settled once the function is lowered.
  have hlt : n < s1.fnCount := by
    rw [g1.count, hready.count, length_cons]
    omega
  have hfits := hw.fits n (Nat.le_of_eq hready.count) (Nat.lt_of_lt_of_le hlt p2.grows.follows.count)
  rw [capturedBy_settled hready.scope hready.paired g1 p2.keeps.scopes (Nat.le_of_eq hready.count) hlt]
    at hfits
  have hrun := hruns caps A F hw hann i prev regs w hK hsees
  dsimp only at hrun ⊢
  rw [← hkind, ← S.closes n _ c.kind hfits] at hrun
  exact hrun

end Run

end ScriptIr
