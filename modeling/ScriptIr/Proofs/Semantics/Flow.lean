import ScriptIr.Proofs.Semantics.Control
import ScriptIr.Proofs.Semantics.Nesting

/-!
# What statements do

The code of a statement goes on at its end, or where the outcome of the statement says. Code may be
followed by a jump or a branch, and statements by statements.

* `returnCode_does`, `runAll_does`: some of the kinds of statements.
-/
namespace ScriptIr.Run

open Code Lower ScriptIr.Tree

section

variable {V σ : Type} (S : Setting V σ) (B : FunctionSpec)

/-- The code lowered between two states, from the end of block `b` on, ends as `ev` says and goes on
at a place of the code if nothing else is said. -/
def Runs (ctx : Ctx) (b : Nat) (pre : Prop) (s t : State) (block : BlockId) (index : Nat)
    (ev : Nat → StateM σ (Outcome V)) : Prop :=
  pre → ∀ addr, Plain S addr → ∃ names, ∀ A F, Inside S ctx.func s t names A F →
    ∀ fuel prev regs w, Cells addr ctx s regs →
      Ends S.toWorld A F fuel ⟨block, index, s.breakTo ctx.scope, s.continueTo ctx.scope⟩
        (s.instCount ctx.func) ⟨b, s.len ctx.func b, prev, regs, w⟩ (ev fuel w)

/-- The code lowered between two states, from the end of block `b` on, ends as `ev` says, at the end
of block `c` if nothing else is said. -/
structure Flow (ctx : Ctx) (b : Nat) (free pre : Prop) (s t : State) (c : Nat)
    (ev : Nat → StateM σ (Outcome V)) (fs : List Callable) : Prop where
  grows : s.Grows B ctx.func ctx.scope free b fs t
  next : c = b ∨ s.blockCount ctx.func ≤ c
  lt : c < t.blockCount ctx.func
  runs : Runs S ctx b pre s t c (t.len ctx.func c) ev

/-- The code of a statement ends as the statement does, if the names that the statement declares have
been announced and it has the shape that `strict` asks for. -/
def StmtDoes (strict : Prop) (decl : List String) (code : StmtCode)
    (ev : Nat → Nat → StateM σ (Outcome V)) (fs : List Callable) : Prop :=
  ∀ ctx b n s c t, Ready S.firstId n ctx b s → code ctx b s = .ok c t →
    Flow S B ctx b (¬(strict ∧ Announced s ctx.scope decl)) (strict ∧ Announced s ctx.scope decl) s t
      c (fun fuel => ev fuel n) fs

end

variable {V σ : Type} {S : Setting V σ} {B : FunctionSpec} {ι β : Type}
  {ctx : Ctx} {b c d : Nat} {n : Nat} {K : Context ι V} {L : Context β V} {decl : List String}
  {fs gs : List Callable} {s t u : State} {free free' pre pre' : Prop} {addr : String → V}

variable {ev eva : Nat → Nat → StateM σ (Outcome V)} {target : BlockId} {strict : Prop}
  {code consequent : StmtCode} {test : ExprCode} {evt : Nat → StateM σ V}

/-! ## Code without other ends -/

/-- What a piece of code does where names stand for fixed addresses. -/
theorem Piece.plain {ev : ι → StateM σ β} (h : Piece S B ctx b K decl s t c L ev fs)
    (hann : Announced s ctx.scope decl) (hp : Plain S addr) :
    ∃ names, ∀ A F, Inside S ctx.func s t names A F → ∀ i prev regs w,
      K.holds i (s.instCount ctx.func) regs → Cells addr ctx s regs →
      ∃ prev' regs', Reaches S.toWorld A F 0 (.running ⟨b, s.len ctx.func b, prev, regs, w⟩)
          (.running ⟨c, t.len ctx.func c, prev', regs', (ev i w).2⟩) ∧
        Agree (s.instCount ctx.func) regs regs' ∧
        L.holds (ev i w).1 (t.instCount ctx.func) regs' := by
  obtain ⟨names, hruns⟩ := h.runs
  exact ⟨names, fun A F hin i prev regs w hK hcells =>
    hruns _ A F (hin.within hp) hann i prev regs w hK (hcells.sees hp _)⟩

theorem Piece.addBlock {ev : ι → StateM σ β} (hready : Ready S.firstId n ctx b s)
    (h : Piece S B ctx b K decl s t c L ev fs) (ha : State.Adds ctx.func d t u) :
    Piece S B ctx b K decl s u c L ev fs := by
  obtain ⟨hg, hnext, hlt, names, hruns⟩ := h
  have hsince : Since S.firstId n B ctx b (¬Announced s ctx.scope decl) fs s t := ⟨hready, hg⟩
  have hgrows := hg.after (ha.grows B ctx.scope False b) hready.func hready.scope (.inl rfl) False.elim
  rw [List.append_nil] at hgrows
  refine ⟨hgrows, hnext, by rw [ha.blockCount]; omega, names, fun caps A F hw hann => ?_⟩
  rw [ha.len, ha.instCount]
  exact hruns caps A F (hw.back hsince (ha.follows _)) hann

theorem Piece.branch {ev : ι → StateM σ V} {v : InstId} {yes no : BlockId}
    (h : Piece S B ctx b K [] s t c (.register v) ev fs) (hf : ctx.func < t.fnCount)
    (hpush : State.Pushes ctx.func c (.branch v yes no) t u) (hp : Plain S addr) :
    ∃ names, ∀ A F, Inside S ctx.func s u names A F → ∀ i prev regs w,
      K.holds i (s.instCount ctx.func) regs → Cells addr ctx s regs →
      ∃ regs', Reaches S.toWorld A F 1 (.running ⟨b, s.len ctx.func b, prev, regs, w⟩)
          (.running ⟨if (S.test (ev i w).1 (ev i w).2).1 then yes else no, 0, c, regs',
            (S.test (ev i w).1 (ev i w).2).2⟩) ∧
        Agree (s.instCount ctx.func) regs regs' := by
  obtain ⟨names, hruns⟩ := h.plain (announced_nil _ _) hp
  refine ⟨names, fun A F hin i prev regs w hK hcells => ?_⟩
  obtain ⟨prev', regs', hreach, hregs, hv⟩ := hruns A F (hin.part _ hpush.keeps) i prev regs w hK hcells
  have hfetch := hin.fetch hf h.grows.instCount hpush (.refl _ (fun _ => False) _) id h.lt
  have hbranch := Reaches.branch (W := S.toWorld) (A := A) hfetch hv.2 prev' (ev i w).2
  exact ⟨regs', (hreach.trans hbranch).mono, hregs⟩

theorem Piece.jump {ev : ι → StateM σ β} (h : Piece S B ctx b K decl s t c L ev fs)
    (hf : ctx.func < t.fnCount) (hpush : State.Pushes ctx.func c (.jump target) t u)
    (hann : Announced s ctx.scope decl) (hp : Plain S addr) :
    ∃ names, ∀ A F, Inside S ctx.func s u names A F → ∀ i prev regs w,
      K.holds i (s.instCount ctx.func) regs → Cells addr ctx s regs →
      ∃ regs', Reaches S.toWorld A F 1 (.running ⟨b, s.len ctx.func b, prev, regs, w⟩)
          (.running ⟨target, 0, c, regs', (ev i w).2⟩) ∧
        Agree (s.instCount ctx.func) regs regs' ∧
        L.holds (ev i w).1 (t.instCount ctx.func) regs' := by
  obtain ⟨names, hruns⟩ := h.plain hann hp
  refine ⟨names, fun A F hin i prev regs w hK hcells => ?_⟩
  obtain ⟨prev', regs', hreach, hregs, hv⟩ := hruns A F (hin.part _ hpush.keeps) i prev regs w hK hcells
  have hfetch := hin.fetch hf h.grows.instCount hpush (.refl _ (fun _ => False) _) id h.lt
  have hjump := Reaches.jump (W := S.toWorld) (A := A) hfetch prev' regs' (ev i w).2
  exact ⟨regs', (hreach.trans hjump).mono, hregs, hv⟩

/-! ## Flows -/

theorem Ends.below {W : World V σ} {A : Activation V} {F : Code.Function} {fuel lo lo' : Nat}
    {E : Exits} {p : Point V σ} {r : Outcome V × σ} (h : Ends W A F fuel E lo' p r)
    (hlo : lo ≤ lo' := by omega) :
    Ends W A F fuel E lo p r := h.after (.refl _) (.refl _ _) hlo

namespace Flow

theorem imp {ev : Nat → StateM σ (Outcome V)} (h : Flow S B ctx b free pre s t c ev fs)
    (hfree : free → free') (hpre : pre' → pre) : Flow S B ctx b free' pre' s t c ev fs :=
  ⟨h.grows.weaken hfree, h.next, h.lt, fun hp => h.runs (hpre hp)⟩

theorem of_piece {ev : Unit → StateM σ β} (h : Piece S B ctx b (.any Unit V) decl s t c L ev fs)
    (strict : Prop) :
    Flow S B ctx b (¬(strict ∧ Announced s ctx.scope decl)) (strict ∧ Announced s ctx.scope decl) s t
      c (fun _ => ev () >>= fun _ => pure .normal) fs := by
  refine ⟨h.grows.weaken fun hn hp => hn hp.2, h.next, h.lt, ?_⟩
  intro hpre addr hp
  obtain ⟨names, hruns⟩ := h.plain hpre.2 hp
  refine ⟨names, fun A F hin fuel prev regs w hcells => ?_⟩
  obtain ⟨prev', regs', hreach, hregs, _⟩ := hruns A F hin () prev regs w trivial hcells
  exact ⟨prev', regs', hreach, hregs⟩

theorem andThen {ev ev' : Nat → StateM σ (Outcome V)} (hready : Ready S.firstId n ctx b s)
    (h : Flow S B ctx b free pre s t c ev fs) (h' : Flow S B ctx c free' pre' t u d ev' gs)
    (hfree : free' → free) (hkeeps : pre → ¬free) :
    Flow S B ctx b free (pre ∧ pre') s u d (fun fuel => inTurn (ev fuel) (ev' fuel)) (fs ++ gs) := by
  refine ⟨h.grows.after h'.grows hready.func hready.scope h.next hfree, ?_, h'.lt, ?_⟩
  · rcases h'.next with rfl | hnext
    · exact h.next
    · exact .inr (Nat.le_trans h.grows.blockCount hnext)
  · intro hpre addr hp
    obtain ⟨names, hruns⟩ := h.runs hpre.1 addr hp
    obtain ⟨names', hruns'⟩ := h'.runs hpre.2 addr hp
    refine ⟨joinAt (t.instCount ctx.func) names names', fun A F hin fuel prev regs w hcells => ?_⟩
    have hfirst := hruns A F (hin.part _ h'.grows.keepsCode) fuel prev regs w hcells
    have hbreak : t.breakTo ctx.scope = s.breakTo ctx.scope := h.grows.scopes.onBreak hready.scope
    have hcontinue : t.continueTo ctx.scope = s.continueTo ctx.scope :=
      h.grows.scopes.onContinue hready.scope
    refine Ends.inTurn hfirst rfl rfl fun prev' regs' _ hregs => ?_
    have hsecond := hruns' A F (hin.part _ (.refl _ _ _) h.grows.instCount) fuel prev' regs' (ev fuel w).2
      (hcells.grown h.grows (hkeeps hpre.1) hready.scope hregs)
    rw [hbreak, hcontinue] at hsecond
    exact hsecond.below h.grows.instCount

theorem jump {ev : Nat → StateM σ (Outcome V)} (h : Flow S B ctx b free pre s t c ev fs)
    (hf : ctx.func < t.fnCount) (hpush : State.Pushes ctx.func c (.jump target) t u) :
    Runs S ctx b pre s u target 0 ev := by
  intro hpre addr hp
  obtain ⟨names, hruns⟩ := h.runs hpre addr hp
  refine ⟨names, fun A F hin fuel prev regs w hcells => ?_⟩
  have hends := hruns A F (hin.part _ hpush.keeps) fuel prev regs w hcells
  have hfetch := hin.fetch hf h.grows.instCount hpush (.refl _ (fun _ => False) _) id h.lt
  exact Ends.onward hends rfl rfl fun prev' regs' _ _ =>
    ⟨c, regs', (Reaches.jump hfetch prev' regs' _).mono, .refl _ _⟩

end Flow

/-! ## Lists of statements in turn -/

/-- The code of each of several statements ends as the statement does. -/
inductive StmtsDoes (S : Setting V σ) (B : FunctionSpec) (strict : Prop) :
    List String → List StmtCode → (Nat → Nat → StateM σ (Outcome V)) → List Callable → Prop where
  | nil : StmtsDoes S B strict [] [] (fun _ _ => pure .normal) []
  | cons {decl decl' code codes ev evs fs gs} : StmtDoes S B strict decl code ev fs →
    StmtsDoes S B strict decl' codes evs gs →
    StmtsDoes S B strict (decl ++ decl') (code :: codes)
      (fun fuel n => inTurn (ev fuel n) (evs fuel (n + fs.length))) (fs ++ gs)

theorem StmtDoes.of_does {ev : Nat → StateM σ β} (view : BlockId → Context β V)
    (h : ∀ ctx b n, Does S B ctx b n (.any Unit V) decl (code ctx b) id view (fun _ => ev n) fs) :
    StmtDoes S B strict decl code (fun _ n => ev n >>= fun _ => pure .normal) fs :=
  fun ctx b n s c t hready hrun => .of_piece (h ctx b n s c t hready hrun) strict

theorem StmtDoes.flow (h : StmtDoes S B strict [] code ev fs) (hready : Ready S.firstId n ctx b s)
    (hrun : code ctx b s = .ok c t) :
    Flow S B ctx b (¬strict) strict s t c (fun fuel => ev fuel n) fs :=
  (h ctx b n s c t hready hrun).imp (fun hn hs => hn ⟨hs, announced_nil _ _⟩)
    fun hs => ⟨hs, announced_nil _ _⟩

theorem StmtDoes.of_flow
    (h : ∀ ctx b n s c t, Ready S.firstId n ctx b s → code ctx b s = .ok c t → Flow S B ctx b
      (¬strict) strict s t c (fun fuel => ev fuel n) fs) :
    StmtDoes S B strict [] code ev fs := fun ctx b n s c t hready hrun =>
  (h ctx b n s c t hready hrun).imp (fun hn hs => hn hs.1) And.left

/-- A statement that declares nothing if it has the shape that is asked for. -/
theorem StmtDoes.loosen {strict' : Prop} (h : StmtDoes S B strict decl code ev fs)
    (hs : strict' → strict ∧ decl = []) : StmtDoes S B strict' [] code ev fs := by
  intro ctx b n s c t hready hrun
  have hpre : strict' ∧ Announced s ctx.scope [] → strict ∧ Announced s ctx.scope decl := fun hp => by
    obtain ⟨hstrict, rfl⟩ := hs hp.1
    exact ⟨hstrict, hp.2⟩
  exact (h ctx b n s c t hready hrun).imp (fun hn hp => hn (hpre hp)) hpre

theorem runAll_does {codes : List StmtCode} (h : StmtsDoes S B strict decl codes ev fs) :
    StmtDoes S B strict decl (fun ctx b => runAll ctx b codes) ev fs := by
  induction h with
  | nil =>
    have hnil : StmtDoes S B strict [] (fun ctx b => runAll ctx b [])
        (fun _ _ => (pure () : StateM σ Unit) >>= fun _ => pure .normal) [] :=
      .of_does (fun _ => .any Unit V) fun ctx b n => .pure rfl fun _ _ _ _ => trivial
    exact hnil
  | @cons decl decl' _ _ _ _ _ _ hcode _ ih =>
    intro ctx b n s d u hready hrun
    obtain ⟨c, t, hfirst, hrun⟩ := run_bind hrun
    have h1 := hcode ctx b n s c t hready hfirst
    have h2 := ih ctx c _ t d u (hready.grown h1.grows h1.lt) hrun
    have hann : Announced s ctx.scope (decl ++ decl') →
        Announced s ctx.scope decl ∧ Announced t ctx.scope decl' := fun h =>
      ⟨fun x hx => h x (List.mem_append_left _ hx),
        Announced.grown (fun x hx => h x (List.mem_append_right _ hx)) h1.grows.scopes hready.scope⟩
    have hall : strict ∧ Announced s ctx.scope (decl ++ decl') →
        (strict ∧ Announced s ctx.scope decl) ∧ strict ∧ Announced t ctx.scope decl' := fun h =>
      ⟨⟨h.1, (hann h.2).1⟩, h.1, (hann h.2).2⟩
    refine (Flow.andThen hready (h1.imp (fun hn h => hn (hall h).1) fun h => (hall h).1) h2
      (fun hn h => hn (hall h).2) not_not.mpr).imp id fun h => ⟨h, (hall h).2⟩

/-! ## Simple statements -/

theorem expressionCode_does {code : ExprCode} {ev : Nat → StateM σ V} (h : ExprDoes S B code ev fs) :
    StmtDoes S B strict [] (expressionCode code) (fun _ n => do
        let _ ← ev n
        return .normal) fs := by
  refine .of_does (fun _ => .any V V) fun ctx b n => ?_
  exact .result (h ctx b n) (fun _ => rfl) fun _ _ _ _ _ => trivial

theorem bareCode_does (kind : Tree.BareStatement) (loc : Option Location) :
    StmtDoes S B strict [] (bareCode kind loc) (fun _ _ => do
        execBare S.toScene kind
        return .normal) [] := by
  refine .of_does (fun _ => .any Unit V) fun ctx b n => ?_
  unfold bareCode execBare
  cases bareConstruct? kind with
  | some construct => exact .throw_bind
  | none =>
    by_cases hkind : kind = .debugger
    · simp only [hkind, if_true]
      exact .result (.perform fun _ _ _ _ _ _ _ => rfl) (fun _ => rfl) fun _ _ _ _ _ => trivial
    · simp only [hkind, if_false]
      exact .pure rfl fun _ _ _ _ => trivial

theorem popScopes_does (count : Nat) :
    Does S B ctx b n K [] (popScopes ctx b count) (fun _ => b) (fun _ => .any Unit V)
      (fun _ => pure ()) [] := by
  unfold popScopes
  split
  · exact .quiet fun _ _ _ _ _ _ _ => rfl
  · exact .pure rfl fun _ _ _ _ => trivial

/-- Leaving frames, as many as the scopes say. -/
theorem popSome_does (read : Scope.Arena → Nat) : Does S B ctx b n K [] (do
        let count ← scopes read
        popScopes ctx b count) (fun _ => b) (fun _ => .any Unit V) (fun _ => pure ()) [] := by
  intro s x t hready hrun
  obtain ⟨count, u, hread, hrun⟩ := run_bind hrun
  cases hread
  exact popScopes_does _ s x t hready hrun

/-! ## Statements that leave -/

theorem returnCode_eq (argument : Option ExprCode) (ctx : Ctx) (b : BlockId) :
    returnCode argument ctx b = (do
      let r ← (do
        let r ← initCode argument ctx b
        let _ ← (do
          let count ← scopes (·.scopesToFunction ctx.scope)
          popScopes ctx r.block count)
        return r)
      perform ctx r.block (.ret r.value)
      newBlock ctx) := by
  simp only [returnCode, bind_assoc, pure_bind]

theorem returnCode_does {argument : Option ExprCode} {ev : Nat → StateM σ V}
    (h : ExprDoes S B (initCode argument) ev fs) :
    StmtDoes S B strict [] (returnCode argument) (fun _ n => do return .returns (← ev n)) fs := by
  intro ctx b n s d u hready hrun
  rw [returnCode_eq] at hrun
  obtain ⟨r, s1, h1, hrun⟩ := run_bind hrun
  obtain ⟨_, s2, h2, h3⟩ := run_bind hrun
  have p1 : Piece S B ctx b (.any Unit V) [] s s1 r.block (.register r.value) (fun _ => ev n) fs := by
    have hdoes : Does S B ctx b n (.any Unit V) [] (do
          let r ← initCode argument ctx b
          let _ ← (do
            let count ← scopes (·.scopesToFunction ctx.scope)
            popScopes ctx r.block count)
          return r) Lowered.block (fun r => .register r.value)
        (fun _ => ev n >>= fun v => pure () >>= fun _ => pure v) fs :=
      .bindLast (h ctx b n) fun r => .bindLast (popSome_does _) fun _ => .pure rfl fun _ _ _ h => h.2.1
    exact (hdoes.congr fun _ _ _ _ => by simp only [pure_bind, bind_pure]) s r s1 hready h1
  have g1 : Since S.firstId n B ctx b False fs s s1 := ⟨hready, p1.keeps⟩
  obtain ⟨g2, a2, _⟩ := g1.perform h2 p1.next p1.lt
  obtain ⟨g3, a3, _⟩ := g2.newBlock h3
  have := p1.keeps.blockCount
  refine ⟨g3.grows.weaken False.elim, .inr (by omega), by omega, ?_⟩
  intro _ addr hp
  obtain ⟨names, hruns⟩ := p1.plain (announced_nil _ _) hp
  refine ⟨names, fun A F hin fuel prev regs w hcells => ?_⟩
  have k2 : s2.Keeps ctx.func (fun _ => False) u := a3.keeps
  obtain ⟨prev', regs', hreach, _, hv⟩ := hruns A F (hin.part _ (a2.keeps.trans k2)) () prev regs
    w trivial hcells
  have hfetch := hin.fetch g1.func p1.grows.instCount a2 k2 id p1.lt
  exact hreach.andThen (Reaches.ret hfetch hv.2 prev' _)

/-- A jump to the target that the scopes give, which is where an outcome leads. -/
theorem jumpCode_does {label : Option Tree.Identifier} {loc : Option Location} {labeled : Construct}
    {missing : Error} {find : Scope.Arena → Scope.ScopeId → Option (BlockId × Nat)} (o : Outcome V)
    (hends : ∀ {s : State} {k A F fuel b index lo p w target pops}, find s.scopes k = some (target, pops) →
      Arrives S.toWorld A F lo p target 0 w →
      Ends S.toWorld A F fuel ⟨b, index, s.breakTo k, s.continueTo k⟩ lo p (o, w)) :
    StmtDoes S B strict [] (jumpCode label loc labeled missing find) (fun _ _ => pure o) [] := by
  intro ctx b n s d u hready hrun
  unfold jumpCode at hrun
  split at hrun
  · cases hrun
  · obtain ⟨found, s', hread, hrun⟩ := run_bind hrun
    cases hread
    dsimp only at hrun
    cases hfound : find s.scopes ctx.scope with
    | none =>
      rw [hfound] at hrun
      cases hrun
    | some found =>
      rw [hfound] at hrun
      obtain ⟨_, s1, h1, hrun⟩ := run_bind hrun
      obtain ⟨_, s2, h2, h3⟩ := run_bind hrun
      have p1 := popScopes_does (B := B) (K := .any Unit V) found.2 s _ s1 hready h1
      have g1 : Since S.firstId n B ctx b False [] s s1 := ⟨hready, p1.keeps⟩
      obtain ⟨g2, a2, _⟩ := g1.perform h2 p1.next p1.lt
      obtain ⟨g3, a3, _⟩ := g2.newBlock h3
      have := p1.keeps.blockCount
      refine ⟨g3.grows.weaken False.elim, .inr (by omega), by omega, fun _ addr hp => ?_⟩
      obtain ⟨names, hruns⟩ := p1.jump g1.func a2 (announced_nil _ _) hp
      refine ⟨names, fun A F hin fuel prev regs w hcells => hends hfound ?_⟩
      have k2 : s2.Keeps ctx.func (fun _ => False) u := a3.keeps
      obtain ⟨regs', hreach, hregs, _⟩ := hruns A F (hin.part _ k2) () prev regs w trivial hcells
      exact ⟨_, regs', hreach.mono, hregs⟩

theorem breakCode_does (label : Option Tree.Identifier) (loc : Option Location) :
    StmtDoes S B strict [] (breakCode label loc) (fun _ _ => pure .breaks) [] :=
  jumpCode_does .breaks fun hfound ha => ⟨_, congrArg (Option.map Prod.fst) hfound, ha⟩

theorem continueCode_does (label : Option Tree.Identifier) (loc : Option Location) :
    StmtDoes S B strict [] (continueCode label loc) (fun _ _ => pure .continues) [] :=
  jumpCode_does .continues fun hfound ha => ⟨_, congrArg (Option.map Prod.fst) hfound, ha⟩

/-! ## Choices -/

theorem ifThen_does (ht : ExprDoes S B test evt fs) (ha : StmtDoes S B strict [] consequent eva gs) :
    StmtDoes S B strict [] (ifCode test consequent none) (fun fuel n => do
        if ← S.decide (← evt n) then eva fuel (n + fs.length) else return .normal) (fs ++ gs) := by
  refine .of_flow fun ctx b n s d u hready hrun => ?_
  simp only [ifCode, run_bind_iff] at hrun
  obtain ⟨r, s0, h0, first, s1, h1, following, s2, h2, _, s3, h3, last, s4, h4, _, s5, h5, hrun⟩ := hrun
  cases hrun
  have p0 := ht ctx b n s r s0 hready h0
  have g0 : Since S.firstId n B ctx b (¬strict) fs s s0 := ⟨hready, p0.keeps.weaken False.elim⟩
  obtain ⟨g1, a1, _⟩ := g0.newBlock h1
  obtain ⟨g2, a2, _⟩ := g1.newBlock h2
  have := p0.keeps.blockCount; have := p0.next; have := p0.lt; have := hready.block
  have p2 := (p0.addBlock hready a1).addBlock hready a2
  obtain ⟨g3, a3, _⟩ := g2.perform h3 p0.next p2.lt
  have f4 := ha.flow (g3.ready (c := first)) h4
  have := f4.grows.blockCount; have := f4.next; have := f4.lt
  have g4 := g3.andThen f4.grows id
  obtain ⟨g5, a5, _⟩ := g4.perform h5 (.inr (by omega)) f4.lt
  refine ⟨g5.grows, .inr (by omega), by omega, fun hstrict addr hp => ?_⟩
  obtain ⟨names0, hruns0⟩ := p2.branch g2.func a3 hp
  obtain ⟨names4, hruns4⟩ := f4.jump g4.func a5 hstrict addr hp
  refine ⟨joinAt (s3.instCount ctx.func) names0 names4, fun A F hin fuel prev regs w hcells => ?_⟩
  have k3 : s3.Keeps ctx.func (fun _ => False) u := f4.grows.keepsCode.trans a5.keeps
  have hfirst : s3.len ctx.func first = 0 := by rw [a3.len_ne _, a2.len, a1.len_new]
  have hfollowing : u.len ctx.func d = 0 := by
    rw [a5.len_ne _, f4.grows.len, a3.len_ne _, a2.len_new]
  obtain ⟨regs1, hreach, hregs⟩ := hruns0 A F (hin.part _ k3) () prev regs w trivial hcells
  have hends := hruns4 A F (hin.part _ (.refl _ _ _) g3.grows.instCount) fuel r.block regs1
    (S.test (evt n w).1 (evt n w).2).2
    (hcells.grown g3.grows (not_not.mpr hstrict) hready.scope hregs)
  rw [hfirst, g3.breakTo, g3.continueTo] at hends
  rw [hfollowing]
  change Ends _ _ _ _ _ _ _ ((if (S.test (evt n w).1 (evt n w).2).1 then eva fuel (n + fs.length)
    else pure .normal) (S.test (evt n w).1 (evt n w).2).2)
  generalize S.test (evt n w).1 (evt n w).2 = out at hreach hends ⊢
  by_cases hout : out.1
  · rw [if_pos hout] at hreach ⊢
    exact hends.after hreach hregs g3.grows.instCount
  · rw [if_neg hout] at hreach ⊢
    exact ⟨r.block, regs1, hreach.mono, hregs⟩

theorem ifElse_does {alternate : StmtCode} {evb : Nat → Nat → StateM σ (Outcome V)} {hs : List Callable}
    (ht : ExprDoes S B test evt fs) (ha : StmtDoes S B strict [] consequent eva gs)
    (hb : StmtDoes S B strict [] alternate evb hs) :
    StmtDoes S B strict [] (ifCode test consequent (some alternate)) (fun fuel n => do
        if ← S.decide (← evt n) then eva fuel (n + fs.length)
        else evb fuel (n + fs.length + gs.length)) (fs ++ (gs ++ hs)) := by
  refine .of_flow fun ctx b n s d u hready hrun => ?_
  simp only [ifCode, run_bind_iff] at hrun
  obtain ⟨r, s0, h0, first, s1, h1, following, s2, h2, second, s3, h3, _, s4, h4, last, s5, h5, _,
    s6, h6, last', s7, h7, _, s8, h8, hrun⟩ := hrun
  cases hrun
  have p0 := ht ctx b n s r s0 hready h0
  have g0 : Since S.firstId n B ctx b (¬strict) fs s s0 := ⟨hready, p0.keeps.weaken False.elim⟩
  obtain ⟨g1, a1, _⟩ := g0.newBlock h1
  obtain ⟨g2, a2, _⟩ := g1.newBlock h2
  obtain ⟨g3, a3, _⟩ := g2.newBlock h3
  have := p0.keeps.blockCount; have := p0.next; have := p0.lt; have := hready.block
  have p3 := ((p0.addBlock hready a1).addBlock hready a2).addBlock hready a3
  obtain ⟨g4, a4, _⟩ := g3.perform h4 p0.next p3.lt
  have f5 := ha.flow (g4.ready (c := first)) h5
  have := f5.grows.blockCount; have := f5.next; have := f5.lt
  have g5 := g4.andThen f5.grows id
  obtain ⟨g6, a6, _⟩ := g5.perform h6 (.inr (by omega)) f5.lt
  have r7 := g6.ready (c := second)
  rw [List.length_append, ← Nat.add_assoc] at r7
  have f7 := hb.flow r7 h7
  have := f7.grows.blockCount; have := f7.next; have := f7.lt
  have g7 := g6.andThen f7.grows id
  obtain ⟨g8, a8, _⟩ := g7.perform h8 (.inr (by omega)) f7.lt
  have hgrows := g8.grows
  rw [List.append_assoc] at hgrows
  refine ⟨hgrows, .inr (by omega), by omega, fun hstrict addr hp => ?_⟩
  obtain ⟨names0, hruns0⟩ := p3.branch g3.func a4 hp
  obtain ⟨names5, hruns5⟩ := f5.jump g5.func a6 hstrict addr hp
  obtain ⟨names7, hruns7⟩ := f7.jump g7.func a8 hstrict addr hp
  have k6 : s6.Keeps ctx.func (fun _ => False) u := f7.grows.keepsCode.trans a8.keeps
  have k4 : s4.Keeps ctx.func (fun _ => False) u := (f5.grows.keepsCode.trans a6.keeps).trans k6
  have hmid : s4.instCount ctx.func ≤ s6.instCount ctx.func :=
    Nat.le_trans f5.grows.instCount (a6.follows ctx.scope).instCount
  refine ⟨joinAt (s4.instCount ctx.func) names0 (joinAt (s6.instCount ctx.func) names5 names7),
    fun A F hin fuel prev regs w hcells => ?_⟩
  have hfirst : s4.len ctx.func first = 0 := by
    rw [a4.len_ne _, a3.len, a2.len, a1.len_new]
  have hsecond : s6.len ctx.func second = 0 := by
    rw [a6.len_ne _, f5.grows.len, a4.len_ne _, a3.len_new]
  have hfollowing : u.len ctx.func d = 0 := by
    rw [a8.len_ne _, f7.grows.len, a6.len_ne _, f5.grows.len, a4.len_ne _, a3.len, a2.len_new]
  obtain ⟨regs1, hreach, hregs⟩ := hruns0 A F (hin.part _ k4) () prev regs w trivial hcells
  rw [hfollowing]
  change Ends _ _ _ _ _ _ _ ((if (S.test (evt n w).1 (evt n w).2).1 then eva fuel (n + fs.length)
    else evb fuel (n + fs.length + gs.length)) (S.test (evt n w).1 (evt n w).2).2)
  generalize S.test (evt n w).1 (evt n w).2 = out at hreach ⊢
  by_cases hout : out.1
  · rw [if_pos hout] at hreach ⊢
    have hends := hruns5 A F (hin.part _ k6 g4.grows.instCount) fuel r.block regs1 out.2
      (hcells.grown g4.grows (not_not.mpr hstrict) hready.scope hregs)
    rw [hfirst, g4.breakTo, g4.continueTo] at hends
    exact hends.after hreach hregs g4.grows.instCount
  · rw [if_neg hout] at hreach ⊢
    have hends := hruns7 A F (hin.part _ (.refl _ _ _) g6.grows.instCount) fuel r.block regs1
      out.2 (hcells.grown g6.grows (not_not.mpr hstrict) hready.scope hregs)
    rw [hsecond, g6.breakTo, g6.continueTo] at hends
    exact hends.after hreach hregs g6.grows.instCount

end ScriptIr.Run
