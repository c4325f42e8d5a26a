import ScriptIr.Proofs.Semantics.Frames

/-!
# What loops do

The code of a loop makes a round after the other as long as the loop does. A round starts at the same
place of the code each time, and a body that is left by a jump goes where the loop says.

* `whileCode_does`, `doWhileCode_does`: loops with a test.
-/
namespace ScriptIr.Run

open Code Scope Lower ScriptIr.Tree

variable {V σ : Type} {S : Setting V σ} {B : FunctionSpec} {n : Nat}
  {ctx : Ctx} {b c : Nat} {strict : Prop} {fs gs : List Callable} {s t u : State}
  {l : ScopeId} {frame : Lower.Frame} {addr : String → V}

variable {ι β : Type} {K : Context ι V} {L : Context β V} {ev : ι → StateM σ β} {test : ExprCode}
  {body : StmtCode} {evt : Nat → StateM σ V} {evb : Nat → Nat → StateM σ (Outcome V)}

theorem Piece.bounds (h : Piece S B (ctx.withScope l) b K [] s t c L ev fs) : Bounds ctx b c s t :=
  ⟨h.grows.blockCount, h.grows.instCount, h.next, h.lt⟩

/-! ## Loops with a test -/

/-- What is lowered between two states makes the rounds of a loop in scope `l`, from the end of block
`start` on. Other blocks that were there are not touched, except those in `used`. -/
structure MakesRounds (S : Setting V σ) (B : FunctionSpec) (n : Nat)
    (ctx : Ctx) (b : Nat) (strict : Prop) (s t u : State) (used : List Nat) (start exit : BlockId)
    (ev : Nat → StateM σ (Outcome V)) (fs : List Callable) : Prop where
  since : Since S.firstId n B ctx b (¬strict) fs s u
  keeps : ∀ ex, t.Keeps ctx.func ex u
  blockCount : t.blockCount ctx.func ≤ u.blockCount ctx.func
  len : ∀ d < t.blockCount ctx.func, d ∉ used → u.len ctx.func d = t.len ctx.func d
  runs : strict → ∀ addr, Plain S addr → ∃ names, ∀ A F, Inside S ctx.func t u names A F →
    ∀ fuel prev regs w onBreak onContinue,
      Ends S.toWorld A F fuel ⟨exit, 0, onBreak, onContinue⟩ (t.instCount ctx.func)
        ⟨start, t.len ctx.func start, prev, regs, w⟩ (ev fuel w)

/-- The blocks of a loop are there and its scope is open; jumps out of it go to block `exit`, and jumps
to the next round to block `next`. -/
structure LoopOpen (S : Setting V σ) (B : FunctionSpec) (n : Nat) (ctx : Ctx)
    (b : Nat) (strict : Prop) (s t : State) (l : ScopeId) (next start first second exit : Nat) :
    Prop where
  since : Since S.firstId n B ctx b (¬strict) [] s t
  nested : Nested s ctx.scope l ctx.scope (some exit) (some next) t
  none : ∀ x, (t.scopes.get l).own? x = none
  ge : s.blockCount ctx.func ≤ start
  order : start < first ∧ first < second ∧ second < t.blockCount ctx.func
  empty : t.len ctx.func first = 0 ∧ t.len ctx.func second = 0

/-- The code of the rounds of a loop makes rounds. Jumps to the next round go to the block that `next`
says. -/
def RoundsDo (S : Setting V σ) (B : FunctionSpec) (strict : Prop)
    (next : Nat → Nat → Nat) (code : RoundsCode) (ev : Nat → Nat → StateM σ (Outcome V))
    (fs : List Callable) : Prop :=
  ∀ {n ctx b s t u l start first second exit} {x : Unit},
    LoopOpen S B n ctx b strict s t l (next first second) start first second exit →
    code ctx (ctx.withScope l) start first second exit t = .ok x u →
    MakesRounds S B n ctx b strict s t u [start, first, second] start exit (fun fuel => ev fuel n) fs

theorem whileRounds_do (ht : ExprDoes S B test evt fs) (hb : StmtDoes S B strict [] body evb gs) :
    RoundsDo S B strict (fun testing _ => testing) (whileRounds test body)
      (fun fuel n => rounds (fun _ => do
        if ← S.decide (← evt n) then
          afterBody (← evb fuel (n + fs.length)) (return .again ())
        else return .ended .normal) fuel ()) (fs ++ gs) := by
  intro n ctx b s t u l start testing round exit x hopen hrun
  obtain ⟨g, hn, hnone, hstart, ⟨hne, hne', hlt⟩, htest, hround⟩ := hopen
  simp only [whileRounds, run_bind_iff] at hrun
  obtain ⟨_, t1, h1, r, t2, h2, _, t3, h3, last, t4, h4, h5⟩ := hrun
  obtain ⟨g1, a1, _⟩ := g.perform h1 (.inr hstart) (by omega)
  have hn1 := hn.same (Plain.scopes_eq .jump h1)
  have p2 := ht (ctx.withScope l) testing n t1 r t2 (g1.readyIn hn1) h2
  have g2 := g1.inner hn1 p2.keeps
  have hn2 := hn1.grown p2.keeps.scopes
  have := p2.bounds
  obtain ⟨g3, a3, _⟩ := g2.perform h3
  have hn3 := hn2.same (Plain.scopes_eq (.perform rfl) h3)
  have f4 := hb.flow (g3.readyIn hn3) h4
  have g4 := g3.inner hn3 f4.grows
  have := f4.bounds
  obtain ⟨g5, a5, _⟩ := g4.perform h5
  have k3 : ∀ ex, t3.Keeps ctx.func ex u := fun _ => f4.grows.keepsCode.trans a5.keeps
  have k1 : ∀ ex, t1.Keeps ctx.func ex u := fun ex =>
    (p2.keeps.keepsCode.trans a3.keeps).trans (k3 ex)
  refine ⟨g5, fun ex => a1.keeps.trans (k1 ex), by omega, fun d hd hnot => ?_, fun hstrict addr hp => ?_⟩
  · simp only [List.mem_cons, List.not_mem_nil, or_false, not_or] at hnot
    rw [a5.len_ne d, f4.grows.len_inner d, a3.len_ne d, p2.grows.len_inner d, a1.len_ne d]
  obtain ⟨names2, hruns2⟩ := p2.branch g2.func a3 hp
  obtain ⟨names4, hruns4⟩ := f4.jump g4.func a5 hstrict addr hp
  refine ⟨joinAt (t3.instCount ctx.func) names2 names4,
    fun A F hin fuel prev regs w onBreak onContinue => ?_⟩
  have hin2 := hin.part (t := t1) names2 (k3 _)
  have hin4 := hin.part (t := t3) names4 (.refl _ _ _)
  have hjump := hin.fetch g.func le_rfl a1 (k1 fun _ => False) id (by omega)
  have htest1 : t1.len ctx.func testing = 0 := by rw [a1.len_ne _, htest]
  have hround3 : t3.len ctx.func round = 0 := by
    rw [a3.len_ne _, p2.grows.len_inner _, a1.len_ne _, hround]
  refine Ends.after (Reaches.jump hjump prev regs w) (.refl _ _) le_rfl ?_
  have hnone1 : ∀ x, (t1.scopes.get l).own? x = none := Plain.scopes_eq (.perform rfl) h1 ▸ hnone
  have hnone3 : ∀ x, (t3.scopes.get l).own? x = none := by
    rw [Plain.scopes_eq (.perform rfl) h3, p2.keeps.scopes.own l hn1.lt fun hf => hf.elim]
    exact hnone1
  refine rounds_ends (fun _ p => p.At testing) (fun _ p hat => ?_) le_rfl (.here ..)
  obtain ⟨prev, regs, w, rfl⟩ := hat
  obtain ⟨regs', hreach, hregs⟩ := hruns2 A F hin2 () prev regs w trivial (cells_of_none hnone1)
  dsimp only [Ctx.withScope] at hreach hregs
  rw [htest1] at hreach
  change RoundEnds _ _ _ _ _ _ _ _ _ ((if (S.test (evt n w).1 (evt n w).2).1 then
    (do afterBody (← evb fuel (n + fs.length)) (return .again ())) else pure (.ended .normal))
    (S.test (evt n w).1 (evt n w).2).2)
  generalize S.test (evt n w).1 (evt n w).2 = out at hreach ⊢
  by_cases hout : out.1
  · rw [if_pos hout] at hreach ⊢
    have hends := hruns4 A F hin4 fuel r.block regs' out.2 (cells_of_none hnone3)
    dsimp only [Ctx.withScope] at hends
    rw [hn3.breakTo, hn3.continueTo, hround3] at hends
    refine RoundEnds.step hreach hregs.mono ?_
    refine RoundEnds.afterBody hends (by omega)
      (fun prev' regs'' _ _ => ⟨prev', regs'', .refl _, .refl _ _⟩) fun prev' regs'' _ => ?_
    exact ⟨_, .refl _, .refl _ _, rfl, .here ..⟩
  · rw [if_neg hout] at hreach ⊢
    exact ⟨r.block, regs', hreach.mono, hregs.mono⟩

theorem doWhileRounds_do (ht : ExprDoes S B test evt fs) (hb : StmtDoes S B strict [] body evb gs) :
    RoundsDo S B strict (fun _ testing => testing) (doWhileRounds test body)
      (fun fuel n => rounds (fun _ => do
        afterBody (← evb fuel n) (do
          let v ← evt (n + gs.length)
          return againIf () (← S.decide v))) fuel ()) (gs ++ fs) := by
  intro n ctx b s t u l start round testing exit x hopen hrun
  obtain ⟨g, hn, hnone, hstart, ⟨hne, hne', hlt⟩, hround, htest⟩ := hopen
  simp only [doWhileRounds, run_bind_iff] at hrun
  obtain ⟨_, t1, h1, last, t2, h2, _, t3, h3, r, t4, h4, h5⟩ := hrun
  obtain ⟨g1, a1, _⟩ := g.perform h1 (.inr hstart) (by omega)
  have hn1 := hn.same (Plain.scopes_eq .jump h1)
  have f2 := hb.flow (g1.readyIn hn1) h2
  have g2 := g1.inner hn1 f2.grows
  have hn2 := hn1.grown f2.grows.scopes
  have := f2.bounds
  obtain ⟨g3, a3, _⟩ := g2.perform h3
  have hn3 := hn2.same (Plain.scopes_eq .jump h3)
  have p4 := ht (ctx.withScope l) testing (n + gs.length) t3 r t4 (g3.readyIn hn3) h4
  have g4 := g3.inner hn3 p4.keeps
  have := p4.bounds
  obtain ⟨g5, a5, _⟩ := g4.perform h5
  have k3 : ∀ ex, t3.Keeps ctx.func ex u := fun _ => p4.keeps.keepsCode.trans a5.keeps
  have k1 : ∀ ex, t1.Keeps ctx.func ex u := fun ex =>
    (f2.grows.keepsCode.trans a3.keeps).trans (k3 ex)
  refine ⟨g5, fun ex => a1.keeps.trans (k1 ex), by omega, fun d hd hnot => ?_, fun hstrict addr hp => ?_⟩
  · simp only [List.mem_cons, List.not_mem_nil, or_false, not_or] at hnot
    rw [a5.len_ne d, p4.grows.len_inner d, a3.len_ne d, f2.grows.len_inner d, a1.len_ne d]
  obtain ⟨names2, hruns2⟩ := f2.jump g2.func a3 hstrict addr hp
  obtain ⟨names4, hruns4⟩ := p4.branch g4.func a5 hp
  refine ⟨joinAt (t3.instCount ctx.func) names2 names4,
    fun A F hin fuel prev regs w onBreak onContinue => ?_⟩
  have hin2 := hin.part (t := t1) names2 (k3 _)
  have hin4 := hin.part (t := t3) names4 (.refl _ _ _)
  have hjump := hin.fetch g.func le_rfl a1 (k1 fun _ => False) id (by omega)
  have hround1 : t1.len ctx.func round = 0 := by rw [a1.len_ne _, hround]
  have htest3 : t3.len ctx.func testing = 0 := by
    rw [a3.len_ne _, f2.grows.len_inner _, a1.len_ne _, htest]
  have hnone1 : ∀ x, (t1.scopes.get l).own? x = none := Plain.scopes_eq .jump h1 ▸ hnone
  have hnone3 : ∀ x, (t3.scopes.get l).own? x = none := by
    rw [Plain.scopes_eq .jump h3, f2.grows.scopes.own l hn1.lt fun hf => absurd hstrict hf]
    exact hnone1
  refine Ends.after (Reaches.jump hjump prev regs w) (.refl _ _) le_rfl ?_
  refine rounds_ends (fun _ p => p.At round) (fun _ p hat => ?_) le_rfl (.here ..)
  obtain ⟨prev, regs, w, rfl⟩ := hat
  have hends := hruns2 A F hin2 fuel prev regs w (cells_of_none hnone1)
  dsimp only [Ctx.withScope] at hends
  rw [hn1.breakTo, hn1.continueTo, hround1] at hends
  refine RoundEnds.afterBody hends (by omega)
    (fun prev' regs'' _ _ => ⟨prev', regs'', .refl _, .refl _ _⟩) fun prev' regs'' _ => ?_
  obtain ⟨regs', hreach, hregs⟩ := hruns4 A F hin4 () prev' regs'' (evb fuel n w).2 trivial
    (cells_of_none hnone3)
  dsimp only [Ctx.withScope] at hreach hregs
  rw [htest3] at hreach
  generalize (evb fuel n w).2 = w' at hreach ⊢
  change RoundEnds _ _ _ _ _ _ _ _ _ (againIf () (S.test (evt (n + gs.length) w').1
    (evt (n + gs.length) w').2).1, (S.test (evt (n + gs.length) w').1 (evt (n + gs.length) w').2).2)
  generalize S.test (evt (n + gs.length) w').1 (evt (n + gs.length) w').2 = out at hreach ⊢
  unfold againIf
  by_cases hout : out.1
  · rw [if_pos hout] at hreach ⊢
    exact ⟨_, hreach, hregs.mono, rfl, .here ..⟩
  · rw [if_neg hout] at hreach ⊢
    exact ⟨r.block, regs', hreach.mono, hregs.mono⟩

theorem loopCode_does {next : Nat → Nat → Nat} {code : RoundsCode}
    {ev : Nat → Nat → StateM σ (Outcome V)} (h : RoundsDo S B strict next code ev fs) :
    StmtDoes S B strict [] (loopCode next code) ev fs := by
  refine .of_flow fun ctx b n s d u hready hrun => ?_
  simp only [loopCode, run_bind_iff] at hrun
  obtain ⟨l, s1, h1, exit, s2, h2, frame, s3, h3, first, s4, h4, second, s5, h5, _, s6, h6, _, s7,
    h7, _, t, h8, hrun⟩ := hrun
  have g0 := Since.refl (B := B) hready (¬strict)
  obtain ⟨g1, hn1, hm1, _, hnone⟩ := g0.newScope g0.under hready.scope h1
  obtain ⟨g2, a2, _⟩ := g1.newBlock h2
  obtain ⟨g3, o3, _⟩ := g2.openFrame h3
  obtain ⟨g4, a4, _⟩ := g3.newBlock h4
  obtain ⟨g5, a5, _⟩ := g4.newBlock h5
  have hs5 : s5.scopes = s1.scopes := by
    rw [Plain.newBlock.scopes_eq h5, Plain.newBlock.scopes_eq h4, o3.scopes,
      Plain.newBlock.scopes_eq h2]
  have hn5 := hn1.same hs5
  have hr6 := Retargets.of_setTargets hn5.lt h6
  obtain ⟨g6, hn6⟩ := g5.retarget hn5 hr6
  obtain ⟨hb1, hi1, hl1⟩ := State.same_code hm1 ctx.func
  obtain ⟨hb6, hi6, hl6⟩ := State.same_code hr6.module ctx.func
  have := hready.block; have := o3.entry; have := o3.body
  have := o3.push; have := o3.blockCount; have := o3.instCount
  obtain ⟨g7, a7, _⟩ := g6.perform h7
  have hs7 := Plain.scopes_eq .jump h7
  have hlen7 : ∀ d, d ≠ b → s7.len ctx.func d = s3.len ctx.func d := fun d hd => by
    rw [a7.len_other d hd, hl6, a5.len, a4.len]
  have m := h ⟨g7, hn6.same hs7, fun x => by rw [hs7, hr6.own, hs5]; exact hnone x, by omega,
    by omega, by rw [hlen7 _ (by omega), State.len_of_le],
    by rw [hlen7 _ (by omega), State.len_of_le]⟩ h8
  have := m.blockCount; have := hi6
  have k3 : s3.Keeps ctx.func (fun _ => False) s6 :=
    (a4.keeps.trans a5.keeps).trans (.of_module hr6.module)
  have hlen : s6.len ctx.func b = s.len ctx.func b := by
    rw [hl6, a5.len, a4.len, o3.len_other b (by omega), a2.len, hl1]
  have hentry : t.len ctx.func frame.entry = 0 := by
    rw [m.len _ (by omega) (by simp; omega), hlen7 _ (by omega), o3.len_entry]
  have hexit : t.len ctx.func exit = 0 := by
    rw [m.len _ (by omega) (by simp; omega), hlen7 _ (by omega), o3.len_other _ (by omega), a2.len_new]
  have hbody : s7.len ctx.func frame.body = 1 := by rw [hlen7 _ (by omega), o3.len_body]
  refine framed_flow g2 o3 g6 k3 hlen a7 m.keeps (by omega) hentry m.since (by omega) (by omega)
    (by omega) hrun fun hstrict addr hp => ?_
  obtain ⟨names, hruns⟩ := m.runs hstrict addr hp
  refine ⟨names, fun A F hin fuel prev regs w => ?_⟩
  have hin7 := hin.part (t := s7) names (.refl _ _ _)
  have hends := hruns A F hin7 fuel prev regs w (s.breakTo ctx.scope) (s.continueTo ctx.scope)
  rw [hbody] at hends
  rw [hexit]
  exact Ends.below hends (by omega)

theorem whileCode_does (ht : ExprDoes S B test evt fs) (hb : StmtDoes S B strict [] body evb gs) :
    StmtDoes S B strict [] (whileCode test body) (fun fuel n => rounds (fun _ => do
        if ← S.decide (← evt n) then
          afterBody (← evb fuel (n + fs.length)) (return .again ())
        else return .ended .normal) fuel ()) (fs ++ gs) :=
  loopCode_does (whileRounds_do ht hb)

theorem doWhileCode_does (ht : ExprDoes S B test evt fs) (hb : StmtDoes S B strict [] body evb gs) :
    StmtDoes S B strict [] (doWhileCode test body) (fun fuel n => rounds (fun _ => do
        afterBody (← evb fuel n) (do
          let v ← evt (n + gs.length)
          return againIf () (← S.decide v))) fuel ()) (gs ++ fs) :=
  loopCode_does (doWhileRounds_do ht hb)

end ScriptIr.Run
