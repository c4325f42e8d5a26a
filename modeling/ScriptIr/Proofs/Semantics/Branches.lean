import ScriptIr.Proofs.Semantics.Expressions

/-!
# What code with branches does

An operand that may be skipped, a default and a choice end in a block that several blocks lead to,
where a phi takes the value that belongs to the block that control came from.

* `skippable_does`: an operand that may be skipped.
* `logicalCode_does`, `defaultCode_does`, `conditionalCode_does`: the kinds of code that branch.
-/
namespace ScriptIr.Run

open Code Context Lower ScriptIr.Tree

variable {V σ : Type} {S : Setting V σ} {B : FunctionSpec} {ι : Type}
  {ctx : Ctx} {b : BlockId} {n : Nat} {K : Context ι V}

variable {needed : Bool} {value : InstId} {v : ι → V} {right : ExprCode} {ev : Nat → StateM σ V}
  {fs gs : List Callable}

/-! ## Values that depend on where control came from -/

theorem incoming?_first (b c : BlockId) (v w : InstId) : incoming? b [(b, v), (c, w)] = some v := by
  simp [incoming?]

theorem incoming?_second {c : BlockId} (h : b ≠ c) (v w : InstId) :
    incoming? c [(b, v), (c, w)] = some w := by
  simp [incoming?, h]

/-- The machine goes to the first of two blocks if a condition comes out as `needed`. -/
theorem reaches_choice {W : World V σ} {A : Activation V} {F : Code.Function} {yes no : BlockId}
    {index : Nat} {regs : Registers V} {v c : InstId} {a : V}
    (hfetch : fetch? F b index = some (v, if needed then .branch c yes no else .branch c no yes))
    (hc : regs c = some a) (prev : BlockId) (w : σ) :
    Reaches W A F 1 (.running ⟨b, index, prev, regs, w⟩)
      (.running ⟨if (W.test a w).1 = needed then yes else no, 0, b, regs, (W.test a w).2⟩) := by
  cases needed with
  | true => exact Reaches.branch hfetch hc prev w
  | false =>
    have hreach := Reaches.branch (W := W) (A := A) hfetch hc prev w
    cases hout : (W.test a w).1 <;> simpa [hout] using hreach

/-- Control comes to a block with a phi, which takes the value of the block that control came from. -/
theorem reaches_join {W : World V σ} {A : Activation V} {F : Code.Function} {c join : BlockId}
    {k lo : Nat} {p : Status V σ} {regs regs' : Registers V} {incoming : List (BlockId × InstId)}
    {m x : InstId} {a : V} {w : σ} (hreach : Reaches W A F k p (.running ⟨join, 0, c, regs', w⟩))
    (hphi : fetch? F join 0 = some (m, .phi incoming)) (hx : incoming? c incoming = some x)
    (ha : regs' x = some a) (hregs : ∀ v < lo, regs' v = regs v) (hlo : lo ≤ m) :
    ∃ prev' regs', Reaches W A F 0 p (.running ⟨join, 1, prev', regs', w⟩) ∧
      (∀ v < lo, regs' v = regs v) ∧ (register m).holds a (m + 1) regs' :=
  ⟨c, _, hreach.andThen (.phi hphi hx ha w),
    fun v hv => (Registers.set_other _ _ (Nat.ne_of_lt (Nat.lt_of_lt_of_le hv hlo))).trans (hregs v hv),
    Nat.lt_succ_self _, Registers.set_same _ _ _⟩

/-! ## Operands that may be skipped -/

/-- Code that computes a condition and, if it comes out as `needed`, a second operand. The value is
that of the second operand, or else a given one. -/
def skippable (ctx : Ctx) (b : BlockId) (value : InstId) (test : Emit InstId) (needed : Bool)
    (right : ExprCode) : Emit Lowered := do
  let second ← newBlock ctx
  let following ← newBlock ctx
  let condition ← test
  perform ctx b
    (if needed then .branch condition second following else .branch condition following second)
  let r ← right ctx second
  perform ctx r.block (.jump following)
  return ⟨following, ← emit ctx following (.phi [(b, value), (r.block, r.value)])⟩

theorem skippable_does {test : Emit InstId} {evt : ι → StateM σ V} (hv : K.Gives (.register value) v)
    (ht : Does S B ctx b n K [] test (fun _ => b) register evt [])
    (hr : ExprDoes S B right ev fs) :
    Does S B ctx b n K [] (skippable ctx b value test needed right) Lowered.block
      (fun r => .register r.value)
      (fun i => do if (← S.decide (← evt i)) = needed then ev n else return v i) fs := by
  intro s0 result s7 hready hrun
  -- the states between the steps of the computation, and what has been lowered up to each of them
  simp only [skippable, run_bind_iff] at hrun
  obtain ⟨second, s1, h1, following, s2, h2, condition, s3, h3, _, s4, h4, r, s5, h5, _, s6, h6,
    phi, s, h7, hrun⟩ := hrun
  cases hrun
  have hb := hready.block
  obtain ⟨g1, a1, _⟩ := (Since.refl (B := B) hready False).newBlock h1
  obtain ⟨g2, a2, _⟩ := g1.newBlock h2
  have p3 := ht s2 condition s3 g2.ready h3
  have g3 := g2.andThen p3.keeps id
  have := p3.keeps.blockCount
  obtain ⟨g4, a4, _⟩ := g3.perform h4
  have p5 := hr ctx second n s4 r s5 g4.ready h5
  have g5 := g4.andThen p5.keeps id
  have := p5.keeps.blockCount; have := p5.next; have := p5.lt
  obtain ⟨g6, a6, _⟩ := g5.perform h6
  obtain ⟨g7, hphi, a7, _⟩ := g6.emit h7
  obtain ⟨names3, hruns3⟩ := p3.runs
  obtain ⟨names5, hruns5⟩ := p5.runs
  refine ⟨g7.grows.weaken False.elim, .inr (by dsimp only; omega), (by dsimp only; omega),
    joinAt (s3.instCount ctx.func) names3 names5, ?_⟩
  intro caps A F hw7 _ i prev regs w hK hsees
  -- the parts of the code in the finished code
  have hw6 := hw7.back g6 (a7.follows _)
  have hw5 := hw6.back g5 (a6.follows _)
  have hw4 := hw5.back g4 p5.keeps.follows
  have hw3 := hw4.back g3 (a4.follows _)
  have hlen2 : s2.len ctx.func b = s0.len ctx.func b := by rw [a2.len, a1.len]
  have hempty : ∀ c, s0.blockCount ctx.func ≤ c → c < s2.blockCount ctx.func → s4.len ctx.func c = 0 := by
    intro c hge hlt
    rw [a4.len_ne c, p3.keeps.len hlt (by omega), a2.len, a1.len, State.len_of_le hge]
  -- the condition
  obtain ⟨prev1, regs1, hreach1, hregs1, hcondition⟩ := hruns3 caps A F
    (hw3.from_ g2.grows.follows fun _ _ => joinAt_lt) (announced_nil _ _) i prev regs w
    (K.mono hK g2.grows.instCount fun _ _ => rfl)
    (hsees.grown g2.grows id hready.scope fun _ _ => rfl)
  rw [hlen2] at hreach1
  have hbranch := hw4.fetch g3 a4 (by omega)
  have hreach := hreach1.andThen
    (reaches_choice (W := S.toWorld) (A := A) hbranch hcondition.2 prev1 (evt i w).2)
  have hphi' := hw7.fetch g6 a7 (by omega)
  have hfollowing : s6.len ctx.func following = 0 := by
    rw [a6.len_ne _, p5.keeps.len, hempty _ (by omega) (by omega)]
  rw [hfollowing] at hphi'
  rw [a7.len_same, hfollowing]
  have hold : ∀ v < s0.instCount ctx.func, regs1 v = regs v := fun v hv =>
    hregs1 v (Nat.lt_of_lt_of_le hv g2.grows.instCount)
  have hmid : s3.instCount ctx.func ≤ s4.instCount ctx.func := (a4.follows ctx.scope).instCount
  rw [a7.instCount, hphi]
  -- what remains is the choice that the condition makes
  change ∃ prev' regs', Reaches S.toWorld A F 0 _ (.running ⟨following, 1, prev', regs',
    ((if (S.test (evt i w).1 (evt i w).2).1 = needed then ev n else pure (v i))
      (S.test (evt i w).1 (evt i w).2).2).2⟩) ∧ _ ∧ (register (s6.instCount ctx.func)).holds
        ((if (S.test (evt i w).1 (evt i w).2).1 = needed then ev n else pure (v i))
          (S.test (evt i w).1 (evt i w).2).2).1 _ _
  generalize S.test (evt i w).1 (evt i w).2 = out at hreach ⊢
  by_cases hneeded : out.1 = needed
  · -- the second operand is computed in its own block
    rw [if_pos hneeded] at hreach ⊢
    obtain ⟨prev2, regs2, hreach5, hregs5, hvalue⟩ := hruns5 caps A F
      (hw5.from_ g4.grows.follows fun _ hge _ => joinAt_ge (Nat.le_trans hmid hge))
      (announced_nil _ _) () b regs1 out.2 trivial
      (hsees.grown g4.grows id hready.scope hold)
    rw [hempty second (by omega) (by omega)] at hreach5
    have hjump := Reaches.jump (W := S.toWorld) (A := A) (hw6.fetch g5 a6 p5.lt) prev2 regs2 (ev n out.2).2
    have hne : b ≠ r.block := Nat.ne_of_lt (by omega)
    exact reaches_join ((hreach.andThen hreach5).andThen hjump) hphi' (incoming?_second hne _ _) hvalue.2
      (fun u hu => (hregs5 u (Nat.lt_of_lt_of_le hu g4.grows.instCount)).trans (hold u hu))
      g6.grows.instCount
  · rw [if_neg hneeded] at hreach ⊢
    have hgiven := (hv _ _ _ hK).2
    rw [← hold value (hv _ _ _ hK).1] at hgiven
    exact reaches_join hreach hphi' (incoming?_first _ _ _ _) hgiven hold g6.grows.instCount

/-- The condition on which an operator needs its second operand, computed from the first. -/
def logicalTest (ctx : Ctx) (b : BlockId) (op : LogicalOperator) (value : InstId) :
    Emit InstId := do
  match op with
  | .and | .or => return value
  | .nullish => emit ctx b (.binary .eq value (← emit ctx b .null))

variable (op : LogicalOperator)

theorem logicalCode_eq (left right : ExprCode) (ctx : Ctx) (b : BlockId) :
    logicalCode op left right ctx b = (do
      let l ← left ctx b
      skippable ctx l.block l.value (logicalTest ctx l.block op l.value) (op ≠ .or) right) := by
  cases op <;>
    simp [logicalCode, logicalBranch, skippable, logicalTest]

/-- The condition on which an operator needs its second operand. -/
def Scene.logicalTest (S : Scene V σ) (op : LogicalOperator) (first : V) : StateM σ V := do
  match op with
  | .and | .or => return first
  | .nullish => S.perform (.binary .equal first (← S.perform .null))

theorem logicalTest_does (hv : K.Gives (.register value) v) :
    Does S B ctx b n K [] (logicalTest ctx b op value) (fun _ => b) register
      (fun i => S.logicalTest op (v i)) [] := by
  cases op with
  | and | or => exact .pure rfl hv
  | nullish =>
    refine .bind (.act fun _ _ _ _ _ _ _ => rfl) fun _ => .act fun _ _ _ h _ _ _ => ?_
    simp [effect?, h.1.2, (hv _ _ _ h.2).2, Code.BinaryOp.operator]

theorem needsSecond_eq (S : Scene V σ) (op : LogicalOperator) (first : V) : S.needsSecond op first = (do
      return decide ((← S.decide (← S.logicalTest op first)) = decide (op ≠ .or))) := by
  cases op <;> simp [Scene.needsSecond, Scene.logicalTest]

theorem logicalCode_does {left : ExprCode} {evl evr : Nat → StateM σ V}
    (hl : ExprDoes S B left evl fs) (hr : ExprDoes S B right evr gs) :
    ExprDoes S B (logicalCode op left right) (fun n => do
        let a ← evl n
        if ← S.needsSecond op a then evr (n + fs.length) else return a) (fs ++ gs) := by
  intro ctx b n
  rw [logicalCode_eq]
  refine .bind (hl ctx b n) fun l => ?_
  have hgiven := Gives.last (.any Unit V) (.register l.value)
  refine (skippable_does hgiven (logicalTest_does op hgiven) hr).congr fun p _ _ _ => ?_
  rw [needsSecond_eq]
  simp

theorem defaultCode_eq (default : ExprCode) (ctx : Ctx) (b : BlockId) (value : InstId) :
    defaultCode default ctx b value = skippable ctx b value (do
        let undefined ← emit ctx b .undefined
        emit ctx b (.binary .strictEq value undefined)) true default := by
  simp [defaultCode, skippable]

theorem defaultCode_does {default : ExprCode} (h : ExprDoes S B default ev fs)
    (hv : K.Gives (.register value) v) :
    Does S B ctx b n K [] (defaultCode default ctx b value) Lowered.block (fun r => .register r.value)
      (fun i => do
        let missing ← S.perform (.binary .strictEqual (v i) (← S.perform .undefined))
        if ← S.decide missing then ev n else return v i) fs := by
  rw [defaultCode_eq]
  have htest : Does S B ctx b n K [] (do
        let undefined ← emit ctx b .undefined
        emit ctx b (.binary .strictEq value undefined)) (fun _ => b) register
      (fun i => do S.perform (.binary .strictEqual (v i) (← S.perform .undefined))) [] := by
    refine .bind (.act fun _ _ _ _ _ _ _ => rfl) fun _ => .act fun _ _ _ h _ _ _ => ?_
    simp [effect?, h.1.2, (hv _ _ _ h.2).2, Code.BinaryOp.operator]
  refine (skippable_does hv htest h).congr fun i _ _ _ => ?_
  simp

/-! ## Choices -/

theorem conditionalCode_does {test consequent alternate : ExprCode} {evt eva evb : Nat → StateM σ V}
    {hs : List Callable} (ht : ExprDoes S B test evt fs) (ha : ExprDoes S B consequent eva gs)
    (hb : ExprDoes S B alternate evb hs) :
    ExprDoes S B (conditionalCode test consequent alternate) (fun n => do
        if ← S.decide (← evt n) then eva (n + fs.length) else evb (n + fs.length + gs.length))
      (fs ++ (gs ++ hs)) := by
  intro ctx b n
  refine .bind (ht ctx b n) fun t => ?_
  intro s0 result s9 hready hrun
  simp only [run_bind_iff] at hrun
  obtain ⟨first, s1, h1, second, s2, h2, join, s3, h3, _, s4, h4, a, s5, h5, _, s6, h6, c, s7, h7,
    _, s8, h8, phi, s, h9, hrun⟩ := hrun
  cases hrun
  have hblock := hready.block
  obtain ⟨g1, a1, _⟩ := (Since.refl (B := B) hready False).newBlock h1
  obtain ⟨g2, a2, _⟩ := g1.newBlock h2
  obtain ⟨g3, a3, _⟩ := g2.newBlock h3
  obtain ⟨g4, a4, _⟩ := g3.perform h4
  have p5 := ha ctx first _ s4 a s5 g4.ready h5
  have g5 := g4.andThen p5.keeps id
  have := p5.keeps.blockCount; have := p5.next; have := p5.lt
  obtain ⟨g6, a6, _⟩ := g5.perform h6
  have p7 := hb ctx second _ s6 c s7 g6.ready h7
  have g7 := g6.andThen p7.keeps id
  have := p7.keeps.blockCount; have := p7.next; have := p7.lt
  obtain ⟨g8, a8, _⟩ := g7.perform h8
  obtain ⟨g9, hphi, a9, _⟩ := g8.emit h9
  obtain ⟨names5, hruns5⟩ := p5.runs
  obtain ⟨names7, hruns7⟩ := p7.runs
  refine ⟨g9.grows.weaken False.elim, .inr (by dsimp only; omega), (by dsimp only; omega),
    joinAt (s5.instCount ctx.func) names5 names7, ?_⟩
  intro caps A F hw9 _ i prev regs w hK hsees
  -- the parts of the code in the finished code
  have hw8 := hw9.back g8 (a9.follows _)
  have hw7 := hw8.back g7 (a8.follows _)
  have hw6 := hw7.back g6 p7.keeps.follows
  have hw5 := hw6.back g5 (a6.follows _)
  have hw4 := hw5.back g4 p5.keeps.follows
  have hempty : ∀ c, s0.blockCount ctx.func ≤ c → c < s3.blockCount ctx.func → s4.len ctx.func c = 0 := by
    intro c hge hlt
    rw [a4.len_ne c, a3.len, a2.len, a1.len, State.len_of_le hge]
  have hstart : s3.len ctx.func t.block = s0.len ctx.func t.block := by rw [a3.len, a2.len, a1.len]
  have hsecond : s6.len ctx.func second = 0 := by
    rw [a6.len_ne _, p5.keeps.len, hempty _ (by omega) (by omega)]
  have hjoin : s8.len ctx.func join = 0 := by
    rw [a8.len_ne _, p7.keeps.len, a6.len_ne _, p5.keeps.len, hempty _ (by omega) (by omega)]
  have hphi' := hw9.fetch g8 a9 (by omega)
  have hbranch := hw4.fetch g3 a4 (by omega)
  rw [hjoin] at hphi'
  rw [hstart] at hbranch
  rw [a9.len_same, hjoin, a9.instCount, hphi]
  have hreach := Reaches.branch (W := S.toWorld) (A := A) hbranch hK.1.2 prev w
  -- what remains is the choice that the condition makes
  change ∃ prev' regs', Reaches S.toWorld A F 0 _ (.running ⟨join, 1, prev', regs',
    ((if (S.test i.2 w).1 then eva (n + fs.length) else evb (n + fs.length + gs.length))
      (S.test i.2 w).2).2⟩) ∧ _ ∧ (register (s8.instCount ctx.func)).holds
        ((if (S.test i.2 w).1 then eva (n + fs.length) else evb (n + fs.length + gs.length))
          (S.test i.2 w).2).1 _ _
  generalize S.test i.2 w = out at hreach ⊢
  by_cases hout : out.1
  · rw [if_pos hout] at hreach ⊢
    obtain ⟨prev1, regs1, hreach5, hregs5, hvalue⟩ := hruns5 caps A F
      (hw5.from_ g4.grows.follows fun _ _ => joinAt_lt) (announced_nil _ _) () t.block regs
      out.2 trivial (hsees.grown g4.grows id hready.scope fun _ _ => rfl)
    rw [hempty first (by omega) (by omega)] at hreach5
    have hjump := Reaches.jump (W := S.toWorld) (A := A) (hw6.fetch g5 a6 p5.lt) prev1 regs1
      (eva (n + fs.length) out.2).2
    exact reaches_join ((hreach.andThen hreach5).andThen hjump) hphi' (incoming?_first _ _ _ _) hvalue.2
      (fun u hu => hregs5 u (Nat.lt_of_lt_of_le hu g4.grows.instCount)) g8.grows.instCount
  · rw [if_neg hout] at hreach ⊢
    obtain ⟨prev1, regs1, hreach7, hregs7, hvalue⟩ := hruns7 caps A F
      (hw7.from_ g6.grows.follows fun _ hge _ => joinAt_ge
        (Nat.le_trans (a6.follows ctx.scope).instCount hge))
      (announced_nil _ _) () t.block regs out.2 trivial
      (hsees.grown g6.grows id hready.scope fun _ _ => rfl)
    rw [hsecond] at hreach7
    have hjump := Reaches.jump (W := S.toWorld) (A := A) (hw8.fetch g7 a8 p7.lt) prev1 regs1
      (evb (n + fs.length + gs.length) out.2).2
    have hne : a.block ≠ c.block := fun he => by
      have he : @Eq Nat a.block c.block := he
      omega
    exact reaches_join ((hreach.andThen hreach7).andThen hjump) hphi' (incoming?_second hne _ _) hvalue.2
      (fun u hu => hregs7 u (Nat.lt_of_lt_of_le hu g6.grows.instCount)) g8.grows.instCount

end ScriptIr.Run
