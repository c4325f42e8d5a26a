import ScriptIr.Proofs.Semantics.Loops

/-!
# What loops with a head do

A round of a `for` loop runs in the loop's own scope, or in a further scope that holds copies of the
names that the head declares.

* `forCode_does`: the whole loop.
-/
namespace ScriptIr.Run

open Code List Scope Lower ScriptIr.Tree

variable {V σ : Type} {S : Setting V σ} {B : FunctionSpec} {n : Nat}
  {ctx : Ctx} {b c : Nat} {strict : Prop} {fs gs : List Callable} {s t u : State}
  {l : ScopeId} {frame : Lower.Frame} {addr : String → V}

variable {test update : Option ExprCode} {yes exit updating testing : BlockId} {x : Unit}
  {regs' : Registers V} {copy : StateM σ Unit} {body : StmtCode} {evt : Option (Nat → StateM σ V)}
  {evb : Nat → Nat → StateM σ (Outcome V)} {β ι : Type} {L : Context β V}
  {vars : List LoopVariable} {K : Context ι V} {hs : List Callable}

/-! ## Tests -/

/-- The code lowered between two states, from the end of block `b` on, goes to one block or another as
`ev` says. -/
structure Decides (S : Setting V σ) (B : FunctionSpec) (ctx : Ctx) (b : Nat)
    (s t : State) (yes no : BlockId) (ev : StateM σ Bool) (fs : List Callable) : Prop where
  grows : s.Grows B ctx.func ctx.scope False b fs t
  runs : ∀ addr, Plain S addr → ∃ names, ∀ A F, Inside S ctx.func s t names A F →
    ∀ prev regs w, Cells addr ctx s regs →
      ∃ prev' regs', Reaches S.toWorld A F 1 (.running ⟨b, s.len ctx.func b, prev, regs, w⟩)
          (.running ⟨if (ev w).1 then yes else no, 0, prev', regs', (ev w).2⟩) ∧
        Agree (s.instCount ctx.func) regs regs'

/-- The code of an optional expression does what the expression does. -/
inductive OptionalDoes (S : Setting V σ) (B : FunctionSpec) :
    Option ExprCode → Option (Nat → StateM σ V) → List Callable → Prop where
  | none : OptionalDoes S B none none []
  | some {code ev fs} : ExprDoes S B code ev fs → OptionalDoes S B (some code) (some ev) fs

def testOf (S : Setting V σ) : Option (Nat → StateM σ V) → Nat → StateM σ Bool
  | none, _ => return true
  | some ev, n => do S.decide (← ev n)

theorem forTest_decides {ev : Option (Nat → StateM σ V)} {no : BlockId}
    (h : OptionalDoes S B test ev fs) (hready : Ready S.firstId n ctx b s)
    (hrun : forTest test ctx b yes no s = .ok x t) :
    Decides S B ctx b s t yes no (testOf S ev n) fs := by
  cases h with
  | none =>
    obtain ⟨g1, a1, _⟩ := (Since.refl (B := B) hready False).perform hrun (.inl rfl) hready.block
    refine ⟨g1.grows, fun addr hp => ⟨fun _ => "", fun A F hin prev regs w _ => ?_⟩⟩
    have hjump := hin.fetch hready.func le_rfl a1 (.refl _ (fun _ => False) _) id hready.block
    exact ⟨b, regs, Reaches.jump hjump prev regs w, .refl _ _⟩
  | some h =>
    obtain ⟨r, s1, h1, h2⟩ := run_bind hrun
    have p1 := h ctx b n s r s1 hready h1
    have g1 : Since S.firstId n B ctx b False fs s s1 := ⟨hready, p1.keeps⟩
    obtain ⟨g2, a2, _⟩ := g1.perform h2 p1.next p1.lt
    refine ⟨g2.grows, fun addr hp => ?_⟩
    obtain ⟨names, hruns⟩ := p1.branch g1.func a2 hp
    refine ⟨names, fun A F hin prev regs w hcells => ?_⟩
    obtain ⟨regs', hreach, hregs⟩ := hruns A F hin () prev regs w trivial hcells
    exact ⟨r.block, regs', hreach, hregs⟩

/-! ## Rounds -/

def roundOf (test : StateM σ Bool) (copy : StateM σ Unit) (body : StateM σ (Outcome V))
    (rest : StateM σ (Round Unit V)) : StateM σ (Round Unit V) := do
  if ← test then
    copy
    afterBody (← body) (do copy; rest)
  else return .ended .normal

/-- The code lowered between two states, from the end of block `b` on, makes a round of a `for` loop up
to block `updating`. The loop is left to block `exit`. -/
structure RoundFlow (S : Setting V σ) (B : FunctionSpec) (ctx : Ctx) (b : Nat)
    (strict : Prop) (s t : State) (updating exit : BlockId) (test : StateM σ Bool)
    (copy : StateM σ Unit) (body : Nat → StateM σ (Outcome V)) (fs : List Callable) : Prop where
  grows : s.Grows B ctx.func ctx.scope (¬strict) b fs t
  runs : strict → ∀ addr, Plain S addr → ∃ names, ∀ A F, Inside S ctx.func s t names A F →
    ∀ fuel prev regs w onBreak onContinue Start rest, Cells addr ctx s regs →
      (∀ prev' regs' w', Agree (s.instCount ctx.func) regs regs' →
        RoundEnds S.toWorld A F 0 fuel ⟨exit, 0, onBreak, onContinue⟩ (s.instCount ctx.func) Start
          ⟨updating, 0, prev', regs', w'⟩ (rest w')) →
      RoundEnds S.toWorld A F 1 fuel ⟨exit, 0, onBreak, onContinue⟩ (s.instCount ctx.func) Start
        ⟨b, s.len ctx.func b, prev, regs, w⟩ (roundOf test copy (body fuel) rest w)

theorem roundOf_ends {W : World V σ} {A : Activation V} {F : Code.Function} {fuel lo : Nat}
    {prev' : BlockId} {onBreak onContinue : Option BlockId} {Start : Unit → Point V σ → Prop}
    {p : Point V σ} {test : StateM σ Bool} {body : StateM σ (Outcome V)}
    {rest : StateM σ (Round Unit V)}
    (hreach : Reaches W A F 1 (.running p) (.running ⟨if (test p.world).1 then yes else exit, 0,
      prev', regs', (test p.world).2⟩))
    (hregs : Agree lo p.regs regs')
    (h : ∀ w, RoundEnds W A F 0 fuel ⟨exit, 0, onBreak, onContinue⟩ lo Start ⟨yes, 0, prev', regs',
      w⟩ ((do copy; afterBody (← body) (do copy; rest)) w)) :
    RoundEnds W A F 1 fuel ⟨exit, 0, onBreak, onContinue⟩ lo Start p
      (roundOf test copy body rest p.world) := by
  change RoundEnds _ _ _ _ _ _ _ _ _ ((if (test p.world).1 then
    (do copy; afterBody (← body) (do copy; rest)) else pure (.ended .normal)) (test p.world).2)
  generalize test p.world = out at hreach ⊢
  by_cases hout : out.1
  · rw [if_pos hout] at hreach ⊢
    exact .step hreach hregs (h out.2)
  · rw [if_neg hout] at hreach ⊢
    exact ⟨prev', regs', hreach.mono, hregs⟩

/-- The rounds of a loop whose head declares nothing, once jumps to the next round go to the update. -/
def plainRound (test : Option ExprCode) (body : StmtCode) (ctx : Ctx)
    (testing updating exit : BlockId) : Emit Unit := do
  let round ← newBlock ctx
  forTest test ctx testing round exit
  let last ← body ctx round
  perform ctx last (.jump updating)

theorem plainRound_flow (ht : OptionalDoes S B test evt fs) (hb : StmtDoes S B strict [] body evb gs)
    (hready : Ready S.firstId n ctx b s) (hbreak : s.breakTo ctx.scope = some exit)
    (hcontinue : s.continueTo ctx.scope = some updating)
    (hrun : plainRound test body ctx b updating exit s = .ok x t) :
    RoundFlow S B ctx b strict s t updating exit (testOf S evt n) (pure ())
      (fun fuel => evb fuel (n + fs.length)) (fs ++ gs) := by
  simp only [plainRound, run_bind_iff] at hrun
  obtain ⟨round, s1, h1, _, s2, h2, last, s3, h3, h4⟩ := hrun
  obtain ⟨g1, a1, _⟩ := (Since.refl (B := B) hready (¬strict)).newBlock h1
  have := hready.block
  have d2 := forTest_decides ht (g1.ready (c := b)) h2
  have g2 := g1.andThen d2.grows False.elim
  have := d2.grows.blockCount; have := d2.grows.instCount
  have f3 := hb.flow (g2.ready (c := round)) h3
  have g3 := g2.andThen f3.grows id
  have := f3.grows.blockCount; have := f3.grows.instCount; have := f3.next
  obtain ⟨g4, a4, _⟩ := g3.perform h4 (.inr (by omega)) f3.lt
  refine ⟨g4.grows, fun hstrict addr hp => ?_⟩
  obtain ⟨names2, hruns2⟩ := d2.runs addr hp
  obtain ⟨names3, hruns3⟩ := f3.jump g3.func a4 hstrict addr hp
  refine ⟨joinAt (s2.instCount ctx.func) names2 names3,
    fun A F hin fuel prev regs w onBreak onContinue Start rest hcells hrest => ?_⟩
  have k2 : s2.Keeps ctx.func (fun _ => False) t := f3.grows.keepsCode.trans a4.keeps
  have hin2 := hin.part (t := s1) names2 k2
  have hin3 := hin.part (t := s2) names3 (.refl _ _ _)
  have hround : s2.len ctx.func round = 0 := by
    rw [d2.grows.len, a1.len_new]
  obtain ⟨prev', regs', hreach, hregs⟩ := hruns2 A F hin2 prev regs w
    (hcells.grown g1.grows (not_not.mpr hstrict) hready.scope (.refl _ _))
  rw [a1.len] at hreach
  have hregs : Agree (s.instCount ctx.func) regs regs' := hregs.mono
  refine roundOf_ends hreach hregs fun w' => ?_
  have hends := hruns3 A F hin3 fuel prev' regs' w'
    (hcells.grown g2.grows (not_not.mpr hstrict) hready.scope hregs)
  rw [g2.breakTo, g2.continueTo, hbreak, hcontinue, hround] at hends
  refine RoundEnds.afterBody hends (by omega)
    (fun prev'' regs'' _ _ => ⟨prev'', regs'', .refl _, .refl _ _⟩) fun prev'' regs'' hregs'' => ?_
  exact hrest prev'' regs'' _ (hregs.trans hregs'')

/-- What code that makes slots in an inner scope does to the sizes of the function. -/
theorem Opening.bounds {ev : StateM σ β} (h : Opening S B (ctx.withScope l) b s t L ev) :
    s.blockCount ctx.func ≤ t.blockCount ctx.func ∧ s.instCount ctx.func ≤ t.instCount ctx.func :=
  ⟨h.grows.blockCount, h.grows.instCount⟩

def endRound (ctx : Ctx) (ending : BlockId) (copies : List Copy) : Emit Unit := do
  copyAllOut ctx ending copies
  popScopes ctx ending 1

theorem endRound_does (copies : List Copy) :
    Does S B ctx b n (.copies S copies) [] (endRound ctx b copies) (fun _ => b)
      (fun _ => .any Unit V) (writeBack S) [] :=
  (Does.bindLast (copyAllOut_does copies) fun _ => popScopes_does 1).congr fun _ _ _ _ =>
    bind_pure _

/-! ## Frames of rounds -/

/-- The registers still hold the slots of a scope that has no new names. -/
theorem Cells.moved {regs : Registers V} (h : Cells addr ctx s regs)
    (hown : (t.scopes.get ctx.scope).own? = (s.scopes.get ctx.scope).own?)
    (hle : s.instCount ctx.func ≤ t.instCount ctx.func)
    (hregs : Agree (s.instCount ctx.func) regs regs') : Cells addr ctx t regs' := fun x v hx => by
  rw [hown] at hx
  exact ⟨Nat.lt_of_lt_of_le (h x v hx).1 hle, (hregs v (h x v hx).1).trans (h x v hx).2⟩

/-- The registers hold the slots of a scope after more code. -/
theorem Cells.since {regs : Registers V} (h : Cells addr ctx s regs)
    (hg : Since S.firstId n B ctx b (¬strict) fs s t) (hstrict : strict) : Cells addr ctx t regs :=
  h.grown hg.grows (not_not.mpr hstrict) hg.start.scope (.refl _ _)

theorem Cells.agree {regs regs' : Registers V} (h : Cells addr ctx s regs)
    (hregs : Agree (s.instCount ctx.func) regs regs') : Cells addr ctx s regs' :=
  h.moved rfl le_rfl hregs

/-- Opens a frame that is entered in each round of a loop. A round ends in a block of its own. -/
def openRound (ctx : Ctx) (aim : ScopeId → BlockId → Emit Unit) : Emit (Lower.Frame × BlockId) := do
  let scope ← newScope (some ctx.scope) .block
  let frame ← openFrame ctx scope
  let ending ← newBlock ctx
  aim scope ending
  return (frame, ending)

/-- Between the last two states a frame was opened for the rounds of a loop. -/
structure RoundOpen (S : Setting V σ) (B : FunctionSpec) (n : Nat) (ctx : Ctx) (b : Nat)
    (strict : Prop) (fs : List Callable) (s t u : State) (frame : Lower.Frame) (ending : BlockId)
    (onBreak : Option BlockId) : Prop where
  since : Since S.firstId n B ctx b (¬strict) fs s u
  nested : Nested s ctx.scope frame.scope ctx.scope onBreak (some ending) u
  none : ∀ x, (u.scopes.get frame.scope).own? x = none
  blocks : @Eq Nat frame.entry (t.blockCount ctx.func) ∧ @Eq Nat frame.body (t.blockCount ctx.func + 1) ∧
    @Eq Nat ending (t.blockCount ctx.func + 2) ∧ u.blockCount ctx.func = t.blockCount ctx.func + 3
  insts : @Eq Nat frame.push (t.instCount ctx.func) ∧ u.instCount ctx.func = t.instCount ctx.func + 1
  len_entry : u.len ctx.func frame.entry = 0
  len_body : u.len ctx.func frame.body = 1
  len_ending : u.len ctx.func ending = 0
  len : ∀ d < t.blockCount ctx.func, u.len ctx.func d = t.len ctx.func d
  keeps : ∀ ex, t.Keeps ctx.func ex u
  opened : ∃ t1 t2, t1.instCount ctx.func = t.instCount ctx.func ∧ Opens ctx.func frame t1 t2 ∧
    ∀ ex, t2.Keeps ctx.func ex u

theorem openRound_opens {aim : ScopeId → BlockId → Emit Unit} {onBreak : Option BlockId}
    {r : Lower.Frame × BlockId} (h : Since S.firstId n B ctx b (¬strict) fs s t)
    (haim : ∀ {l e t u x}, l < t.scopes.scopes.size → (t.scopes.get l).breakTarget = none →
      aim l e t = .ok x u → Retargets l onBreak (some e) t u)
    (hrun : openRound ctx aim t = .ok r u) : RoundOpen S B n ctx b strict fs s t u r.1 r.2 onBreak := by
  obtain ⟨l, t1, h1, hrun⟩ := run_bind hrun
  obtain ⟨frame, t2, h2, hrun⟩ := run_bind hrun
  obtain ⟨ending, t3, h3, hrun⟩ := run_bind hrun
  obtain ⟨_, t4, h4, hrun⟩ := run_bind hrun
  cases hrun
  obtain ⟨g1, hn1, hm1, _, hnone⟩ :=
    h.newScope h.under (Nat.lt_of_lt_of_le h.start.scope h.grows.scopes.size) h1
  obtain ⟨hb1, hi1, hl1⟩ := State.same_code hm1 ctx.func
  obtain ⟨g2, o2, rfl⟩ := g1.openFrame h2
  obtain ⟨g3, a3, hending, hb3, hi3⟩ := g2.newBlock h3
  have hs3 : t3.scopes = t1.scopes := by rw [Plain.newBlock.scopes_eq h3, o2.scopes]
  have hn3 := hn1.same hs3
  have hr4 := haim hn3.lt hn3.onBreak h4
  obtain ⟨g4, hn4⟩ := g3.retarget hn3 hr4
  obtain ⟨hb4, hi4, hl4⟩ := State.same_code hr4.module ctx.func
  have hlen : ∀ d, u.len ctx.func d = t2.len ctx.func d := fun d => by rw [hl4, a3.len]
  have k2 : ∀ ex, t2.Keeps ctx.func ex u := fun _ => a3.keeps.trans (.of_module hr4.module)
  have := o2.entry; have := o2.body; have := o2.push; have := o2.blockCount; have := o2.instCount
  exact {
    since := g4
    nested := hn4
    none := fun x => by rw [hr4.own, hs3]; exact hnone x
    blocks := by dsimp only; omega
    insts := by dsimp only; omega
    len_entry := by rw [hlen, o2.len_entry]
    len_body := by rw [hlen, o2.len_body]
    len_ending := by rw [hl4, a3.len_new]
    len := fun d hd => by rw [hlen, o2.len_other d (by omega), hl1]
    keeps := fun ex => ((State.Keeps.of_module hm1).trans (o2.keeps.mono fun _ => False.elim)).trans (k2 ex)
    opened := ⟨t1, t2, hi1, o2, k2⟩ }

/-- Control that comes to the entry of a frame goes on in its body. -/
def EntersRound (S : Setting V σ) (addr : String → V) (ctx : Ctx) (s t : State) (frame : Lower.Frame)
    (A : Activation V) (F : Code.Function) : Prop :=
  ∀ prev regs w, Cells addr ctx s regs → ∃ regs', Reaches S.toWorld A F 1
      (.running ⟨frame.entry, 0, prev, regs, w⟩) (.running ⟨frame.body, 1, frame.entry, regs', w⟩) ∧
    Agree (t.instCount ctx.func) regs regs'

theorem RoundOpen.enters {onBreak : Option BlockId} {ending : BlockId} {v w : State}
    (h : RoundOpen S B n ctx b strict fs s t u frame ending onBreak)
    (hg : Since S.firstId n B ctx b (¬strict) gs s v) (hc : Closes S ctx frame v w)
    (hk : u.Keeps ctx.func (· = frame.push) w) (hle : s.instCount ctx.func ≤ t.instCount ctx.func)
    (hlen : v.len ctx.func frame.entry = 0) (hstrict : strict) (hp : Plain S addr) :
    ∃ names, ∀ names' A F, Inside S ctx.func v w names A F → Inside S ctx.func s w names' A F →
      EntersRound S addr ctx s v frame A F := by
  obtain ⟨t1, t2, ht1, ho, hk2⟩ := h.opened
  obtain ⟨i, hi, hclosed⟩ := hc.runs
  obtain ⟨names, hruns⟩ := hclosed addr hp
  refine ⟨names, fun names' A F hin hin' prev regs w hcells => ?_⟩
  have hopened := hin'.fetch_opened ho (ht1 ▸ hle) ((hk2 _).trans hk) hi
  have := hruns A F hin hopened prev regs w (hcells.since hg hstrict)
  rwa [hlen] at this

theorem copyingRounds_eq (vars : List LoopVariable) (test : Option ExprCode) (body : StmtCode) (ctx : Ctx)
    (testing updating exit : BlockId) : copyingRounds vars test body ctx testing updating exit = (do
      let r ← openRound ctx fun scope ending => modifyScopes (·.setContinueTarget scope ending)
      forTest test ctx testing r.1.entry exit
      let copies ← copyAllIn (ctx.withScope r.1.scope) r.1.body vars
      let last ← body (ctx.withScope r.1.scope) r.1.body
      perform ctx last (.jump r.2)
      endRound ctx r.2 copies
      perform ctx r.2 (.jump updating)
      closeFrame ctx r.1) := by
  simp only [copyingRounds, openRound, openFrame, endRound, bind_assoc, pure_bind]

theorem copyingRounds_flow (ht : OptionalDoes S B test evt fs) (hb : StmtDoes S B strict [] body evb gs)
    (hready : Ready S.firstId n ctx b s) (hbreak : s.breakTo ctx.scope = some exit)
    (hrun : copyingRounds vars test body ctx b updating exit s = .ok x t) :
    RoundFlow S B ctx b strict s t updating exit (testOf S evt n) (S.copyNames (vars.map LoopVariable.name))
      (fun fuel => evb fuel (n + fs.length)) (fs ++ gs) := by
  simp only [copyingRounds_eq, run_bind_iff] at hrun
  obtain ⟨⟨frame, ending⟩, s4, h4, _, s5, h5, copies, s6, h6, hrun⟩ := hrun
  obtain ⟨last, s7, h7, _, s8, h8, _, s9, h9, _, s10, h10, h11⟩ := hrun
  have o4 : RoundOpen S B n ctx b strict [] s s s4 frame ending none :=
    openRound_opens (.refl hready _) (fun hl hb hrun => hb ▸ .of_setContinue hl hrun) h4
  have g4 := o4.since; have hn4 := o4.nested
  have := hready.block; have := o4.blocks; have := o4.insts
  dsimp only at *
  have d5 := forTest_decides ht (g4.ready (c := b)) h5
  have g5 := g4.andThen d5.grows False.elim
  have hn5 := hn4.grown d5.grows.scopes
  have := d5.grows.blockCount; have := d5.grows.instCount
  have o6 := copyAllIn_opens (B := B) (g5.readyIn hn5 (c := frame.body)) h6
  have g6 := g5.inner hn5 o6.grows
  have hn6 := hn5.grown o6.grows.scopes
  have := o6.bounds
  rw [append_nil] at g6
  have f7 := hb.flow (g6.readyIn hn6 (c := frame.body)) h7
  have g7 := g6.inner hn6 f7.grows
  have := f7.bounds
  obtain ⟨g8, a8, _⟩ := g7.perform h8
  obtain ⟨p9, g9, _, _⟩ := (endRound_does (B := B) copies).follows g8 h9
  obtain ⟨g10, a10, _⟩ := g9.perform h10 (.inr (by omega)) p9.lt
  obtain ⟨g11, c11⟩ := closeFrame_closes g10 h11
  have := c11.keeps.instCount
  refine ⟨g11.grows, fun hstrict addr hp => ?_⟩
  have k8 : s8.Keeps ctx.func (· = frame.push) t := (p9.keeps.keepsCode.trans a10.keeps).trans c11.keeps
  have k6 : s6.Keeps ctx.func (· = frame.push) t := (f7.grows.keepsCode.trans a8.keeps).trans k8
  have k5 : s5.Keeps ctx.func (· = frame.push) t := o6.grows.keepsCode.trans k6
  have hlen8 : ∀ d < s4.blockCount ctx.func, d ≠ b → d ≠ frame.body →
      s8.len ctx.func d = s4.len ctx.func d := fun d hd hne hne' => by
    rw [a8.len_ne d, f7.grows.len_inner d, o6.grows.len_inner d, d5.grows.len]
  have hentry : s10.len ctx.func frame.entry = 0 := by
    rw [a10.len_ne _, p9.keeps.len, hlen8 _ (by omega) (by omega) (by omega), o4.len_entry]
  obtain ⟨names5, hruns5⟩ := d5.runs addr hp
  obtain ⟨names6, hruns6⟩ := o6.runs addr hp
  obtain ⟨names7, hruns7⟩ := f7.jump g7.func a8 hstrict addr hp
  obtain ⟨names9, hruns9⟩ := p9.jump g9.func a10 (announced_nil _ _) hp
  obtain ⟨names11, henters⟩ :=
    o4.enters g10 c11 (d5.grows.keepsCode.trans k5) le_rfl hentry hstrict hp
  refine ⟨joinAt (s5.instCount ctx.func) names5 (joinAt (s6.instCount ctx.func) names6
    (joinAt (s8.instCount ctx.func) names7 (joinAt (s10.instCount ctx.func) names9 names11))),
    fun A F hin fuel prev regs w onBreak onContinue Start rest hcells hrest => ?_⟩
  have hin5 := hin.part (t := s4) names5 k5
  have hin6 := hin.part (t := s5) names6 k6
  have hin8 := hin.part (t := s6) names7 k8
  have hin10 := hin.part (t := s8) names9 c11.keeps
  have hin11 := hin.part (t := s10) names11 (.refl _ _ _)
  have hnone5 : ∀ x, (s5.scopes.get frame.scope).own? x = none := by
    rw [d5.grows.scopes.own _ hn4.lt fun hf => hf.elim]
    exact o4.none
  obtain ⟨prev1, regs1, hreach1, hregs1⟩ := hruns5 A F hin5 prev regs w (hcells.since g4 hstrict)
  rw [o4.len b hready.block] at hreach1
  replace hregs1 : Agree (s.instCount ctx.func) regs regs1 := hregs1.mono
  refine roundOf_ends hreach1 hregs1 fun w1 => ?_
  -- The frame of the round is entered.
  obtain ⟨regs2, hreach2, hregs2⟩ := henters _ A F hin11 hin prev1 regs1 w1 (hcells.agree hregs1)
  refine RoundEnds.after hreach2 hregs2.mono ?_
  replace hregs2 : Agree (s.instCount ctx.func) regs regs2 := hregs1.trans (hregs2.mono (by omega)) le_rfl
  -- The loop variables are copied.
  obtain ⟨prev3, regs3, hreach3, hregs3, hcells3, hcopies⟩ := hruns6 A F hin6 frame.entry regs2 w1
    (cells_of_none hnone5)
  dsimp only [Ctx.withScope] at hreach3 hregs3 hcopies
  rw [d5.grows.len, o4.len_body] at hreach3
  change RoundEnds _ _ _ _ _ _ _ _ _ ((do afterBody (← evb fuel (n + fs.length)) (do
    S.copyNames (vars.map LoopVariable.name); rest)) (S.copyNames (vars.map LoopVariable.name) w1).2)
  refine RoundEnds.after hreach3 hregs3.mono ?_
  replace hregs3 : Agree (s.instCount ctx.func) regs regs3 :=
    hregs2.trans (hregs3.mono (by omega)) le_rfl
  have hends := hruns7 A F hin8 fuel prev3 regs3 (S.copyNames (vars.map LoopVariable.name) w1).2 hcells3
  dsimp only [Ctx.withScope] at hends
  rw [hn6.breakTo, hn6.continueTo, g6.breakTo, hbreak] at hends
  refine RoundEnds.afterBody hends (by omega)
    (fun prev' regs' _ _ => ⟨prev', regs', .refl _, .refl _ _⟩) fun prev5 regs5 hregs5 => ?_
  -- The copies are written back.
  generalize (evb fuel (n + fs.length) (S.copyNames (vars.map LoopVariable.name) w1).2).2 = w5
  have hle : s6.instCount ctx.func ≤ s8.instCount ctx.func := by omega
  obtain ⟨regs6, hreach6, hregs6, _⟩ := hruns9 A F hin10 _ prev5 regs5 w5
    ((Context.copies S copies).mono hcopies hle hregs5)
    (hcells.grown g8.grows (not_not.mpr hstrict) hready.scope (hregs3.trans hregs5))
  rw [hlen8 _ (by omega) (by omega) (by omega), o4.len_ending, writeBack_eq hp] at hreach6
  refine RoundEnds.after hreach6 hregs6.mono (hrest _ _ _ ?_)
  exact (hregs3.trans hregs5).trans hregs6 (by omega)

/-! ## Code that declares names -/

/-- The code lowered between two states, from the end of block `b` to the end of block `c`, does what
`ev` says, and its scope may have new names. -/
structure Declares {ι : Type} (S : Setting V σ) (B : FunctionSpec) (ctx : Ctx)
    (b : Nat) (K : Context ι V) (s t : State) (c : Nat) (ev : ι → StateM σ Unit) (fs : List Callable) :
    Prop where
  grows : s.Grows B ctx.func ctx.scope True b fs t
  next : c = b ∨ s.blockCount ctx.func ≤ c
  lt : c < t.blockCount ctx.func
  runs : ∀ addr, Plain S addr → ∃ names, ∀ A F, Inside S ctx.func s t names A F →
    ∀ i prev regs w, K.holds i (s.instCount ctx.func) regs → Cells addr ctx s regs → ∃ prev' regs',
        Reaches S.toWorld A F 0 (.running ⟨b, s.len ctx.func b, prev, regs, w⟩)
          (.running ⟨c, t.len ctx.func c, prev', regs', (ev i w).2⟩) ∧
        Agree (s.instCount ctx.func) regs regs' ∧ Cells addr ctx t regs'

namespace Declares

variable {ev : ι → StateM σ Unit}

theorem of_opening {decl : List String} (hready : Ready S.firstId n ctx b s)
    (h : Opening S B ctx b s t (.any Unit V) (pure ())) (hann : Announced t ctx.scope decl)
    (h' : Piece S B ctx b K decl t u c (.any Unit V) ev fs) : Declares S B ctx b K s u c ev fs := by
  refine ⟨h.grows.after h'.grows hready.func hready.scope (.inl rfl) fun _ => trivial,
    h'.next.imp_right (Nat.le_trans h.grows.blockCount), h'.lt, fun addr hp => ?_⟩
  obtain ⟨names, hruns⟩ := h.runs addr hp
  obtain ⟨names', hruns'⟩ := h'.plain hann hp
  refine ⟨joinAt (t.instCount ctx.func) names names', fun A F hin i prev regs w hK hcells => ?_⟩
  obtain ⟨prev1, regs1, hreach, hregs, hcells1, _⟩ :=
    hruns A F (hin.part _ h'.grows.keepsCode) prev regs w hcells
  obtain ⟨prev2, regs2, hreach', hregs', _⟩ :=
    hruns' A F (hin.part _ (.refl _ _ _) h.grows.instCount) i prev1 regs1 w
    (K.mono hK h.grows.instCount hregs) hcells1
  exact ⟨prev2, regs2, hreach.andThen hreach', hregs.trans hregs' h.grows.instCount,
    hcells1.grown h'.grows (not_not.mpr hann) (Nat.lt_of_lt_of_le hready.scope h.grows.scopes.size) hregs'⟩

theorem of_piece (hready : Ready S.firstId n ctx b s)
    (h : Piece S B ctx b K [] s t c (.any Unit V) ev fs) : Declares S B ctx b K s t c ev fs :=
  of_opening hready (.refl S B ctx b s) (announced_nil _ _) h

end Declares

theorem Declares.bounds {ev : ι → StateM σ Unit} (h : Declares S B (ctx.withScope l) b K s t c ev fs) :
    Bounds ctx b c s t :=
  ⟨h.grows.blockCount, h.grows.instCount, h.next, h.lt⟩

/-! ## Heads -/

/-- The code of the first part of a head does what the part does, and answers the names it declares. -/
def HeadDoes (S : Setting V σ) (B : FunctionSpec) (code : HeadCode)
    (names : List String) (ev : Nat → StateM σ Unit) (fs : List Callable) : Prop :=
  ∀ ctx b n s r t, Ready S.firstId n ctx b s → code ctx b s = .ok r t →
    r.2.map LoopVariable.name = names ∧ Declares S B ctx b (.any Unit V) s t r.1 (fun _ => ev n) fs

theorem emptyHead_does : HeadDoes S B emptyHead [] (fun _ => pure ()) [] := by
  intro ctx b n s r t hready hrun
  have hdoes : Does S B ctx b n (.any Unit V) [] (emptyHead ctx b) Prod.fst
      (fun _ => .any Unit V) (fun _ => pure ()) [] := .pure rfl fun _ _ _ _ => trivial
  refine ⟨?_, .of_piece hready (hdoes s r t hready hrun)⟩
  cases hrun
  rfl

theorem expressionHead_does {code : ExprCode} {ev : Nat → StateM σ V} (h : ExprDoes S B code ev fs) :
    HeadDoes S B (expressionHead code) [] (fun n => do discard (ev n)) fs := by
  intro ctx b n s r t hready hrun
  have hdoes : Does S B ctx b n (.any Unit V) [] (expressionHead code ctx b) Prod.fst
      (fun _ => .any Unit V) (fun _ => (fun _ => ()) <$> ev n) fs :=
    .result ((h ctx b n).imp fun _ _ _ _ _ => trivial) (fun _ => rfl) fun _ _ _ _ h => h
  refine ⟨?_, .of_piece hready (hdoes s r t hready hrun)⟩
  obtain ⟨_, _, _, hrun⟩ := run_bind hrun
  cases hrun
  rfl

theorem announce_opens {d : Tree.Declaration} (hready : Ready S.firstId n ctx b s)
    (hrun : announce ctx b d s = .ok x t) :
    Opening S B ctx b s t (.any Unit V) (pure ()) ∧ Announced t ctx.scope d.boundNames := by
  obtain ⟨_, s1, h1, h2⟩ := run_bind hrun
  unfold checkBlockWide at h1
  split at h1 <;> cases h1
  exact announceNames_opens hready h2

theorem declarationHead_does (d : Tree.Declaration) {code : StmtCode} {ev : Nat → StateM σ Unit}
    (h : ∀ ctx b n, Does S B ctx b n (.any Unit V) d.boundNames (code ctx b) id
      (fun _ => .any Unit V) (fun _ => ev n) fs) :
    HeadDoes S B (declarationHead d code) d.boundNames ev fs := by
  intro ctx b n s r t hready hrun
  obtain ⟨_, s1, h1, hrun⟩ := run_bind hrun
  obtain ⟨c, s2, h2, hrun⟩ := run_bind hrun
  cases hrun
  obtain ⟨o1, hann⟩ := announce_opens (B := B) hready h1
  have r1 := hready.grown o1.grows (Nat.lt_of_lt_of_le hready.block o1.grows.blockCount)
  refine ⟨?_, .of_opening hready o1 hann (h ctx b n s1 c t r1 h2)⟩
  show map LoopVariable.name (d.boundNames.map _) = d.boundNames
  rw [map_map]
  exact map_id _

/-! ## Updates -/

def updateOf : Option (Nat → StateM σ V) → Nat → StateM σ Unit
  | none, _ => return ()
  | some ev, n => do discard (ev n)

theorem updatePart_does {ev : Option (Nat → StateM σ V)} (h : OptionalDoes S B update ev fs) (ctx : Ctx)
    (b n : Nat) :
    Does S B ctx b n (.any Unit V) [] (updatePart update ctx b) id (fun _ => .any Unit V)
      (fun _ => updateOf ev n) fs := by
  cases h with
  | none => exact .pure rfl fun _ _ _ _ => trivial
  | @some code ev _ h =>
    have hdoes : Does S B ctx b n (.any Unit V) [] (updatePart (Option.some code) ctx b) id
        (fun _ => .any Unit V) (fun _ => (fun _ => ()) <$> ev n) fs :=
      .result ((h ctx b n).imp fun _ _ _ _ _ => trivial) (fun _ => rfl) fun _ _ _ _ h => h
    exact hdoes

/-! ## The whole loop -/

theorem RoundFlow.loop {test : StateM σ Bool} {body : Nat → StateM σ (Outcome V)} {last : Nat}
    {evu : StateM σ Unit} {v : State}
    (h : RoundFlow S B ctx testing strict s t updating exit test copy body fs)
    (hu : Piece S B ctx updating (.any Unit V) [] t u last (.any Unit V) (fun _ => evu) gs)
    (ha : State.Pushes ctx.func last (.jump testing) u v) (hready : Ready S.firstId n ctx testing s)
    (hf : ctx.func < u.fnCount) (htesting : s.len ctx.func testing = 0)
    (hupdating : t.len ctx.func updating = 0) (hstrict : strict) (hp : Plain S addr) :
    ∃ names, ∀ A F, Inside S ctx.func s v names A F → ∀ fuel prev regs w onBreak onContinue,
      Cells addr ctx s regs →
      Ends S.toWorld A F fuel ⟨exit, 0, onBreak, onContinue⟩ (s.instCount ctx.func)
        ⟨testing, 0, prev, regs, w⟩
        (rounds (fun _ => roundOf test copy (body fuel) (do evu; return .again ())) fuel () w) := by
  obtain ⟨names1, hruns1⟩ := h.runs hstrict addr hp
  obtain ⟨names2, hruns2⟩ := hu.jump hf ha (announced_nil _ _) hp
  refine ⟨joinAt (t.instCount ctx.func) names1 names2,
    fun A F hin fuel prev regs w onBreak onContinue hcells => ?_⟩
  have k : t.Keeps ctx.func (fun _ => False) v := hu.keeps.keepsCode.trans ha.keeps
  have hin1 := hin.part names1 k le_rfl
  have hin2 := hin.part (t := t) names2 (.refl _ _ _) h.grows.instCount
  -- A round starts at the test, in registers that hold the slots of the loop's scope.
  refine rounds_ends (fun _ p => p.At testing ∧ Cells addr ctx s p.regs) (fun _ p hat => ?_)
    le_rfl ⟨.here .., hcells⟩
  obtain ⟨⟨prev, regs, w, rfl⟩, hcells⟩ := hat
  have hround := hruns1 A F hin1 fuel prev regs w onBreak onContinue
    (fun _ p => p.At testing ∧ Cells addr ctx s p.regs) (do evu; return .again ()) hcells
  rw [htesting] at hround
  refine hround fun prev' regs' w' hregs' => ?_
  obtain ⟨regs'', hreach, hregs'', _⟩ := hruns2 A F hin2 () prev' regs' w' trivial
    (hcells.grown h.grows (not_not.mpr hstrict) hready.scope hregs')
  rw [hupdating] at hreach
  replace hregs'' := hregs''.mono h.grows.instCount
  exact ⟨_, hreach.mono, hregs'', rfl, .here .., hcells.moved rfl le_rfl (hregs'.trans hregs'')⟩

/-- The rounds of a loop with a head. Jumps to the next round are given their target first, if the loop
has no copies. -/
theorem forRounds_flow (ht : OptionalDoes S B test evt fs) (hb : StmtDoes S B strict [] body evb gs)
    (h : Since S.firstId n B ctx b (¬strict) hs s t)
    (hin : Nested s ctx.scope l ctx.scope (some exit) none t) (hlt : t.blockCount ctx.func > testing)
    (hrun : forRounds vars test body (ctx.withScope l) testing updating exit t = .ok x u) :
    ∃ t' y, Since S.firstId n B ctx b (¬strict) hs s t' ∧
      Nested s ctx.scope l ctx.scope (some exit) y t' ∧ t'.module = t.module ∧
      (∀ k, (t'.scopes.get k).own? = (t.scopes.get k).own?) ∧
      RoundFlow S B (ctx.withScope l) testing strict t' u updating exit
        (testOf S evt (n + hs.length)) (S.copyNames (vars.map LoopVariable.name))
        (fun fuel => evb fuel (n + hs.length + fs.length)) (fs ++ gs) := by
  unfold forRounds at hrun
  split at hrun
  next hempty =>
    obtain ⟨_, t', h1, h2⟩ := run_bind hrun
    have hr := Retargets.of_setContinue hin.lt h1
    rw [hin.onBreak] at hr
    obtain ⟨g', hn'⟩ := h.retarget hin hr
    obtain ⟨hb', _, _⟩ := State.same_code hr.module ctx.func
    have hround := plainRound_flow ht hb (g'.readyIn hn' (c := testing))
      (hn'.breakTo.trans rfl) (hn'.continueTo.trans rfl) h2
    rw [isEmpty_iff.1 hempty]
    exact ⟨t', some updating, g', hn', hr.module, hr.own, hround⟩
  · have hround := copyingRounds_flow ht hb (h.readyIn hin (c := testing) hlt) (hin.breakTo.trans rfl) hrun
    exact ⟨t, none, h, hin, rfl, fun _ => rfl, hround⟩

theorem forCode_does {head : HeadCode} {names : List String} {evh : Nat → StateM σ Unit}
    {evu : Option (Nat → StateM σ V)} {us : List Callable} (hh : HeadDoes S B head names evh hs)
    (ht : OptionalDoes S B test evt fs) (hb : StmtDoes S B strict [] body evb gs)
    (hu : OptionalDoes S B update evu us) :
    StmtDoes S B strict [] (forCode head test update body) (fun fuel n => do
        evh n
        rounds (fun _ => roundOf (testOf S evt (n + hs.length)) (S.copyNames names)
          (evb fuel (n + hs.length + fs.length)) (do
            updateOf evu (n + hs.length + fs.length + gs.length)
            return .again ())) fuel ()) (hs ++ (fs ++ (gs ++ us))) := by
  refine .of_flow fun ctx b n s d u hready hrun => ?_
  simp only [forCode, run_bind_iff] at hrun
  obtain ⟨l, s1, h1, exit, s2, h2, frame, s3, h3, _, s4, h4, _, s5, h5, r, s6, h6, testing, s7, h7,
    updating, s8, h8, _, s9, h9, _, s10, h10, last, s11, h11, _, t, h12, hrun⟩ := hrun
  have g0 := Since.refl (B := B) hready (¬strict)
  obtain ⟨g1, hn1, hm1, _, hnone⟩ := g0.newScope g0.under hready.scope h1
  obtain ⟨g2, a2, _⟩ := g1.newBlock h2
  obtain ⟨g3, o3, _⟩ := g2.openFrame h3
  have hs3 : s3.scopes = s1.scopes := by rw [o3.scopes, Plain.newBlock.scopes_eq h2]
  have hn3 := hn1.same hs3
  have hr4 := Retargets.of_setBreak hn3.lt h4
  rw [hn3.onContinue] at hr4
  obtain ⟨g4, hn4⟩ := g3.retarget hn3 hr4
  obtain ⟨hb1, hi1, hl1⟩ := State.same_code hm1 ctx.func
  obtain ⟨hb4, hi4, hl4⟩ := State.same_code hr4.module ctx.func
  have := hready.block
  have := o3.entry; have := o3.body; have := o3.push; have := o3.blockCount; have := o3.instCount
  obtain ⟨g5, a5, _⟩ := g4.perform h5
  have hs5 := Plain.scopes_eq .jump h5
  have hn5 := hn4.same hs5
  obtain ⟨hnames, e6⟩ := hh (ctx.withScope l) frame.body n s5 r s6 (g5.readyIn hn5) h6
  have g6 := g5.inner hn5 e6.grows
  have hn6 := hn5.grown e6.grows.scopes
  have := e6.bounds
  obtain ⟨g7, a7, _⟩ := g6.newBlock h7
  obtain ⟨g8, a8, _⟩ := g7.newBlock h8
  obtain ⟨g9, a9, _⟩ := g8.perform h9
  have hs9 : s9.scopes = s6.scopes := by
    rw [Plain.scopes_eq .jump h9, Plain.newBlock.scopes_eq h8,
      Plain.newBlock.scopes_eq h7]
  obtain ⟨s9', y, g9', hn9', hm9', hown, R⟩ := forRounds_flow ht hb g9 (hn6.same hs9) (by omega) h10
  subst hnames
  obtain ⟨hb9, hi9, hl9⟩ := State.same_code hm9' ctx.func
  have hr9 := g9'.readyIn hn9' (c := testing)
  have g10 := g9'.inner hn9' R.grows
  have hn10 := hn9'.grown R.grows.scopes
  have hle10 : s9'.blockCount ctx.func ≤ s10.blockCount ctx.func := R.grows.blockCount
  have hle10' : s9'.instCount ctx.func ≤ s10.instCount ctx.func := R.grows.instCount
  have p11 : Piece S B (ctx.withScope l) updating (.any Unit V) [] s10 s11 last (.any Unit V)
      (fun _ => updateOf evu _) us :=
    updatePart_does hu (ctx.withScope l) updating _ s10 last s11 (g10.readyIn hn10) h11
  have g11 := g10.inner hn10 p11.keeps
  have := p11.bounds
  obtain ⟨g12, a12, _⟩ := g11.perform h12
  have k9 : ∀ ex, s9.Keeps ctx.func ex t := fun _ =>
    ((State.Keeps.of_module hm9').trans R.grows.keepsCode).trans (p11.keeps.keepsCode.trans a12.keeps)
  have k6 : ∀ ex, s6.Keeps ctx.func ex t := fun ex =>
    ((a7.keeps.trans a8.keeps).trans a9.keeps).trans (k9 ex)
  have k5 : ∀ ex, s5.Keeps ctx.func ex t := fun ex => e6.grows.keepsCode.trans (k6 ex)
  have hlen : s4.len ctx.func b = s.len ctx.func b := by
    rw [hl4, o3.len_other b (by omega), a2.len, hl1]
  -- The code of the loop ends where its test, its update and its rounds do, and leaves other blocks.
  have hlen10 : ∀ d < s9'.blockCount ctx.func, d ≠ testing → s10.len ctx.func d = s9.len ctx.func d :=
    fun d hd hne => (R.grows.len hd hne).trans (hl9 d)
  have hlen5 : ∀ d < s5.blockCount ctx.func, d ≠ frame.body → d ≠ b →
      t.len ctx.func d = s3.len ctx.func d := fun d hd hne hb => by
    rw [a12.len_ne d, p11.grows.len_inner d, hlen10 d (by omega) (by omega),
      a9.len_ne d, a8.len, a7.len, e6.grows.len_inner d, a5.len_other d hb, hl4]
  have hentry : t.len ctx.func frame.entry = 0 := by
    rw [hlen5 _ (by omega) (by omega) (by omega), o3.len_entry]
  have hexit : t.len ctx.func exit = 0 := by
    rw [hlen5 _ (by omega) (by omega) (by omega), o3.len_other _ (by omega), a2.len_new]
  have hbody : s5.len ctx.func frame.body = 1 := by
    rw [a5.len_ne _, hl4, o3.len_body]
  have htesting : s9'.len ctx.func testing = 0 := by
    rw [hl9, a9.len_ne _, a8.len, a7.len_new]
  have hupdating : s10.len ctx.func updating = 0 := by
    rw [hlen10 _ (by omega) (by omega), a9.len_ne _, a8.len_new]
  have g : Since S.firstId n B ctx b (¬strict) (hs ++ (fs ++ (gs ++ us))) s t := by
    simpa only [nil_append, append_assoc] using g12
  refine framed_flow g2 o3 g4 (.of_module hr4.module) hlen a5 k5 (by omega) hentry g (by omega)
    (by omega) (by omega) hrun fun hstrict addr hp => ?_
  obtain ⟨names6, hruns6⟩ := e6.runs addr hp
  obtain ⟨names9, hruns9⟩ := R.loop p11 a12 hr9 g11.func htesting hupdating hstrict hp
  refine ⟨joinAt (s6.instCount ctx.func) names6 names9, fun A F hin fuel prev regs w => ?_⟩
  have hin6 := hin.part (t := s5) names6 (k6 _)
  have hin9 := hin.part (t := s9') names9 (.refl _ _ _)
  have hjump := hin.fetch (t := s8) g8.func (by omega) a9 (k9 fun _ => False) id (by omega)
  have hnone5 : ∀ x, (s5.scopes.get l).own? x = none := fun x => by
    rw [hs5, hr4.own, hs3]
    exact hnone x
  obtain ⟨prev', regs', hreach, hregs, hcells⟩ := hruns6 A F hin6 () prev regs w trivial
    (cells_of_none hnone5)
  dsimp only [Ctx.withScope] at hreach hregs
  rw [hbody] at hreach
  have hown9 : (s9'.scopes.get l).own? = (s6.scopes.get l).own? := by rw [hown, hs9]
  have hends := hruns9 A F hin9 fuel r.1 regs' (evh n w).2 (s.breakTo ctx.scope) (s.continueTo ctx.scope)
    (hcells.moved hown9 (by dsimp only [Ctx.withScope]; omega) (.refl _ _))
  rw [hexit]
  have hle : s3.instCount ctx.func ≤ s9'.instCount ctx.func := by omega
  replace hregs : Agree (s3.instCount ctx.func) regs regs' := hregs.mono
  rw [a8.len, a7.len] at hjump
  have hreach' := hreach.andThen (Reaches.jump hjump prev' regs' (evh n w).2)
  refine Ends.after hreach' hregs hle ?_
  simp only [nil_append, length_append, Nat.add_assoc] at hends ⊢
  exact hends

end ScriptIr.Run
