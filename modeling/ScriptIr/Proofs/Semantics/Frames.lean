import ScriptIr.Proofs.Semantics.Openings

/-!
# What frames do

A block scope runs in a frame. Its entry fetches what the frame captures and goes on to its body, which
opens the frame. Both are completed after the contents of the frame have been lowered.

* `listCode_does`, `blockCode_does`: lists of statements, without and with a frame.
-/
namespace ScriptIr

open Code Scope ScriptIr.Tree

namespace Lower

/-- What opening a frame changes: it has two new blocks, and the instruction that opens it. -/
structure Opens (f : Nat) (frame : Lower.Frame) (s t : State) : Prop where
  entry : @Eq Nat frame.entry (s.blockCount f)
  body : @Eq Nat frame.body (s.blockCount f + 1)
  push : @Eq Nat frame.push (s.instCount f)
  scopes : t.scopes = s.scopes
  blockCount : t.blockCount f = s.blockCount f + 2
  instCount : t.instCount f = s.instCount f + 1
  len_entry : t.len f frame.entry = 0
  len_body : t.len f frame.body = 1
  len_other : ∀ d < s.blockCount f, t.len f d = s.len f d
  keeps : s.Keeps f (fun _ => False) t
  pushed : ∃ u, f < u.fnCount ∧ u.instCount f = frame.push ∧ u.len f frame.body = 0 ∧
    frame.body < u.blockCount f ∧ State.Pushes f frame.body (.pushScope 0 []) u t

variable {firstId : FuncId} {n : Nat} {B : FunctionSpec} {ctx : Ctx}
  {b : Nat} {free : Prop} {fs : List Callable} {s t u : State} {frame : Lower.Frame}

theorem Since.openFrame {scope : ScopeId} (h : Since firstId n B ctx b free fs s t)
    (hrun : openFrame ctx scope t = .ok frame u) :
    Since firstId n B ctx b free fs s u ∧ Opens ctx.func frame t u ∧ frame.scope = scope := by
  simp only [Lower.openFrame, Lower.run_bind_iff] at hrun
  obtain ⟨entry, t1, h1, body, t2, h2, push, t3, h3, hrun⟩ := hrun
  cases hrun
  obtain ⟨g1, a1, _⟩ := h.newBlock h1
  obtain ⟨g2, a2, _⟩ := g1.newBlock h2
  have := h.grows.blockCount
  obtain ⟨g3, hv, a3, _⟩ := g2.emit h3
  have hlen : ∀ d, t2.len ctx.func d = t.len ctx.func d := fun d => by rw [a2.len, a1.len]
  have hscopes : u.scopes = t.scopes := by
    rw [Lower.Plain.scopes_eq (.emit rfl) h3, Lower.Plain.newBlock.scopes_eq h2,
      Lower.Plain.newBlock.scopes_eq h1]
  have hentry : t2.len ctx.func entry = 0 := by rw [hlen, State.len_of_le]
  have hbody : t2.len ctx.func body = 0 := by rw [hlen, State.len_of_le]
  have hlt : body < t2.blockCount ctx.func :=
    Nat.lt_of_lt_of_eq (Nat.lt_succ_of_le (Nat.le_of_eq a2.block)) a2.blockCount.symm
  refine ⟨g3, ⟨a1.block, a2.block.trans a1.blockCount, ?_, hscopes, by omega, by omega, ?_, ?_,
    fun d hd => ?_, (a1.keeps.trans a2.keeps).trans a3.keeps, t2, g2.func, hv.symm, hbody, hlt, a3⟩, rfl⟩
  · exact hv.trans (a2.instCount.trans a1.instCount)
  · exact (a3.len_ne entry).trans hentry
  · exact a3.len_same.trans (congrArg (· + 1) hbody)
  · rw [a3.len_ne _, hlen]

end Lower

namespace Run

open Lower

variable {V σ : Type} {S : Setting V σ} {B : FunctionSpec} {n : Nat}
  {ctx : Ctx} {b c : Nat} {free pre : Prop} {fs gs : List Callable} {s t u : State}
  {frame : Lower.Frame}

variable {strict : Prop} {items : List Item} {ev : Nat → StateM σ (Outcome V)} {l : ScopeId}

theorem Inside.fetch_opened {ex : Nat → Prop} {f : Nat} {v : State} {names : InstId → String}
    {A : Activation V} {F : Code.Function} {i : Inst} (hin : Inside S f s v names A F)
    (h : Opens f frame t u) (hst : s.instCount f ≤ t.instCount f) (huv : u.Keeps f ex v)
    (hi : v.inst? f frame.push = some i) : fetch? F frame.body 0 = some (frame.push, i) := by
  obtain ⟨u', hf, hpush, hlen, hlt, hpushed⟩ := h.pushed
  rw [← hpush] at hi ⊢
  rw [← hlen]
  exact hin.fetch_replaced hf (by rw [hpush, h.push]; exact hst) hpushed huv hi hlt

/-- What completing a frame changes: control that comes to its entry goes on in its body, after the
instruction that opens it. -/
structure Closes (S : Setting V σ) (ctx : Ctx) (frame : Lower.Frame) (t u : State) : Prop where
  keeps : t.Keeps ctx.func (· = frame.push) u
  blockCount : t.blockCount ctx.func ≤ u.blockCount ctx.func
  len_other : ∀ d < t.blockCount ctx.func, d ≠ frame.entry → u.len ctx.func d = t.len ctx.func d
  runs : ∃ i, u.inst? ctx.func frame.push = some i ∧ ∀ addr, Plain S addr →
    ∃ names, ∀ A F, Inside S ctx.func t u names A F → fetch? F frame.body 0 = some (frame.push, i) →
      ∀ prev regs w, Cells addr ctx t regs → ∃ regs', Reaches S.toWorld A F 1
            (.running ⟨frame.entry, t.len ctx.func frame.entry, prev, regs, w⟩)
            (.running ⟨frame.body, 1, frame.entry, regs', w⟩) ∧
          Agree (t.instCount ctx.func) regs regs'

theorem Plain.addresses {addr : String → V} (hp : Plain S addr) (names : List String) :
    S.addresses names = pure (names.map addr) := by
  induction names with
  | nil => rfl
  | cons x xs ih => simp only [Scene.addresses, hp.address, ih, pure_bind, List.map_cons]

theorem closeFrame_closes {x : Unit} (h : Since S.firstId n B ctx b free fs s t)
    (hrun : closeFrame ctx frame t = .ok x u)
    (hge : s.blockCount ctx.func ≤ frame.entry := by omega)
    (hlt : t.blockCount ctx.func > frame.entry := by omega)
    (hpush : s.instCount ctx.func ≤ frame.push := by omega)
    (hpush' : t.instCount ctx.func > frame.push := by omega) :
    Since S.firstId n B ctx b free fs s u ∧ Closes S ctx frame t u := by
  obtain ⟨names, t', hnames, hrun⟩ := run_bind hrun
  cases hnames
  obtain ⟨captured, t1, h1, hrun⟩ := run_bind hrun
  obtain ⟨size, t', hsize, hrun⟩ := run_bind hrun
  cases hsize
  obtain ⟨i, t', hi, hrun⟩ := run_bind hrun
  rw [instAt?_eq] at hi
  cases hi
  obtain ⟨p1, g1, -⟩ := (capturedAddresses_does (B := B) (K := .any Unit V) _).follows h h1 (.inr hge) hlt
  split at hrun
  · next old oldCaptured hold =>
    obtain ⟨_, t2, h2, h3⟩ := run_bind hrun
    rw [patch_eq] at h2
    generalize hsize : (t1.scopes.variableCount frame.scope).toUInt32 = size at h2
    cases h2
    have g2 : Since S.firstId n B ctx b free fs s
        (t1.replace ctx.func frame.push (.pushScope size captured)) :=
      ⟨h.start, g1.grows.replace hpush _ h.start.func⟩
    have hcount := Nat.lt_of_lt_of_le hlt p1.keeps.blockCount
    rw [← State.blockCount_replace] at hcount
    obtain ⟨g3, a3, _⟩ := g2.perform h3 (.inr hge) hcount
    have k1 : t.Keeps ctx.func (· = frame.push) t1 := p1.keeps.keepsCode
    have k2 : (t1.Keeps ctx.func (· = frame.push) _) :=
      State.keeps_replace t1 ctx.func (.pushScope size captured) rfl
    refine ⟨g3, (k1.trans k2).trans a3.keeps, ?_, fun d hd hne => ?_, .pushScope size captured, ?_,
      fun addr hp => ?_⟩
    · rw [a3.blockCount, State.blockCount_replace]
      exact p1.keeps.blockCount
    · rw [a3.len_other d hne, State.len_replace, p1.keeps.len hd hne]
    · have hlt' := Nat.lt_of_lt_of_le hpush' p1.keeps.instCount
      rw [← State.instCount_replace] at hlt'
      rw [(a3.follows 0).insts _ hlt', State.inst?_replace, if_pos ⟨rfl, rfl⟩, hold]
      rfl
    · obtain ⟨names, hruns⟩ := p1.plain (announced_nil _ _) hp
      refine ⟨names, fun A F hin hfetch prev regs w hcells => ?_⟩
      obtain ⟨prev', regs', hreach, hregs, hcaptured⟩ := hruns A F
        (hin.part _ (k2.trans a3.keeps) le_rfl (fun _ hx => .inl (hx ▸ hpush'))) () prev
        regs w trivial hcells
      rw [hp.addresses] at hreach hcaptured
      have hjump := hin.fetch g2.func (Nat.le_trans p1.keeps.instCount
        (Nat.le_of_eq (State.instCount_replace ..).symm)) a3 (.refl _ (fun _ => False) _) id hcount
      rw [State.len_replace] at hjump
      have hjumped := Reaches.jump (W := S.toWorld) (A := A) hjump prev' regs' w
      have hopened := Reaches.perform (W := S.toWorld) (A := A)
        (p := ⟨frame.body, 0, frame.entry, regs', w⟩) hfetch
        (by simp only [effect?, Context.registers_read hcaptured]; rfl)
      exact ⟨regs', ((hreach.trans hjumped).trans hopened).mono, hregs⟩
  · cases hrun

/-! ## Lists -/

/-- The code of a list of statements, which declares names in its own scope, ends as the list does. -/
def ListDoes (S : Setting V σ) (B : FunctionSpec) (strict : Prop)
    (code : StmtCode) (ev : Nat → Nat → StateM σ (Outcome V)) (fs : List Callable) : Prop :=
  ∀ ctx b n s c t, Ready S.firstId n ctx b s → code ctx b s = .ok c t →
    Flow S B ctx b True strict s t c (fun fuel => ev fuel n) fs

theorem Opening.before {ev : StateM σ Unit} {evs : Nat → StateM σ (Outcome V)}
    (hready : Ready S.firstId n ctx b s) (h : Opening S B ctx b s t (.any Unit V) ev)
    (h' : Flow S B ctx b free pre t u c evs fs) :
    Flow S B ctx b True pre s u c (fun fuel => do ev; evs fuel) fs := by
  refine ⟨h.grows.after h'.grows hready.func hready.scope (.inl rfl) fun _ => trivial, ?_, h'.lt, ?_⟩
  · exact h'.next.imp_right (Nat.le_trans h.grows.blockCount)
  · intro hpre addr hp
    obtain ⟨names, hruns⟩ := h.runs addr hp
    obtain ⟨names', hruns'⟩ := h'.runs hpre addr hp
    refine ⟨joinAt (t.instCount ctx.func) names names', fun A F hin fuel prev regs w hcells => ?_⟩
    obtain ⟨prev1, regs1, hreach, hregs, hcells1, _⟩ :=
      hruns A F (hin.part _ h'.grows.keepsCode) prev regs w hcells
    have hends := hruns' A F (hin.part _ (.refl _ _ _) h.grows.instCount) fuel prev1 regs1 (ev w).2 hcells1
    have hbreak : t.breakTo ctx.scope = s.breakTo ctx.scope := h.grows.scopes.onBreak hready.scope
    have hcontinue : t.continueTo ctx.scope = s.continueTo ctx.scope :=
      h.grows.scopes.onContinue hready.scope
    rw [hbreak, hcontinue] at hends
    exact Ends.after hreach hregs h.grows.instCount hends

theorem functionDeclarationCode_does (f : Tree.Function) {closure : ExprCode} {ev : Nat → StateM σ V}
    (h : ExprDoes S B closure ev fs) :
    StmtDoes S B strict [] (functionDeclarationCode f closure)
      (fun _ n => (do S.assign ((f.id.map (·.name)).getD "") (← ev n)) >>= fun _ => pure .normal) fs := by
  refine .of_does (fun _ => .any Unit V) fun ctx b n => ?_
  unfold functionDeclarationCode functionName
  cases f.id with
  | none => exact .throw_bind
  | some name =>
    rw [pure_bind]
    refine .bindLast (h ctx b n) fun r => .bind (declareAnnounced_does name.name false) fun slot =>
      .result (.perform fun _ _ _ h _ _ _ => ?_) (fun _ => rfl) fun _ _ _ _ h => h
    simp [effect?, h.1.2, h.2.1.2]

theorem listCode_does {decl decl' : List String} {ev ev' : Nat → Nat → StateM σ (Outcome V)}
    (h : StmtsDoes S B strict decl (items.filterMap Item.hoisted?) ev fs)
    (h' : StmtsDoes S B strict decl' (items.filterMap Item.inPlace?) ev' gs)
    (hdecl : ∀ x ∈ decl, x ∈ items.flatMap itemNames)
    (hdecl' : ∀ x ∈ decl', x ∈ items.flatMap itemNames) :
    ListDoes S B strict (listCode items)
      (fun fuel n => inTurn (ev fuel n) (ev' fuel (n + fs.length))) (fs ++ gs) := by
  intro ctx b n s d u hready hrun
  obtain ⟨_, s1, h1, hrun⟩ := run_bind hrun
  obtain ⟨c, s2, h2, h3⟩ := run_bind hrun
  obtain ⟨o1, hann⟩ := announceItems_opens (B := B) hready h1
  have r1 := hready.grown o1.grows (Nat.lt_of_lt_of_le hready.block o1.grows.blockCount)
  have f2 := runAll_does h ctx b n s1 c s2 r1 h2
  have f3 := runAll_does h' ctx c _ s2 d u (r1.grown f2.grows f2.lt) h3
  have hann1 : Announced s1 ctx.scope decl := fun x hx => hann x (hdecl x hx)
  have hann2 : Announced s2 ctx.scope decl' :=
    Announced.grown (fun x hx => hann x (hdecl' x hx)) f2.grows.scopes r1.scope
  have f2' : Flow S B ctx b (¬strict) strict s1 s2 c (fun fuel => ev fuel n) fs :=
    f2.imp (fun hn hs => hn ⟨hs, hann1⟩) fun hs => ⟨hs, hann1⟩
  have f3' : Flow S B ctx c (¬strict) strict s2 u d (fun fuel => ev' fuel (n + fs.length)) gs :=
    f3.imp (fun hn hs => hn ⟨hs, hann2⟩) fun hs => ⟨hs, hann2⟩
  exact (o1.before hready (f2'.andThen r1 f3' id not_not.mpr)).imp id fun hs => ⟨hs, hs⟩

/-! ## Blocks -/

/-- What code that starts in block `b` and ends in block `c` does to the sizes of its function. -/
abbrev Bounds (ctx : Ctx) (b c : Nat) (s t : State) : Prop :=
  s.blockCount ctx.func ≤ t.blockCount ctx.func ∧ s.instCount ctx.func ≤ t.instCount ctx.func ∧
    (c = b ∨ s.blockCount ctx.func ≤ c) ∧ c < t.blockCount ctx.func

theorem Flow.bounds (h : Flow S B (ctx.withScope l) b free pre s t c ev fs) : Bounds ctx b c s t :=
  ⟨h.grows.blockCount, h.grows.instCount, h.next, h.lt⟩

/-- Code in a frame: a jump to the frame's entry is emitted in state `s3`, the contents of the frame end
in state `t` in block `e`, and then the frame is completed and left. -/
theorem framed_flow {s1 s2 s3 s4 : State} {e d : Nat} (g1 : Since S.firstId n B ctx b (¬strict) [] s s1)
    (o2 : Opens ctx.func frame s1 s2) (g3 : Since S.firstId n B ctx b (¬strict) [] s s3)
    (k3 : s2.Keeps ctx.func (fun _ => False) s3) (hlen : s3.len ctx.func b = s.len ctx.func b)
    (a4 : State.Pushes ctx.func b (.jump frame.entry) s3 s4) (k4 : ∀ ex, s4.Keeps ctx.func ex t)
    (hcount : s2.blockCount ctx.func ≤ t.blockCount ctx.func) (hentry : t.len ctx.func frame.entry = 0)
    (g : Since S.firstId n B ctx b (¬strict) fs s t) (he : s.blockCount ctx.func ≤ e)
    (hlt : e < t.blockCount ctx.func) (hne : e ≠ frame.entry)
    (hrun : closeLoop ctx frame e t = .ok d u)
    (hruns : strict → ∀ addr, Plain S addr → ∃ names, ∀ A F, Inside S ctx.func s2 t names A F → ∀
      fuel prev regs w, Ends S.toWorld A F fuel ⟨e, t.len ctx.func e, s.breakTo ctx.scope,
      s.continueTo ctx.scope⟩ (s2.instCount ctx.func) ⟨frame.body, 1, prev, regs, w⟩ (ev fuel w)) :
    Flow S B ctx b (¬strict) strict s u d ev fs := by
  obtain ⟨_, t1, h1, hrun⟩ := run_bind hrun
  obtain ⟨_, t2, h2, hrun⟩ := run_bind hrun
  cases hrun
  have := g.start.block; have := g1.grows.blockCount; have := g1.grows.instCount
  have := o2.entry; have := o2.push; have := o2.blockCount; have := o2.instCount
  have := k3.instCount; have := a4.instCount; have := (k4 fun _ => False).instCount
  obtain ⟨g', c'⟩ := closeFrame_closes g h1
  have := c'.blockCount; have := c'.keeps.instCount
  obtain ⟨p, g'', -⟩ := (popScopes_does (B := B) (K := .any Unit V) 1).follows g' h2 (.inr he) (by omega)
  refine ⟨g''.grows, .inr he, p.lt, fun hstrict addr hp => ?_⟩
  obtain ⟨names1, hruns1⟩ := hruns hstrict addr hp
  obtain ⟨i, hi, hclosed⟩ := c'.runs
  obtain ⟨names2, hruns2⟩ := hclosed addr hp
  obtain ⟨names3, hruns3⟩ := p.plain (announced_nil _ _) hp
  refine ⟨joinAt (t.instCount ctx.func) names1 (joinAt (t1.instCount ctx.func) names2 names3),
    fun A F hin fuel prev regs w hcells => ?_⟩
  have hlast : t1.len ctx.func e = t.len ctx.func e := c'.len_other e hlt hne
  have k5 : t1.Keeps ctx.func (fun _ => False) u := p.keeps.keepsCode
  have k : t.Keeps ctx.func (· = frame.push) u := c'.keeps.trans p.keeps.keepsCode
  have hin1 := hin.part (t := s2) names1 k
  have hin2 := hin.part names2 k5 g.grows.instCount
  have hin3 := hin.part names3 (.refl _ _ _) g'.grows.instCount
  have hjump := hin.fetch g3.func g3.grows.instCount a4 ((k4 _).trans k) (Nat.ne_of_gt (by omega))
    (Nat.lt_of_lt_of_le g.start.block g3.grows.blockCount)
  have hopen := hin.fetch_opened o2 g1.grows.instCount
    ((k3.mono fun _ => False.elim).trans (a4.keeps.trans ((k4 _).trans k)))
    ((k5.insts frame.push (by omega) id).trans hi)
  obtain ⟨regs2, hreach2, hregs2⟩ := hruns2 A F hin2 hopen b regs w
    (hcells.grown g.grows (not_not.mpr hstrict) g.start.scope (.refl _ _))
  have hjumped := Reaches.jump (W := S.toWorld) (A := A) hjump prev regs w
  rw [hlen] at hjumped
  rw [hentry] at hreach2
  refine Ends.after hjumped (.refl _ _) le_rfl ?_
  refine Ends.after hreach2 hregs2.mono le_rfl ?_
  refine Ends.onward (Ends.below (hruns1 A F hin1 fuel _ regs2 w) (by omega)) rfl rfl
    fun prev' regs' _ hregs' => ?_
  obtain ⟨prev3, regs3, hreach3, hregs3, _⟩ := hruns3 A F hin3 () prev' regs' _ trivial
    (hcells.grown g'.grows (not_not.mpr hstrict) g.start.scope (hregs2.mono.trans hregs'))
  rw [hlast] at hreach3
  exact ⟨prev3, regs3, hreach3, hregs3.mono g'.grows.instCount⟩

theorem blockCode_does {ev : Nat → Nat → StateM σ (Outcome V)}
    (h : ListDoes S B strict (listCode items) ev fs) :
    StmtDoes S B strict [] (blockCode items) ev fs := by
  refine .of_flow fun ctx b n s d u hready hrun => ?_
  obtain ⟨l, s1, h1, hrun⟩ := run_bind hrun
  obtain ⟨frame, s2, h2, hrun⟩ := run_bind hrun
  obtain ⟨_, s3, h3, hrun⟩ := run_bind hrun
  obtain ⟨last, s4, h4, hrun⟩ := run_bind hrun
  have g0 := Since.refl (B := B) hready (¬strict)
  obtain ⟨g1, hn1, hm1, _, hnone⟩ := g0.newScope g0.under hready.scope h1
  obtain ⟨g2, o2, _⟩ := g1.openFrame h2
  obtain ⟨hb1, hi1, hl1⟩ := State.same_code hm1 ctx.func
  have := hready.block; have := o2.entry; have := o2.body; have := o2.push
  have := o2.blockCount; have := o2.instCount
  obtain ⟨g3, a3, _⟩ := g2.perform h3
  have hs3 : s3.scopes = s1.scopes := by rw [Plain.scopes_eq .jump h3, o2.scopes]
  have hn3 := hn1.same hs3
  have f4 := h (ctx.withScope l) frame.body n s3 last s4 (g3.readyIn hn3) h4
  have g4 := g3.inner hn3 f4.grows
  have := f4.bounds
  have hlen : s2.len ctx.func b = s.len ctx.func b := by rw [o2.len_other b (by omega), hl1]
  have hentry : s4.len ctx.func frame.entry = 0 := by
    rw [f4.grows.len_inner _, a3.len_ne _, o2.len_entry]
  have hbody : s3.len ctx.func frame.body = 1 := by rw [a3.len_ne _, o2.len_body]
  refine framed_flow g1 o2 g2 (.refl _ _ _) hlen a3 (fun _ => f4.grows.keepsCode) (by omega) hentry
    g4 (by omega) (by omega) (by omega) hrun fun hstrict addr hp => ?_
  obtain ⟨names, hruns⟩ := f4.runs hstrict addr hp
  refine ⟨names, fun A F hin fuel prev regs w => ?_⟩
  have hin3 := hin.part (t := s3) names (.refl _ _ _)
  have hends := hruns A F hin3 fuel prev regs w (cells_of_none fun x => by rw [hs3]; exact hnone x)
  dsimp only [Ctx.withScope] at hends
  rw [hn3.breakTo.trans g3.breakTo, hn3.continueTo.trans g3.continueTo, hbody] at hends
  exact Ends.below hends (by omega)

end Run

end ScriptIr
