import ScriptIr.Lower.Loop
import ScriptIr.Proofs.Lower.Statements

/-!
# Contracts of loops

The frame of a loop is opened once, and all blocks of the loop but its entry are entered in its scope;
the exit leaves it. A `for` loop whose head declares names has a further frame for each round.

* `whileCode_ok`, `doWhileCode_ok`: loops with a condition alone.
* `HeadOk`, `forCode_ok`: loops with a head.
-/
namespace ScriptIr.Lower

open Code ScriptIr.Tree List Scope

variable {M : Mode} {strict : Prop} {c : Config M.strict} {ctx : Ctx} {env : Env} {b exit : BlockId}
  {fr : Frame} {v w : Walk} {body : StmtCode} {names : List String} {R : Multiset Token}

variable {test : Option ExprCode} {testing update : BlockId} {vars : List LoopVariable}

section Frames

theorem setTargets_sat {k : ScopeId} {onBreak onContinue : BlockId} (hk : k < c.scopeCount)
    (hbreak : c.HasBlock (c.home k) onBreak k) (hcontinue : c.HasBlock (c.home k) onContinue k) :
    Sat M (setTargets k onBreak onContinue) c fun _ d => c.Still d ∧ d.tokens = c.tokens := by
  have htwo : Sat M (modifyScopes (·.setBreakTarget k onBreak) >>= fun _ =>
      modifyScopes (·.setContinueTarget k onContinue)) c
      fun _ d => c.Still d ∧ d.tokens = c.tokens := by
    refine .bind (setBreakTarget_sat hk hbreak) ?_
    rintro _ d ⟨hd, htd⟩
    refine .mono (setContinueTarget_sat (hk.trans_le hd.le.size)
      (by rw [hd.le.home k hk]; exact hcontinue.mono hd.le)) ?_
    rintro _ e ⟨he, hte⟩
    exact ⟨hd.trans he, hte.trans htd⟩
  exact htwo

theorem closeLoop_sat (hat : c.At ctx env R) (hfr : c.Framed ctx fr)
    (ht : c.tokens = {.block ctx.func exit fr.scope} +
      ({ctx.here fr.entry} + ({.scope fr.scope .running} + R))) :
    Sat M (closeLoop ctx fr exit) c fun b d =>
      c.Quiet d ∧ d.tokens = {ctx.here b} + R := by
  unfold closeLoop
  refine .bind (closeFrame_sat (hat.add (.block ctx.func exit fr.scope)) hfr (ht.trans (by ac_rfl))) ?_
  rintro _ d ⟨hd, htd⟩
  refine .bind (popFrame_sat (hfr.mono hd.le) htd) ?_
  rintro _ e ⟨he, hte⟩
  exact .pure ⟨hd.trans he, hte⟩

/-- The blocks of a loop with a condition. -/
structure Config.Looping (c : Config strict) (ctx : Ctx) (env : Env) (R : Multiset Token)
    (fr : Frame) (exit first second : BlockId) (d : Config strict) : Prop where
  entered : c.Entered ctx env R fr d
  exit : d.HasBlock ctx.func exit fr.scope
  first : d.HasBlock ctx.func first fr.scope
  second : d.HasBlock ctx.func second fr.scope

theorem Config.Looping.still {c d e : Config strict} {first second : BlockId}
    (h : c.Looping ctx env R fr exit first second d) (hde : d.Still e) :
    c.Looping ctx env R fr exit first second e :=
  ⟨h.entered.still hde, h.exit.mono hde.le, h.first.mono hde.le, h.second.mono hde.le⟩

theorem openLoop_sat {α : Type} {rest : ScopeId → BlockId → Frame → BlockId → BlockId → Emit α}
    {Q : α → Config M.strict → Prop} (hat : c.At ctx env R)
    (h : ∀ exit fr first second d, c.Looping ctx env R fr exit first second d →
      d.tokens = {.block ctx.func second fr.scope} + ({.block ctx.func first fr.scope} +
        ({.block ctx.func fr.body fr.scope} + ({ctx.here fr.entry} +
          ({.block ctx.func exit fr.scope} + ({.scope fr.scope (.naming [])} + c.tokens))))) →
      Sat M (rest fr.scope exit fr first second) d Q) :
    Sat M (do
      let scope ← newScope (some ctx.scope) .block
      let exit ← newBlock ctx
      let frame ← openFrame ctx scope
      let first ← newBlock ctx
      let second ← newBlock ctx
      rest scope exit frame first second) c Q := by
  refine .bind hat.newScope_sat ?_
  intro k c1 hc1
  have hat1 := hat.mono hc1.le
  refine .bind (hat1.newBlockIn_sat k) ?_
  rintro exit c2 ⟨hq2, ht2, hexit⟩
  refine .bind (hc1.openFrame_sat hq2 hat) ?_
  rintro fr c3 ⟨rfl, hstill3, hentered, ht3⟩
  have hat3 := hat.mono hentered.le
  refine .bind (hat3.newBlockIn_sat fr.scope) ?_
  rintro first c4 ⟨hq4, ht4, hfirst⟩
  refine .bind ((hat3.mono hq4.le).newBlockIn_sat fr.scope) ?_
  rintro second c5 ⟨hq5, ht5, hsecond⟩
  have hquiet := hq4.trans hq5
  refine h exit fr first second c5 ⟨hentered.still hquiet.still,
    (hexit.mono hstill3.le).mono hquiet.le, hfirst.mono hq5.le, hsecond⟩ ?_
  rw [ht5, ht4, ht3, ht2, hc1.tokens]

theorem enterLoop_sat {α : Type} {rest : Emit α} {Q : α → Config M.strict → Prop}
    {d : Config M.strict} {fr : Frame} {exit first second onContinue : BlockId}
    (hd : c.Looping ctx env R fr exit first second d)
    (ht : d.tokens = {.block ctx.func second fr.scope} + ({.block ctx.func first fr.scope} +
      ({.block ctx.func fr.body fr.scope} + ({ctx.here fr.entry} +
        ({.block ctx.func exit fr.scope} + ({.scope fr.scope (.naming [])} + ({ctx.here b} + R)))))))
    (hcontinue : d.HasBlock ctx.func onContinue fr.scope)
    (h : ∀ e, c.Looping ctx env R fr exit first second e →
      e.tokens = {.block ctx.func first fr.scope} + ({.block ctx.func second fr.scope} +
        ({.block ctx.func exit fr.scope} + ({ctx.here fr.entry} + ({.scope fr.scope .running} + R)))) →
      e.At (ctx.withScope fr.scope) (env.declare [] fr.scope) ({.scope fr.scope .running} + R) →
      Sat M rest e Q) :
    Sat M (do
      setTargets fr.scope exit onContinue
      perform ctx b (.jump fr.entry)
      perform ctx fr.body (.jump first)
      rest) d Q := by
  have hfr := hd.entered.framed
  have hk := hd.entered.fresh.scope
  refine .bind (setTargets_sat hk (hfr.home ▸ hd.exit) (hfr.home ▸ hcontinue)) ?_
  rintro _ d1 ⟨hstill1, ht1⟩
  have hd1 := hd.still hstill1
  have hentry : d1.tokens = {ctx.here b} + ({.block ctx.func fr.body fr.scope} +
      ({.scope fr.scope (.naming [])} + ({.block ctx.func first fr.scope} +
        ({.block ctx.func second fr.scope} + ({.block ctx.func exit fr.scope} +
          ({ctx.here fr.entry} + R)))))) := by
    rw [ht1, ht]
    ac_rfl
  refine .bind (jump_sat hentry hd1.entered.framed.entry) ?_
  rintro _ d2 ⟨hq2, ht2⟩
  have hd2 := hd1.still hq2.still
  refine .bind (jump_sat ht2 hd2.first) ?_
  rintro _ d3 ⟨hq3, ht3⟩
  have hd3 := hd2.still hq3.still
  obtain ⟨e, hstate, hq, hte, hate⟩ := @Config.exists_settled _ _ (ctx.withScope fr.scope) _ _ _ _ _ _ ht3
    hd3.entered.fresh
  refine .of_same_state hstate (h e (hd3.still hq.still) ?_ hate)
  rw [hte, Ctx.withScope_scope]
  ac_rfl

end Frames

/-! ## Loops with a condition -/

theorem whileCode_ok {test : ExprCode} {u : Walk} (ht : ExprOk M test u) (hb : StmtOk M body [] v) :
    StmtOk M (whileCode test body) [] (.declaring [] (u ++ v)) := by
  intro c ctx env b R htok hat _
  simp only [whileCode, loopCode, whileRounds, bind_assoc]
  refine openLoop_sat hat ?_
  intro exit fr testing round d hd htd
  rw [htok] at htd
  refine enterLoop_sat hd htd hd.first ?_
  intro e he hte hate
  have hfr := he.entered.framed
  have hinner := (hate.add (ctx.here fr.entry)).add (.block ctx.func exit fr.scope)
  refine .bind (ht e (ctx.withScope fr.scope) _ testing _ hte (hinner.add _)) ?_
  rintro t g1 ⟨hg1, htv⟩
  refine .bind (@branch_sat _ _ _ _ ctx _ _ hg1.tokens _ _ htv (he.second.mono hg1.le)
    (he.exit.mono hg1.le)) ?_
  rintro _ g2 ⟨hq2, ht2⟩
  have hle2 := hg1.le.trans hq2.le
  refine .bind (hb g2 (ctx.withScope fr.scope) _ round _ ht2 (hinner.mono hle2) fun _ => nofun) ?_
  intro last g3 hg3
  have hle3 := hle2.trans hg3.le
  refine .bind (@jump_sat _ _ _ _ ctx _ _ hg3.tokens (he.first.mono hle3)) ?_
  rintro _ g4 ⟨hq4, ht4⟩
  have hle4 := hle3.trans hq4.le
  refine .mono (closeLoop_sat (hat.mono (he.entered.le.trans hle4)) (hfr.mono hle4) ht4) ?_
  rintro b' g ⟨hq, htg⟩
  refine ⟨he.entered.declaring ?_, htg⟩
  exact (hg1.grows.still hq2.still).trans (hg3.grows.still (hq4.trans hq).still)

theorem doWhileCode_ok {test : ExprCode} {u : Walk} (ht : ExprOk M test u) (hb : StmtOk M body [] v) :
    StmtOk M (doWhileCode test body) [] (.declaring [] (v ++ u)) := by
  intro c ctx env b R htok hat _
  simp only [doWhileCode, loopCode, doWhileRounds, bind_assoc]
  refine openLoop_sat hat ?_
  intro exit fr round testing d hd htd
  rw [htok] at htd
  refine enterLoop_sat hd htd hd.second ?_
  intro e he hte hate
  have hfr := he.entered.framed
  have hinner := (hate.add (ctx.here fr.entry)).add (.block ctx.func exit fr.scope)
  refine .bind (hb e (ctx.withScope fr.scope) _ round _ hte (hinner.add _) fun _ => nofun) ?_
  intro last g1 hg1
  refine .bind (@jump_sat _ _ _ _ ctx _ _ hg1.tokens (he.second.mono hg1.le)) ?_
  rintro _ g2 ⟨hq2, ht2⟩
  have hle2 := hg1.le.trans hq2.le
  refine .bind (ht g2 (ctx.withScope fr.scope) _ testing _ ht2 (hinner.mono hle2)) ?_
  rintro t g3 ⟨hg3, htv⟩
  have hle3 := hle2.trans hg3.le
  refine .bind (@branch_sat _ _ _ _ ctx _ _ hg3.tokens _ _ htv (he.first.mono hle3) (he.exit.mono hle3)) ?_
  rintro _ g4 ⟨hq4, ht4⟩
  have hle4 := hle3.trans hq4.le
  refine .mono (closeLoop_sat (hat.mono (he.entered.le.trans hle4)) (hfr.mono hle4) ht4) ?_
  rintro b' g ⟨hq, htg⟩
  refine ⟨he.entered.declaring ?_, htg⟩
  exact (hg1.grows.still hq2.still).trans (hg3.grows.still (hq4.trans hq).still)

/-! ## Heads -/

def OptionalOk (M : Mode) : Option ExprCode → Walk → Prop
  | none, w => w = .skip
  | some code, w => ExprOk M code w

/-- The contract of the first part of a head that declares some names, with the references of a walk.
It starts in a scope that takes names and settles them. -/
def HeadOk (M : Mode) (head : HeadCode) (names : List String) (w : Walk) : Prop :=
  ∀ (c : Config M.strict) (ctx : Ctx) (env : Env) (b : BlockId) (R : Multiset Token),
    c.tokens = {ctx.here b} + ({.scope ctx.scope (.naming [])} + R) →
    c.Fresh ctx b env R →
    Sat M (head ctx b) c fun r d =>
      c.Runs ctx (env.declare names ctx.scope) ({.scope ctx.scope .running} + R) w r.1 d ∧
        d.At ctx (env.declare names ctx.scope) ({.scope ctx.scope .running} + R) ∧
        r.2.map (·.name) = names ∧ names.Nodup ∧ ∀ name ∈ names, d.HasLocal ctx.scope name

section Heads

theorem expressionHead_ok {code : ExprCode} (h : ExprOk M code w) :
    HeadOk M (expressionHead code) [] w := by
  intro c ctx env b R ht hfresh
  obtain ⟨d, hstate, hq, htd, hatd⟩ :=
    Config.exists_settled (ht.trans (add_left_comm ..)) hfresh
  refine .of_same_state hstate ?_
  unfold expressionHead
  refine .bind (h d ctx _ b _ (htd.trans (add_left_comm ..)) hatd) ?_
  rintro r e ⟨he, _⟩
  exact .pure ⟨⟨hq.still.then he.grows, he.tokens⟩, hatd.mono he.le, rfl, nodup_nil, nofun⟩

theorem emptyHead_ok : HeadOk M emptyHead [] .skip := by
  intro c ctx env b R ht hfresh
  obtain ⟨d, hstate, hq, htd, hatd⟩ :=
    Config.exists_settled (ht.trans (add_left_comm ..)) hfresh
  refine .of_same_state hstate ?_
  exact .pure ⟨⟨hq.still.grows, htd.trans (add_left_comm ..)⟩, hatd, rfl, nodup_nil, nofun⟩

theorem declarationHead_ok {decl : Tree.Declaration} {code : StmtCode} (h : StmtOk M code decl.boundNames w) :
    HeadOk M (declarationHead decl code) decl.boundNames w := by
  intro c ctx env b R ht hfresh
  unfold declarationHead
  refine .bind (announce_sat decl ht hfresh) ?_
  rintro _ d ⟨hd, htd, hlocal⟩
  rw [nil_append] at htd
  have hnodup := (d.tokensOk.naming ctx.scope decl.boundNames (by simp [htd])).2.1
  obtain ⟨e, hstate, hq, hte, hate⟩ :=
    Config.exists_settled (htd.trans (add_left_comm ..)) (hfresh.mono hd.le)
  have hlocal' : ∀ name ∈ decl.boundNames, e.HasLocal ctx.scope name :=
    fun n hn => hq.le.hasLocal _ _ (hlocal n hn)
  refine .of_same_state hstate ?_
  refine .bind (h e ctx _ b _ (hte.trans (add_left_comm ..)) hate fun _ => hlocal') ?_
  intro b' g hg
  refine .pure ⟨⟨(hd.trans hq.still).then hg.grows, hg.tokens⟩, hate.mono hg.le, ?_, hnodup,
    fun n hn => hg.le.hasLocal _ _ (hlocal' n hn)⟩
  rw [map_map]
  exact map_id _

/-! ## Rounds -/

theorem forTest_sat (h : OptionalOk M test w) {round : BlockId}
    (ht : c.tokens = {ctx.here testing} + R) (hat : c.At ctx env R)
    (hround : c.HasBlock ctx.func round ctx.scope) (hexit : c.HasBlock ctx.func exit ctx.scope) :
    Sat M (forTest test ctx testing round exit) c fun _ d => c.Grows env w d ∧ d.tokens = R := by
  unfold forTest
  cases test with
  | none =>
    refine .mono (jump_sat ht hround) ?_
    rintro _ d ⟨hq, htd⟩
    rw [show w = .skip from h]
    exact ⟨hq.still.grows, htd⟩
  | some code =>
    refine .bind (h c ctx env testing R ht hat) ?_
    rintro t d ⟨hd, htv⟩
    refine .mono (branch_sat hd.tokens htv (hround.mono hd.le) (hexit.mono hd.le)) ?_
    rintro _ e ⟨hq, hte⟩
    exact ⟨hd.grows.still hq.still, hte⟩

theorem plainRounds_sat (ht : OptionalOk M test v) (hb : StmtOk M body [] w) (htok : c.tokens = {ctx.here testing} + R)
    (hat : c.At ctx env R) (hupdate : c.HasBlock ctx.func update ctx.scope)
    (hexit : c.HasBlock ctx.func exit ctx.scope) :
    Sat M (plainRounds test body ctx testing update exit) c fun _ d =>
      c.Grows env (v ++ w) d ∧ d.tokens = R := by
  unfold plainRounds
  refine .bind (setContinueTarget_sat hat.scope (hat.home ▸ hupdate)) ?_
  rintro _ c1 ⟨hc1, ht1⟩
  have hat1 := hat.mono hc1.le
  refine .bind hat1.newBlock_sat ?_
  rintro round c2 ⟨hq2, ht2, hround⟩
  have hstill2 := hc1.trans hq2.still
  have hopen : c2.tokens = {ctx.here testing} + ({ctx.here round} + R) := by
    rw [ht2, ht1, htok]
    ac_rfl
  have hat2 := hat1.mono hq2.le
  refine .bind (forTest_sat ht hopen (hat2.add _) hround (hexit.mono hstill2.le)) ?_
  rintro _ c3 ⟨hc3, ht3⟩
  refine .bind (hb c3 ctx env round R ht3 (hat2.mono hc3.le) fun _ => nofun) ?_
  intro last d hd
  refine .mono (jump_sat hd.tokens (hupdate.mono (hstill2.le.trans (hc3.le.trans hd.le)))) ?_
  rintro _ e ⟨hq, hte⟩
  exact ⟨hstill2.then (hc3.trans (hd.grows.still hq.still)), hte⟩

end Heads

/-! ## Rounds with copies -/

theorem Layout.HasLocal.binding?_ne_none {p : Layout} {k : ScopeId} {name : String}
    (h : p.HasLocal k name) : (p.scopes.get k).binding? name ≠ none := by
  intro hnone
  have howns : (p.scopes.get k).owns name = true := by
    unfold Scope.owns
    rw [show (p.scopes.get k).locals.has name = true from h, Bool.or_true]
  rw [Scope.owns_eq_isSome, Scope.own?_eq_none_of_binding? hnone] at howns
  cases howns

section Copies

variable {outer : ScopeId}

theorem Config.Fresh.live {c : Config strict} (h : c.Fresh ctx b env R) {ns : List String}
    (ht : c.tokens = {ctx.here b} + ({.scope ctx.scope (.naming ns)} + R)) :
    ∀ x ∈ c.scopes.chain ctx.scope, ∃ phase, .scope x phase ∈ c.tokens := by
  intro x hx
  have hself : .scope ctx.scope (.naming ns) ∈ c.tokens := by simp [ht]
  rcases h.outer with ⟨hroot, _⟩ | ⟨outer, hp, _, hall⟩
  · rw [Scope.Arena.chain_root hroot, mem_singleton] at hx
    exact ⟨_, hx ▸ hself⟩
  · rw [Scope.Arena.chain_inner hp (c.arenaOk.sound.parent_lt _ _ hp), mem_cons] at hx
    rcases hx with rfl | hx
    · exact ⟨_, hself⟩
    · exact ⟨.running, by simp [ht, hall x hx]⟩

/-- A loop variable that the enclosing scope has is copied into a scope that does not have it yet. -/
theorem copyIn_sat {v : LoopVariable} {ns : List String}
    (ht : c.tokens = {ctx.here b} + ({.scope ctx.scope (.naming ns)} + R))
    (hfresh : c.Fresh ctx b env R) (hparent : c.parent? ctx.scope = some outer)
    (hlocal : c.HasLocal outer v.name) (hname : v.name ∉ ns) :
    Sat M (copyIn ctx b v) c fun copy d =>
      c.Still d ∧ d.tokens = {ctx.here b} + ({.scope ctx.scope (.naming (ns ++ [v.name]))} + R) ∧
        d.Valued ctx.func copy.outer ∧ d.Valued ctx.func copy.inner := by
  unfold copyIn
  refine .bind (lookup_sat (hfresh.live ht) v.name false true) ?_
  rintro (_ | r) c1 ⟨hc1, ht1, hr⟩
  · have hchain : outer ∈ c.scopes.chain ctx.scope := by
      rw [Scope.Arena.chain_inner hparent (c.arenaOk.sound.parent_lt _ _ hparent)]
      exact mem_cons_of_mem _ (Scope.Arena.mem_chain_self _ _)
    exact absurd (hr outer hchain) hlocal.binding?_ne_none
  have hfresh1 := hfresh.mono hc1.le
  refine .bind (slotAddress_sat (ht1.trans ht) hfresh1.home hr) ?_
  rintro address c2 ⟨hc2, _⟩
  have hfresh2 := hfresh1.mono hc2.le
  refine .bind (emitAlloca_sat hc2.tokens hfresh2.scope hfresh2.home fun _ hk => (hfresh2.entered hk).2) ?_
  intro slot c3 hc3
  refine .bind (emitValue_sat hc3.tokens rfl rfl (Layout.valued_one (hc2.valued.mono hc3.quiet.le))) ?_
  intro value c4 hc4
  refine .bind (perform_sat hc4.tokens rfl
    (Layout.valued_two ((hc3.valued rfl).mono hc4.le) hc4.valued)) ?_
  rintro _ c5 ⟨hq5, ht5⟩
  have hle5 := hc3.quiet.le.trans (hc4.le.trans hq5.le)
  have hfresh5 := hfresh2.mono hle5
  have hslot := hfresh5.slot_first ht5
  refine .bind (.discard (Q := fun _ d =>
    c5.Named ctx.scope (ns ++ [v.name]) ({ctx.here b} + R) d)
    (declareNew_sat v.constant hslot hname)) ?_
  intro _ d hd
  refine .pure ⟨?_, ?_, ?_, ?_⟩
  · have hquiet := hc2.quiet.trans (hc3.quiet.trans (hc4.quiet.trans hq5))
    exact (hc1.trans hquiet.still).trans hd.still
  · rw [hd.tokens]
    ac_rfl
  · exact (hc2.valued.mono hle5).mono hd.still.le
  · exact ((hc3.valued rfl).mono (hc4.le.trans hq5.le)).mono hd.still.le

theorem copyAllIn_sat (vars : List LoopVariable) {ns : List String}
    (ht : c.tokens = {ctx.here b} + ({.scope ctx.scope (.naming ns)} + R))
    (hfresh : c.Fresh ctx b env R) (hparent : c.parent? ctx.scope = some outer)
    (hlocal : ∀ name ∈ vars.map (·.name), c.HasLocal outer name)
    (hnodup : (ns ++ vars.map (·.name)).Nodup) :
    Sat M (copyAllIn ctx b vars) c fun copies d =>
      c.Still d ∧ d.tokens = {ctx.here b} + ({.scope ctx.scope (.naming (ns ++ vars.map (·.name)))} + R) ∧
        ∀ copy ∈ copies, d.Valued ctx.func copy.outer ∧ d.Valued ctx.func copy.inner := by
  induction vars generalizing c ns with
  | nil =>
    refine .pure ⟨(Config.Quiet.refl c).still, ?_, nofun⟩
    rw [map_nil, append_nil]
    exact ht
  | cons v vars ih =>
    unfold copyAllIn
    rw [map_cons] at hlocal hnodup ⊢
    obtain ⟨hv, hvars⟩ := forall_mem_cons.mp hlocal
    have hname : v.name ∉ ns := fun hn =>
      (nodup_append.mp hnodup).2.2 v.name hn v.name (mem_cons_self ..) rfl
    refine .bind (copyIn_sat ht hfresh hparent hv hname) ?_
    rintro copy d ⟨hd, htd, hcopy⟩
    rw [append_cons] at hnodup ⊢
    refine .bind (ih htd (hfresh.mono hd.le) ((hd.le.parent _ hfresh.scope).trans hparent)
      (fun n hn => hd.le.hasLocal _ _ (hvars n hn)) hnodup) ?_
    rintro copies e ⟨he, hte, hcopies⟩
    refine .pure ⟨hd.trans he, hte, forall_mem_cons.mpr ⟨?_, hcopies⟩⟩
    exact ⟨hcopy.1.mono he.le, hcopy.2.mono he.le⟩

theorem copyAllOut_sat {k : ScopeId} {copies : List Copy} (ht : c.tokens = {.block ctx.func b k} + R)
    (h : ∀ copy ∈ copies, c.Valued ctx.func copy.outer ∧ c.Valued ctx.func copy.inner) :
    Sat M (copyAllOut ctx b copies) c fun _ d =>
      c.Quiet d ∧ d.tokens = {.block ctx.func b k} + R := by
  induction copies generalizing c with
  | nil => exact .pure ⟨.refl c, ht⟩
  | cons copy copies ih =>
    unfold copyAllOut
    obtain ⟨hcopy, hcopies⟩ := forall_mem_cons.mp h
    refine .bind (emitValue_sat ht rfl rfl (Layout.valued_one hcopy.2)) ?_
    intro value d hd
    refine .bind (perform_sat hd.tokens rfl (Layout.valued_two (hcopy.1.mono hd.le) hd.valued)) ?_
    rintro _ e ⟨hq, hte⟩
    have hle := hd.le.trans hq.le
    refine .mono (ih hte fun other ho => ?_) ?_
    · exact ⟨(hcopies other ho).1.mono hle, (hcopies other ho).2.mono hle⟩
    · rintro _ g ⟨hqg, htg⟩
      exact ⟨(hd.quiet.trans hq).trans hqg, htg⟩

end Copies

theorem Config.Entered.rounds {c d e g : Config strict} (h : c.Entered ctx env R fr d) (hnames : names ≠ [])
    (hde : d.Grows env v e) (heg : e.Grows (env.declare names fr.scope) w g)
    : c.Grows env (.rounds names v w) g := by
  refine ⟨h.le.trans (hde.le.trans heg.le), fun hs => ?_⟩
  obtain ⟨us, hus, hn, hall⟩ := hde.trace hs
  obtain ⟨us', hus', hn', hall'⟩ := heg.trace hs
  rw [h.count] at hn hall
  rw [hn, h.scope] at hn' hall'
  have hrounds : Walk.rounds names v w env c.scopeCount = ((v env (c.scopeCount + 1)).1 ++
        (w (env.declare names c.scopeCount) (v env (c.scopeCount + 1)).2).1,
      (w (env.declare names c.scopeCount) (v env (c.scopeCount + 1)).2).2) := by
    unfold Walk.rounds
    rw [if_neg (by rw [List.isEmpty_iff]; exact hnames)]
  rw [hrounds]
  refine ⟨us ++ us', by rw [hus', hus, h.uses, List.append_assoc], hn', ?_⟩
  exact List.rel_append (hall.imp fun u r hu => hu.mono heg.le hs) hall'

theorem endRound_sat {copies : List Copy} {last ending : BlockId} (hat : c.At ctx env R)
    (hfr : c.Framed ctx fr)
    (ht : c.tokens = {.block ctx.func last fr.scope} +
      ({.scope fr.scope .running} + ({ctx.here fr.entry} + ({.block ctx.func ending fr.scope} + R))))
    (hending : c.HasBlock ctx.func ending fr.scope) (hupdate : c.HasBlock ctx.func update ctx.scope)
    (hcopies : ∀ copy ∈ copies, c.Valued ctx.func copy.outer ∧ c.Valued ctx.func copy.inner) :
    Sat M (do
      perform ctx last (.jump ending)
      copyAllOut ctx ending copies
      popScopes ctx ending 1
      perform ctx ending (.jump update)
      closeFrame ctx fr) c fun _ d => c.Quiet d ∧ d.tokens = R := by
  refine .bind (jump_sat ht hending) ?_
  rintro _ c1 ⟨hq1, ht1⟩
  have hback : c1.tokens = {.block ctx.func ending fr.scope} +
      ({ctx.here fr.entry} + ({.scope fr.scope .running} + R)) := by
    rw [ht1]
    ac_rfl
  refine .bind (copyAllOut_sat hback fun copy ho => ?_) ?_
  · exact ⟨(hcopies copy ho).1.mono hq1.le, (hcopies copy ho).2.mono hq1.le⟩
  rintro _ c2 ⟨hq2, ht2⟩
  have hquiet2 := hq1.trans hq2
  refine .bind (popFrame_sat (hfr.mono hquiet2.le) ht2) ?_
  rintro _ c3 ⟨hq3, ht3⟩
  have hquiet3 := hquiet2.trans hq3
  refine .bind (jump_sat ht3 (hupdate.mono hquiet3.le)) ?_
  rintro _ c4 ⟨hq4, ht4⟩
  have hquiet4 := hquiet3.trans hq4
  refine .mono (closeFrame_sat (hat.mono hquiet4.le) (hfr.mono hquiet4.le) ht4) ?_
  rintro _ d ⟨hq, htd⟩
  exact ⟨hquiet4.trans hq, htd⟩

theorem copyingRounds_sat (ht : OptionalOk M test v)
    (hb : StmtOk M body [] w)
    (htok : c.tokens = {ctx.here testing} + R) (hat : c.At ctx env R)
    (hupdate : c.HasBlock ctx.func update ctx.scope) (hexit : c.HasBlock ctx.func exit ctx.scope)
    (hvars : vars.map (·.name) ≠ []) (hnodup : (vars.map (·.name)).Nodup)
    (hlocal : ∀ name ∈ vars.map (·.name), c.HasLocal ctx.scope name) :
    Sat M (copyingRounds vars test body ctx testing update exit) c fun _ d =>
      c.Grows env (.rounds (vars.map (·.name)) v w) d ∧ d.tokens = R := by
  unfold copyingRounds
  refine .bind hat.newScope_sat ?_
  intro k c1 hc1
  refine .bind (hc1.openFrame_sat (.refl c1) hat) ?_
  rintro fr c2 ⟨rfl, _, hc2, ht2⟩
  refine .bind ((hat.mono hc2.le).newBlockIn_sat fr.scope) ?_
  rintro ending c3 ⟨hq3, ht3, hending⟩
  have hc3 := hc2.still hq3.still
  refine .bind (setContinueTarget_sat hc3.fresh.scope (hc3.framed.home ▸ hending)) ?_
  rintro _ c4 ⟨hstill4, ht4⟩
  have hc4 := hc3.still hstill4
  have hopen : c4.tokens = {ctx.here testing} +
      ({.block ctx.func fr.body fr.scope} + ({.scope fr.scope (.naming [])} +
        ({ctx.here fr.entry} + ({.block ctx.func ending fr.scope} + R)))) := by
    rw [ht4, ht3, ht2, hc1.tokens, htok]
    ac_rfl
  have hat4 := hat.mono hc4.le
  refine .bind (forTest_sat ht hopen ((((hat4.add _).add _).add _).add _) hc4.framed.entry
    (hexit.mono hc4.le)) ?_
  rintro _ c5 ⟨hc5, ht5⟩
  have hfr5 := hc4.framed.mono hc5.le
  have hle5 := hc4.le.trans hc5.le
  refine .bind (@copyAllIn_sat _ _ (ctx.withScope fr.scope) _ _ _ _ vars _ ht5
    (((hc4.fresh.mono hc5.le).add _).add _) hfr5.parent
    (fun n hn => hle5.hasLocal _ _ (hlocal n hn)) hnodup) ?_
  rintro copies c6 ⟨hc6, ht6, hcopies⟩
  rw [nil_append] at ht6
  obtain ⟨c7, hstate, hq7, ht7, hat7⟩ := @Config.exists_settled _ _ (ctx.withScope fr.scope) _ _ _ _ _ _
    (ht6.trans (add_left_comm ..)) ((((hc4.fresh.mono hc5.le).add _).add _).mono hc6.le)
  refine .of_same_state hstate ?_
  refine .bind (hb c7 (ctx.withScope fr.scope) _ fr.body _ (ht7.trans (add_left_comm ..)) hat7
    fun _ => nofun) ?_
  intro last c8 hc8
  have hstill7 := hc6.trans hq7.still
  have hle8 := hstill7.le.trans hc8.le
  have hending8 := ((hending.mono hstill4.le).mono hc5.le).mono hle8
  refine .mono (endRound_sat (hat.mono (hle5.trans hle8)) (hfr5.mono hle8) hc8.tokens hending8
    (hupdate.mono (hle5.trans hle8)) fun copy ho => ?_) ?_
  · have hle := hq7.le.trans hc8.le
    exact ⟨(hcopies copy ho).1.mono hle, (hcopies copy ho).2.mono hle⟩
  · rintro _ d ⟨hq, htd⟩
    exact ⟨hc4.rounds hvars hc5 (hstill7.then (hc8.grows.still hq.still)), htd⟩

/-! ## Loops with a head -/

section For

variable {test update : Option ExprCode}

/-- The rounds of a loop, with copies if its head declares names. -/
theorem forRounds_sat {updating : BlockId} (ht : OptionalOk M test v)
    (hb : StmtOk M body [] w) (htok : c.tokens = {ctx.here testing} + R)
    (hat : c.At ctx env R) (hupdating : c.HasBlock ctx.func updating ctx.scope)
    (hexit : c.HasBlock ctx.func exit ctx.scope) (hnodup : (vars.map (·.name)).Nodup)
    (hlocal : ∀ name ∈ vars.map (·.name), c.HasLocal ctx.scope name) :
    Sat M (forRounds vars test body ctx testing updating exit) c fun _ d =>
      c.Grows env (.rounds (vars.map (·.name)) v w) d ∧ d.tokens = R := by
  cases vars with
  | nil => exact plainRounds_sat ht hb htok hat hupdating hexit
  | cons var vars => exact copyingRounds_sat ht hb htok hat hupdating hexit (cons_ne_nil _ _) hnodup hlocal

theorem updatePart_ok (hu : OptionalOk M update v) : StmtOk M (updatePart update) [] v := by
  intro c ctx env b R ht hat _
  cases update with
  | none =>
    obtain rfl : v = .skip := hu
    exact .pure ⟨(Config.Quiet.refl c).still.grows, ht⟩
  | some code =>
    refine .bind (hu c ctx env b R ht hat) ?_
    rintro r d ⟨hd, _⟩
    exact .pure hd

theorem endFor_sat {updating : BlockId} {env' : Env} (hu : OptionalOk M update v)
    (hat : c.At ctx env R) (hfr : c.Framed ctx fr)
    (hinner : c.At (ctx.withScope fr.scope) env'
      ({.block ctx.func exit fr.scope} + ({ctx.here fr.entry} + ({.scope fr.scope .running} + R))))
    (ht : c.tokens = {.block ctx.func updating fr.scope} +
      ({.block ctx.func exit fr.scope} + ({ctx.here fr.entry} + ({.scope fr.scope .running} + R))))
    (htesting : c.HasBlock ctx.func testing fr.scope) :
    Sat M (do
      let last ← updatePart update (ctx.withScope fr.scope) updating
      perform ctx last (.jump testing)
      closeLoop ctx fr exit) c fun b d =>
        c.Grows env' v d ∧ d.tokens = {ctx.here b} + R := by
  refine .bind (updatePart_ok hu c (ctx.withScope fr.scope) env' updating _ ht hinner fun _ => nofun) ?_
  intro last d hd
  refine .bind (@jump_sat _ _ _ _ ctx _ _ hd.tokens (htesting.mono hd.le)) ?_
  rintro _ e ⟨hq, hte⟩
  have hle := hd.le.trans hq.le
  refine .mono (closeLoop_sat (hat.mono hle) (hfr.mono hle) hte) ?_
  rintro b g ⟨hqg, htg⟩
  exact ⟨hd.grows.still (hq.trans hqg).still, htg⟩

end For

theorem forCode_ok {head : HeadCode} {update : Option ExprCode} {t u : Walk}
    (hh : HeadOk M head names u) (ht : OptionalOk M test t) (hu : OptionalOk M update v)
    (hb : StmtOk M body [] w) :
    StmtOk M (forCode head test update body) [] (.declaring names (u ++ (.rounds names t w ++ v))) := by
  intro c ctx env b R htok hat _
  unfold forCode
  refine .bind hat.newScope_sat ?_
  intro k c1 hc1
  refine .bind ((hat.mono hc1.le).newBlockIn_sat k) ?_
  rintro exit c2 ⟨hq2, ht2, hexit2⟩
  refine .bind (hc1.openFrame_sat hq2 hat) ?_
  rintro fr c3 ⟨rfl, hstill3, hc3, ht3⟩
  have hexit3 := hexit2.mono hstill3.le
  refine .bind (setBreakTarget_sat hc3.fresh.scope (hc3.framed.home ▸ hexit3)) ?_
  rintro _ c4 ⟨hstill4, ht4⟩
  have hc4 := hc3.still hstill4
  have hopen : c4.tokens = {ctx.here b} + ({.block ctx.func fr.body fr.scope} +
      ({.scope fr.scope (.naming [])} + ({.block ctx.func exit fr.scope} +
        ({ctx.here fr.entry} + R)))) := by
    rw [ht4, ht3, ht2, hc1.tokens, htok]
    ac_rfl
  refine .bind (jump_sat hopen hc4.framed.entry) ?_
  rintro _ c5 ⟨hq5, ht5⟩
  have hc5 := hc4.still hq5.still
  have hexit5 := (hexit3.mono hstill4.le).mono hq5.le
  refine .bind (hh c5 (ctx.withScope fr.scope) env fr.body _ ht5 ((hc5.fresh.add _).add _)) ?_
  rintro ⟨last, vars⟩ c6 ⟨hc6, hat6, rfl, hnodup, hlocal⟩
  have ht6 : c6.tokens = {.block ctx.func last fr.scope} + ({.scope fr.scope .running} +
      ({.block ctx.func exit fr.scope} + ({ctx.here fr.entry} + R))) := hc6.tokens
  have hinner6 : c6.At (ctx.withScope fr.scope)
      (env.declare (vars.map (·.name)) fr.scope) ({.block ctx.func exit fr.scope} +
        ({ctx.here fr.entry} + ({.scope fr.scope .running} + R))) :=
    hat6.weaken (Multiset.subset_of_le (le_of_eq (by rw [Ctx.withScope_scope]; ac_rfl)))
  have houter6 := hat.mono (hc5.le.trans hc6.le)
  refine .bind (houter6.newBlockIn_sat fr.scope) ?_
  rintro testing c7 ⟨hq7, ht7, htesting7⟩
  refine .bind ((houter6.mono hq7.le).newBlockIn_sat fr.scope) ?_
  rintro updating c8 ⟨hq8, ht8, hupdating8⟩
  have hlast : c8.tokens = {.block ctx.func last fr.scope} +
      ({.block ctx.func testing fr.scope} + ({.block ctx.func updating fr.scope} +
        ({.block ctx.func exit fr.scope} + ({ctx.here fr.entry} +
          ({.scope fr.scope .running} + R))))) := by
    rw [ht8, ht7, ht6]
    ac_rfl
  refine .bind (jump_sat hlast (htesting7.mono hq8.le)) ?_
  rintro _ c9 ⟨hq9, ht9⟩
  have hquiet9 := (hq7.trans hq8).trans hq9
  have hle9 := hc6.le.trans hquiet9.le
  have hinner9 := hinner6.mono hquiet9.le
  refine .bind (@forRounds_sat _ _ (ctx.withScope fr.scope) _ _ _ _ _ _ _ _ _ _ ht hb ht9 (hinner9.add _)
    (hupdating8.mono hq9.le) (hexit5.mono hle9) hnodup
    fun n hn => hquiet9.le.hasLocal _ _ (hlocal n hn)) ?_
  rintro _ d ⟨hd, htd⟩
  have hle := hle9.trans hd.le
  refine .mono (endFor_sat hu (hat.mono (hc5.le.trans hle)) (hc5.framed.mono hle)
    (hinner9.mono hd.le) htd (((htesting7.mono hq8.le).mono hq9.le).mono hd.le)) ?_
  rintro b' e ⟨he, hte⟩
  refine ⟨hc5.declaring ?_, hte⟩
  exact (hc6.grows.still hquiet9.still).trans (hd.trans he)

end ScriptIr.Lower
