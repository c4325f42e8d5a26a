import ScriptIr.Proofs.Static.Statements

/-!
# Checks of loops

A loop has a scope of its own, with the names that its head declares. In a `for` loop each round has a
further scope, which declares the same names again as copies and so looks like the scope around it.

* `whileCode_checks`, `doWhileCode_checks`: loops without a head.
* `HeadChecks`, `forCode_checks`: `for` loops.
* `ElementChecks`, `forEachCode_checks`: loops over elements.
-/
namespace ScriptIr.Static

open Code List Scope Scope.Arena
open Lower (Ctx Emit Plain ExprCode StmtCode closeLoop)

variable {loop : Bool} {T : Table Bool} {f g h i : Env → List Finding} {a0 : Arena}
  {m : ScopeId} {frame : Frame} {env : Env} {names : List String} {parent : Option ScopeId}
  {kind : Scope.Kind} {onBreak onContinue : Option BlockId}

/-! ## Targets of jumps -/

theorem Opens.setBreakTarget {b : Arena}
    (h : Opens a0 m (parent, kind, onBreak, onContinue) env T names b) (target : BlockId) :
    Opens a0 m (parent, kind, some target, onContinue) env T names (b.setBreakTarget m target) := by
  have hcontinue : (b.get m).continueTarget = onContinue := congrArg (·.2.2.2) h.frame
  have hr := Scope.Arena.replaced_modify h.lt fun s => { s with breakTarget := some target }
  subst hcontinue
  exact h.retarget hr

theorem Opens.setContinueTarget {b : Arena}
    (h : Opens a0 m (parent, kind, onBreak, onContinue) env T names b) (target : BlockId) :
    Opens a0 m (parent, kind, onBreak, some target) env T names (b.setContinueTarget m target) := by
  have hbreak : (b.get m).breakTarget = onBreak := congrArg (·.2.2.1) h.frame
  have hr := Scope.Arena.replaced_modify h.lt fun s => { s with continueTarget := some target }
  subst hbreak
  exact h.retarget hr

theorem Opened.setContinueTarget {b : Arena}
    (h : Opened a0 m (parent, kind, onBreak, onContinue) env b) (target : BlockId) :
    Opened a0 m (parent, kind, onBreak, some target) env (b.setContinueTarget m target) := by
  have hbreak : (b.get m).breakTarget = onBreak := congrArg (·.2.2.1) h.frame
  have hr := Scope.Arena.replaced_modify h.models.lt fun s => { s with continueTarget := some target }
  subst hbreak
  exact h.retarget hr

theorem setTargets_leads (exit next : BlockId) :
    Leads (Opens a0 m (parent, kind, onBreak, onContinue) env T names) [] (Lower.setTargets m exit next)
      fun _ => Opens a0 m (parent, kind, some exit, some next) env T names :=
  .modifyScopes fun _ h => Opens.setContinueTarget (Opens.setBreakTarget h exit) next

theorem Opened.sees : Sees (Opened a0 m frame env) m env := ⟨Opened.stable, fun _ h => h.models⟩

theorem Opened.seesIn {exit next : BlockId} :
    SeesIn (Opened a0 m (parent, kind, some exit, some next) env) m true env :=
  ⟨Opened.stable, fun _ h => ⟨h.models, Scope.Arena.exits_loop h.frame⟩⟩

/-! ## Loops without a head -/

section While

variable {test : ExprCode} {body : StmtCode}

theorem closeLoop_checks (frame : Lower.Frame) (exit : BlockId) :
    CodeChecks (fun ctx _ => closeLoop ctx frame exit) fun _ => [] :=
  fun ⟨_, h⟩ b => ((closeFrame_checks frame).at _ h b).done fun _ => .bind .popScopes fun _ => .pure _

theorem loopCode_checks {next : BlockId → BlockId → BlockId} {rounds : Lower.RoundsCode}
    (h : ∀ {P : Arena → Prop} {env} (ctx inner : Ctx), SeesIn P inner.scope true env →
      ∀ start first second exit, Leads P (f env) (rounds ctx inner start first second exit) fun _ => P) :
    PlainChecks loop (Lower.loopCode next rounds) fun env => f (env.enter [] []) := by
  rintro ⟨⟨ctx, env, P⟩, hP⟩ b
  refine .of_start fun a ha => ?_
  refine .bind_nil (newScope_leads (hP.models a ha).toModels) fun m =>
    .step .newBlock fun exit => .step .openFrame fun frame =>
    .step .newBlock fun first => .step .newBlock fun second =>
    .bind_nil ((setTargets_leads exit _).conseq (fun _ h => h.1) fun _ _ h => Opened.of_opens h) fun _ =>
    .step .jump fun _ => ?_
  refine .bind_done ((h ctx (ctx.withScope m) Opened.seesIn frame.body first second exit).conseq
    (fun _ h => h) fun _ c hc => hP.stable a c ha hc.kept) fun _ => ?_
  exact (closeLoop_checks frame exit).at _ hP.sees b

theorem whileCode_checks (ht : CodeChecks test f) (hb : PlainChecks true body g) :
    PlainChecks loop (Lower.whileCode test body)
      fun env => f (env.enter [] []) ++ g (env.enter [] []) :=
  loopCode_checks fun _ inner hP _ testing round _ => .step .jump fun _ =>
    (ht.at inner hP.sees testing).bind fun _ => .step (.perform rfl) fun _ =>
      (hb.at inner hP round).done fun _ => .jump

theorem doWhileCode_checks (ht : CodeChecks test f) (hb : PlainChecks true body g) :
    PlainChecks loop (Lower.doWhileCode test body)
      fun env => g (env.enter [] []) ++ f (env.enter [] []) :=
  loopCode_checks fun _ inner hP _ round testing _ => .step .jump fun _ =>
    (hb.at inner hP round).bind fun _ => .step .jump fun _ =>
      (ht.at inner hP.sees testing).done fun _ => .perform rfl

end While

/-! ## `for` loops -/

/-- The first part of a head enters the names of a table in the scope of the loop, checks its parts and
binds the names. It answers them. -/
def HeadChecks (head : Lower.HeadCode) (T : Table Bool) (f : Env → List Finding) : Prop :=
  ∀ (ctx : Ctx) (b : BlockId) (a0 : Arena) (frame : Frame) (env : Env),
    Leads (Opens a0 ctx.scope frame env [] []) (.scope T.names :: f (env.enter T T.names)) (head ctx b)
      fun r a => Opened a0 ctx.scope frame (env.enter T []) a ∧
        r.2.map (fun v => (v.name, v.constant)) = T ∧ T.names.Nodup

variable (d : Tree.Declaration)

section Heads

theorem emptyHead_checks : HeadChecks Lower.emptyHead [] fun _ => [] :=
  fun _ _ _ _ _ _ hs => ⟨fine_scope.mpr nodup_nil, .of_opens hs, rfl, nodup_nil⟩

theorem expressionHead_checks {e : ExprCode} (he : CodeChecks e f) :
    HeadChecks (Lower.expressionHead e) [] f := by
  intro ctx b a0 frame env
  show Leads _ ([.scope []] ++ f (env.enter [] [])) _ _
  refine .already ?_ fun _ _ => fine_scope.mpr nodup_nil
  refine .bind_done ((he.at _ Opened.sees b).conseq (fun _ h => .of_opens h) fun _ _ h => h) fun r => ?_
  exact .pure fun a ha => ⟨ha, rfl, nodup_nil⟩

theorem declaration_leads {x : Emit α} (ctx : Ctx)
    (hx : ∀ env : Env, env.Awaits d.table → Binds ctx.scope d.boundNames env (f env) x) :
    Leads (Opens a0 ctx.scope frame env d.table d.boundNames) (f (env.enter d.table d.boundNames)) x
      fun _ a => Opened a0 ctx.scope frame (env.enter d.table []) a ∧ d.table.names.Nodup := by
  refine .of_start fun a ha => ?_
  have hawaits : (env.enter d.table d.boundNames).Awaits d.table := by
    refine ⟨ha.nodup, fun e he => ?_, fun e he => ?_⟩
    · show e.1 ∈ d.boundNames
      rw [← names_table]
      exact mem_map_of_mem he
    · rw [Env.constant?_enter, Table.find?_of_mem ha.nodup he]
      rfl
  have hrest : Stable (some ctx.scope) fun c => a0.Kept none c ∧ a0.scopes.size ≤ ctx.scope ∧
      ctx.scope < c.scopes.size ∧ (c.get ctx.scope).frame = frame := Opened.stable_rest
  refine (hx _ hawaits _ hrest).conseq (fun c hc => ?_) fun _ c hc => ?_
  · subst hc
    exact ⟨⟨ha.kept, ha.start, ha.lt, ha.frame⟩, ha.models⟩
  · obtain ⟨⟨hkept, hstart, _, hframe⟩, hmodels⟩ := hc
    rw [Env.bind_enter_self] at hmodels
    exact ⟨⟨hkept, hstart, hframe, hmodels⟩, ha.nodup⟩

theorem declarationHead_checks {code : StmtCode}
    (hc : TableChecks d.table code fun env => d.refusals ++ f env) :
    HeadChecks (Lower.declarationHead d code) d.table fun env => d.refusals ++ f env := by
  intro ctx b a0 frame env
  have hfine : Fine ((d.refusals ++ [.scope d.table.names]) ++
      (d.refusals ++ f (env.enter d.table d.boundNames))) ↔
      Fine (.scope d.table.names :: (d.refusals ++ f (env.enter d.table d.table.names))) := by
    rw [names_table]
    simp only [fine_append, fine_cons, fine_nil, and_true]
    exact ⟨fun h => ⟨h.1.2, h.2⟩, fun h => ⟨⟨h.2.1, h.1⟩, h.2⟩⟩
  refine Leads.congr ((announce_leads ctx b d).bind fun _ => ?_) hfine
  have hbind : Leads (Opens a0 ctx.scope frame env d.table d.boundNames) _ (code ctx b) _ :=
    declaration_leads d ctx fun env he => names_table d ▸ hc ctx b env he
  refine hbind.bind_done fun last => .pure fun a ha => ⟨ha.1, ?_, ha.2⟩
  rw [map_map]
  rfl

end Heads

section Rounds

variable {test update : Option ExprCode} {body : StmtCode}

abbrev OptionChecks (code : Option ExprCode) (f : Env → List Finding) : Prop :=
  (checking Sees).Perhaps (checking Sees).Code (fun i => f i.1.2.1) code code

/-- What is known about the scope of a loop once its rounds have been lowered. -/
def Looped (a0 : Arena) (m : ScopeId) (env : Env) (a : Arena) : Prop := a0.Kept none a ∧ a.Models m env

theorem Looped.sees : Sees (Looped a0 m env) m env :=
  ⟨fun _ _ h hk => ⟨h.1.trans hk (by simp), h.2.kept hk (by simp)⟩, fun _ h => h.2⟩

theorem plainRounds_leads (ht : OptionChecks test f) (hb : PlainChecks true body g) (ctx : Ctx)
    (testing updating exit : BlockId) :
    Leads (Opened a0 ctx.scope (parent, kind, some exit, none) env) (f env ++ g env)
      (Lower.plainRounds test body ctx testing updating exit) fun _ => Looped a0 ctx.scope env := by
  refine .bind_nil (.modifyScopes fun _ h => Opened.setContinueTarget h updating) fun _ =>
    .step .newBlock fun round =>
    Leads.bind (Lower.Calculus.forTest (i := checking.site ctx Opened.sees) ht) fun _ => ?_
  refine .done ?_ fun _ => .jump
  exact (hb.at _ Opened.seesIn round).conseq (fun _ h => h) fun _ _ h => ⟨h.kept, h.models⟩

/-! ### Copies -/

/-- A scope that is as an environment says and does not declare some names itself. -/
def Lacks (a0 : Arena) (m : ScopeId) (frame : Frame) (env : Env) (names : List String) (a : Arena) :
    Prop :=
  Opened a0 m frame env a ∧ ∀ name ∈ names, (a.get m).standing? name = none

theorem Lacks.stable : Stable none (Lacks a0 m frame env names) := fun a b h hk =>
  ⟨Opened.stable a b h.1 hk, fun name hn => by
    rw [hk.standing m h.1.models.lt (by simp)]
    exact h.2 name hn⟩

theorem Lacks.sees : Sees (Lacks a0 m frame env names) m env := ⟨Lacks.stable, fun _ h => h.1.models⟩

theorem copyIn_leads (ctx : Ctx) (b : BlockId) (v : Lower.LoopVariable) (hpending : env.pending = [])
    (hconst : env.constant? v.name = some v.constant) (hnew : v.name ∉ names) :
    Leads (Lacks a0 ctx.scope frame env (v.name :: names)) [] (Lower.copyIn ctx b v)
      fun _ => Lacks a0 ctx.scope frame env names := by
  have hsees : Sees (Lacks a0 ctx.scope frame env (v.name :: names)) ctx.scope env := Lacks.sees
  have hfine : Fine ([.use v.name false (decide (v.name ∈ env.pending)) false] ++ []) ↔ Fine [] := by
    simp [hpending, Finding.Fine]
  refine Leads.congr ((hsees.lookup v.name).bind fun r => .assume fun _ => ?_) hfine
  cases r with
  | none => exact .fault _
  | some r =>
    refine .step .slotAddress fun outer => .step (.emit rfl) fun inner =>
      .step (.emit rfl) fun _ => .step (.perform rfl) fun _ =>
      .bind_quiet (.discard ?_) fun _ => .pure _
    refine .naming fun a h => ?_
    obtain ⟨ha, hlacks⟩ := h
    obtain ⟨c, hrun, hmodels, hkept, hframe, hother⟩ :=
      ha.models.copy (hlacks v.name mem_cons_self) hconst inner
    rw [hrun]
    refine ⟨fine_nil, ⟨hkept a0 ha.kept ha.start, ha.start, hframe.trans ha.frame, hmodels⟩,
      fun name hn => ?_⟩
    rw [hother name fun he => hnew (he ▸ hn)]
    exact hlacks name (mem_cons_of_mem _ hn)

theorem copyAllIn_leads (ctx : Ctx) (b : BlockId) (vs : List Lower.LoopVariable)
    (hpending : env.pending = []) (hconst : ∀ v ∈ vs, env.constant? v.name = some v.constant)
    (hnodup : (vs.map (·.name)).Nodup) :
    Leads (Lacks a0 ctx.scope frame env (vs.map (·.name))) [] (Lower.copyAllIn ctx b vs)
      fun _ => Opened a0 ctx.scope frame env := by
  induction vs with
  | nil => exact .pure fun _ h => h.1
  | cons v vs ih =>
    obtain ⟨hv, hnodup⟩ := nodup_cons.mp hnodup
    exact .bind_nil (copyIn_leads ctx b v hpending (hconst v mem_cons_self) hv) fun _ =>
      (ih (fun w hw => hconst w (mem_cons_of_mem _ hw)) hnodup).bind_quiet fun _ => .pure _

/-- A scope without names of its own is as the environment around it says. -/
theorem models_enter_nil {a : Arena} (h : a.Models m (env.enter [] [])) (hpending : env.pending = []) :
    a.Models m env :=
  ⟨h.lt, h.sound, h.honest, fun name => by rw [h.constants, Env.constant?_enter]; rfl, fun name => by
    rw [← h.pending, hpending]; rfl⟩

theorem copyingRounds_leads (ht : OptionChecks test f) (hb : PlainChecks true body g) (ctx : Ctx)
    (testing updating exit : BlockId) (vs : List Lower.LoopVariable) (hpending : env.pending = [])
    (hconst : ∀ v ∈ vs, env.constant? v.name = some v.constant) (hnodup : (vs.map (·.name)).Nodup) :
    Leads (Opened a0 ctx.scope (parent, kind, some exit, none) env) (f env ++ g env)
      (Lower.copyingRounds vs test body ctx testing updating exit)
      fun _ => Looped a0 ctx.scope env := by
  refine .of_start fun a ha => ?_
  have hbreak : (a.get ctx.scope).breakTarget = some exit := congrArg (·.2.2.1) ha.frame
  refine .bind_nil (newScope_leads ha.models) fun m => .step .openFrame fun frame =>
    .step .newBlock fun ending => ?_
  -- the scope of a round, before it declares the copies
  have hround : Leads (fun c => Opens a m (some ctx.scope, .block, none, none) env [] [] c ∧
      (c.get m).rest = none ∧ (c.get m).locals = []) []
      (Lower.modifyScopes (·.setContinueTarget m ending))
      fun _ => Lacks a m (some ctx.scope, .block, none, some ending) env (vs.map (·.name)) := by
    refine .modifyScopes fun c hc => ?_
    have hopens := Opens.setContinueTarget hc.1 ending
    refine ⟨⟨hopens.kept, hopens.start, hopens.frame, models_enter_nil hopens.models hpending⟩,
      fun name _ => ?_⟩
    exact Option.map_eq_none_iff.mp (hopens.own name)
  have houter : Sees (Lacks a m (some ctx.scope, .block, none, some ending) env (vs.map (·.name)))
      ctx.scope env := ⟨Lacks.stable, fun c hc => ha.models.kept hc.1.kept (by simp)⟩
  have hinner : SeesIn (Opened a m (some ctx.scope, .block, none, some ending) env) m true env := by
    refine ⟨Opened.stable, fun c hc => ⟨hc.models, ?_⟩⟩
    have hsame : (c.get ctx.scope).breakTarget = (a.get ctx.scope).breakTarget :=
      congrArg (·.2.2.1) (hc.kept.frame ctx.scope ha.models.lt)
    exact Scope.Arena.exits_round hc.frame (Nat.lt_of_lt_of_le ha.models.lt hc.start) (hsame.trans hbreak)
  have hbody : Leads (Opened a m (some ctx.scope, .block, none, some ending) env) (g env)
      (body (ctx.withScope m) frame.body) fun _ => Looped a0 ctx.scope env :=
    (hb.at (ctx.withScope m) hinner frame.body).conseq (fun _ h => h) fun _ c hc =>
      ⟨ha.kept.trans hc.kept (by simp), ha.models.kept hc.kept (by simp)⟩
  refine .bind_nil hround fun _ => Leads.bind (Lower.Calculus.forTest
    (i := checking.site ctx houter) ht) fun _ =>
      .bind_nil (copyAllIn_leads (ctx.withScope m) frame.body vs hpending hconst hnodup)
    fun copies => hbody.bind_done fun last => ?_
  exact .step .jump fun _ => .step .copyAllOut fun _ =>
    .step .popScopes fun _ => .step .jump fun _ =>
    (closeFrame_checks frame).at _ Looped.sees ending

theorem forCode_checks {head : Lower.HeadCode} (hh : HeadChecks head T h) (ht : OptionChecks test f)
    (hb : PlainChecks true body g) (hu : OptionChecks update i) :
    PlainChecks loop (Lower.forCode head test update body) fun env =>
      .scope T.names :: (h (env.enter T T.names) ++
        (f (env.enter T []) ++ (g (env.enter T []) ++ i (env.enter T [])))) := by
  rintro ⟨⟨ctx, env, P⟩, hP⟩ b
  refine .of_start fun a ha => ?_
  show Leads _ ((.scope T.names :: h (env.enter T T.names)) ++ (f (env.enter T []) ++
    (g (env.enter T []) ++ i (env.enter T [])))) _ _
  rw [← append_assoc (f _)]
  refine .bind_nil (newScope_leads (hP.models a ha).toModels) fun m =>
    .step .newBlock fun exit => .step .openFrame fun frame =>
    .bind_nil (.modifyScopes fun _ hc => Opens.setBreakTarget hc.1 exit) fun _ =>
    .step .jump fun _ => (hh (ctx.withScope m) frame.body a _ env).bind
    fun r => .step .newBlock fun testing => .step .newBlock fun updating =>
    .step .jump fun _ => .assume fun ⟨hvars, hnodup⟩ => ?_
  have hclose : Sees (Looped a m (env.enter T [])) ctx.scope env :=
    ⟨Looped.sees.stable, fun c hc => (hP.models a ha).toModels.kept hc.1 (by simp)⟩
  have hupdate : Leads (Looped a m (env.enter T [])) (i (env.enter T []))
      (Lower.updatePart update (ctx.withScope m) updating) fun _ => Looped a m (env.enter T []) :=
    Lower.Calculus.updatePart (K := checking Sees) (i := checking.site (ctx.withScope m) Looped.sees) hu
  refine Leads.bind (Q := fun _ => Looped a m (env.enter T [])) ?_ fun _ =>
    .conseq (hupdate.bind_done fun last => .step .jump fun _ => (closeLoop_checks frame exit).at _ hclose b)
      (fun _ h => h) fun _ c hc => hP.stable a c ha hc.1
  unfold Lower.forRounds
  split
  · exact plainRounds_leads ht hb (ctx.withScope m) testing updating exit
  · refine copyingRounds_leads ht hb (ctx.withScope m) testing updating exit r.2 rfl (fun v hv => ?_) ?_
    · have hmem : (v.name, v.constant) ∈ T := hvars ▸ mem_map_of_mem hv
      rw [Env.constant?_enter, Table.find?_of_mem hnodup hmem]
      rfl
    · have hnames : T.names = r.2.map (·.name) := by
        rw [← hvars]
        exact map_map
      exact hnames ▸ hnodup

end Rounds

/-! ## Loops over elements -/

/-- What receives each element enters the names of a table in the scope of the round, checks its parts
and binds the names. -/
def ElementChecks (target : Lower.ElementCode) (T : Table Bool) (f : Env → List Finding) : Prop :=
  ∀ (ctx : Ctx) (b : BlockId) (element : InstId) (a0 : Arena) (frame : Frame) (env : Env),
    Leads (Opens a0 ctx.scope frame env [] []) (.scope T.names :: f (env.enter T T.names))
      (target ctx b element) fun _ => Opened a0 ctx.scope frame (env.enter T [])

section Elements

theorem assignElement_checks {place : Lower.PlaceCode} (hp : CodeChecks place f) :
    ElementChecks (Lower.assignElement place) [] f := by
  intro ctx b element a0 frame env
  show Leads _ ([.scope []] ++ f (env.enter [] [])) _ _
  refine .already ?_ fun _ _ => fine_scope.mpr nodup_nil
  refine .done ?_ fun r => .bind .writePlace fun _ => .pure _
  exact (hp.at _ Opened.sees b).conseq (fun _ h => .of_opens h) fun _ _ h => h

theorem declareElement_checks {init : Option ExprCode} {bind : Lower.BindCode}
    (hb : BindChecks bind d.boundNames f) :
    ElementChecks (Lower.declareElement d [⟨init, bind⟩]) d.table fun env => d.refusals ++ f env := by
  intro ctx b element a0 frame env
  have hfine : Fine (d.refusals ++ ((d.refusals ++ [.scope d.table.names]) ++
      f (env.enter d.table d.boundNames))) ↔
      Fine (.scope d.table.names :: (d.refusals ++ f (env.enter d.table d.table.names))) := by
    rw [names_table]
    simp only [fine_append, fine_cons, fine_nil, and_true]
    exact ⟨fun h => ⟨h.2.1.2, h.1, h.2.2⟩, fun h => ⟨h.2.1, ⟨h.2.1, h.1⟩, h.2.2⟩⟩
  refine Leads.congr ((Leads.refusedIf _ _ _).bind fun _ => (announce_leads ctx b d).bind fun _ => ?_)
    hfine
  have hbind : Leads (Opens a0 ctx.scope frame env d.table d.boundNames) _
      (bind ctx b element d.isConstant) _ :=
    declaration_leads d ctx fun env he => hb ctx b element d.isConstant env he
  exact hbind.conseq (fun _ h => h) fun _ _ h => h.1

theorem declareElement_refused {binders : List Lower.Binder}
    (hlength : binders.length ≠ 1) (hf : ∀ env, ¬Fine (f env)) :
    ElementChecks (Lower.declareElement d binders) T f := by
  intro ctx b element a0 frame env
  have hfails : Leads (Opens a0 ctx.scope frame env [] []) (d.refusals ++ f (env.enter T T.names))
      (Lower.declareElement d binders ctx b element) fun _ => Opened a0 ctx.scope frame (env.enter T []) := by
    refine (Leads.refusedIf _ _ _).bind fun _ => ?_
    match binders with
    | [] => exact .unsupported (hf _)
    | [_] => exact absurd rfl hlength
    | _ :: _ :: _ => exact .unsupported (hf _)
  refine hfails.congr (iff_of_false (fun h => hf _ (fine_append.mp h).2) fun h => hf _ (fine_cons.mp h).2)

theorem forEachCode_checks {protocol : Lower.Protocol} {value : ExprCode} {target : Lower.ElementCode}
    {body : StmtCode} (hprotocol : ∀ {ctx : Ctx} {r v}, Plain ctx.func (protocol ctx r v))
    (hv : CodeChecks value f)
    (ht : ElementChecks target T h) (hb : PlainChecks true body g) (isAwait : Bool)
    (loc : Option Location) :
    PlainChecks loop (Lower.forEachCode protocol value target body isAwait loc) fun env =>
      refusedIf isAwait .forAwait loc ++ (f env ++
        (.scope T.names :: (h (env.enter T T.names) ++ g (env.enter T [])))) := by
  rintro ⟨⟨ctx, env, P⟩, hP⟩ b
  refine .refusedIf_bind _ _ _ ((hv.at _ hP.sees b).bind fun v => .of_start fun a ha => ?_)
  refine .step .newBlock fun next => .step .newBlock fun exit =>
    .step .newBlock fun broken =>
    .bind_nil (newScope_leads (hP.models a ha).toModels) fun m =>
    .step .openFrame fun frame => .step .newBlock fun ending =>
    .bind_nil ((setTargets_leads broken ending).conseq (fun _ h => h.1) fun _ _ h => h) fun _ =>
    .step hprotocol fun element =>
    (ht (ctx.withScope m) frame.body element a _ env).bind fun round => ?_
  refine .bind_done ((hb.at (ctx.withScope m) Opened.seesIn round).conseq (fun _ h => h)
    fun _ c hc => hP.stable a c ha hc.kept) fun last => ?_
  exact .step .jump fun _ => .step .popScopes fun _ =>
    .step .jump fun _ =>
    ((closeFrame_checks frame).at _ hP.sees b).bind_quiet fun _ => .pure _

end Elements

end ScriptIr.Static
