import ScriptIr.Proofs.Static.Functions

/-!
# Checks of statements

A statement checks its parts and binds the names that it declares. A list of statements in a scope of
its own first enters all its names, then binds those of its functions, and then the others one by one.

* `listCode_leads`: a list of statements in a scope that has some arguments.
* `blockCode_checks`, `jumpCode_checks`: kinds of statements.
-/
namespace ScriptIr.Static

open Code List Scope Scope.Arena
open Lower (Ctx Emit Plain ExprCode StmtCode runAll items Item)
open ScriptIr.Tree

variable {loop : Bool} {T U : Table Bool} {f g h : Env → List Finding} {code : StmtCode}
  {a0 : Arena} {k m : ScopeId} {frame : Frame} {env : Env}

variable {P : Arena → Prop} {e : ExprCode} {args : Table Bool}
  {ss : List Statement}

/-! ## Contracts -/

/-- An assertion under which a scope, inside a loop or not, is as an environment says. -/
structure SeesIn (P : Arena → Prop) (k : ScopeId) (loop : Bool) (env : Env) : Prop where
  stable : Stable none P
  models : ∀ a, P a → a.ModelsIn k loop env

theorem SeesIn.sees (h : SeesIn P k loop env) : Sees P k env :=
  ⟨h.stable, fun a ha => (h.models a ha).toModels⟩

/-- A statement, inside a loop or not, checks its parts and binds no names. -/
abbrev PlainChecks (loop : Bool) (code : StmtCode) (f : Env → List Finding) : Prop :=
  (checking (SeesIn · · loop ·)).Code (fun i => f i.1.2.1) code code

theorem PlainChecks.at (hc : PlainChecks loop code f) (ctx : Ctx) (hP : SeesIn P ctx.scope loop env)
    (b : BlockId) : Checks P (f env) (code ctx b) := hc ⟨(ctx, env, P), hP⟩ b

/-- A statement, inside a loop or not, checks its parts and binds the names of a table. -/
def StmtChecks (loop : Bool) (T : Table Bool) (code : StmtCode) (f : Env → List Finding) : Prop :=
  ∀ (ctx : Ctx) (b : BlockId) (env : Env) (G : Arena → Prop), Stable (some ctx.scope) G → env.Awaits T →
    Leads (fun a => G a ∧ a.ModelsIn ctx.scope loop env) (f env) (code ctx b)
      fun _ a => G a ∧ a.ModelsIn ctx.scope loop (env.bind T.names)

theorem CodeChecks.plain {c : Ctx → BlockId → Emit α} (hc : CodeChecks c f) :
    (checking (SeesIn · · loop ·)).Code (fun i => f i.1.2.1) c c := fun i => hc ⟨i.1, i.2.sees⟩

theorem PlainChecks.stmt (hc : PlainChecks loop code f) : StmtChecks loop [] code f := by
  intro ctx b env G hG _
  show Leads _ _ _ fun _ a => G a ∧ a.ModelsIn ctx.scope loop (env.bind [])
  rw [Env.bind_nil]
  exact hc.at ctx ⟨hG.closed.and Scope.Arena.stable_modelsIn, fun _ h => h.2⟩ b

/-- A statement that binds no names leaves its scope as it is. -/
theorem StmtChecks.plain (hc : StmtChecks loop [] code f) : PlainChecks loop code f := by
  rintro ⟨⟨ctx, env, P⟩, hP⟩ b
  refine .of_start fun a ha => ?_
  have hstable : Stable (some ctx.scope) fun c => a.Kept (some ctx.scope) c :=
    fun _ _ h hk => h.trans hk fun _ _ he => he
  have hm := hP.models a ha
  refine (hc ctx b env _ hstable .nil).conseq (fun c hc => ?_) fun _ c hc => ?_
  · rw [hc]
    exact ⟨.refl hm.sound hm.honest, hm⟩
  · have hc' : c.ModelsIn ctx.scope loop (env.bind []) := hc.2
    rw [Env.bind_nil] at hc'
    exact hP.stable a c ha (hc.1.closed hm.toModels hc'.toModels)

theorem TableChecks.stmt (hc : TableChecks T code f) : StmtChecks loop T code f := by
  intro ctx b env G hG hawaits
  have hstable : Stable (some ctx.scope) fun a =>
      G a ∧ ctx.scope < a.scopes.size ∧ a.Exits ctx.scope loop :=
    hG.and fun a c hx hk => ⟨Nat.lt_of_lt_of_le hx.1 hk.size, hx.2.kept hx.1 hk⟩
  refine (hc ctx b env hawaits _ hstable).conseq (fun a ha => ?_) fun _ a ha => ?_
  · exact ⟨⟨ha.1, ha.2.lt, ha.2.exits⟩, ha.2.toModels⟩
  · exact ⟨ha.1.1, ha.2, ha.1.2.2⟩

/-! ## Simple statements -/

theorem returnCode_checks {e : Option ExprCode} (hf : CodeChecks (Lower.initCode e) f) :
    CodeChecks (Lower.returnCode e) f :=
  hf.bind_quiet fun _ _ _ => .bind .scopes fun _ =>
    (Plain.bind .popScopes fun _ => .bind (.perform rfl) fun _ => .newBlock).quiet

theorem jumpCode_checks {label : Option Tree.Identifier} {loc : Option Location} {labeled : Construct}
    {missing : Error} {find : Arena → ScopeId → Option (BlockId × Nat)}
    (hfind : ∀ a k, a.ModelsIn k loop env → (find a k).isSome = loop) {ctx : Ctx} {b : BlockId}
    (hP : SeesIn P ctx.scope loop env) :
    Checks P (refusedIf label.isSome labeled loc ++ [.jump loop])
      (Lower.jumpCode label loc labeled missing find ctx b) := by
  refine .refusedIf_bind _ _ _ (.scopes_bind fun a ha => ?_)
  have hloop := hfind a ctx.scope (hP.models a ha)
  cases hrun : find a ctx.scope with
  | none =>
    rw [hrun] at hloop
    exact .throw fun hf => by simp [← hloop, Finding.Fine] at hf
  | some r =>
    rw [hrun] at hloop
    refine Leads.congr ?_ (show Fine [] ↔ Fine [.jump loop] by simp [← hloop, Finding.Fine])
    refine (Leads.quiet ?_).conseq (fun c (hc : c = a) => hc ▸ ha) fun _ _ h => h
    exact (Plain.bind .popScopes fun _ => .bind .jump fun _ => .newBlock).quiet

theorem breakCode_checks (label : Option Tree.Identifier) (loc : Option Location) :
    PlainChecks loop (Lower.breakCode label loc)
      fun _ => refusedIf label.isSome .labeledBreak loc ++ [.jump loop] :=
  fun ⟨_, hP⟩ _ => jumpCode_checks (fun a k hk => by
    rw [← hk.exits.1, Scope.Arena.exit?, Option.isSome_map]; rfl) hP

theorem continueCode_checks (label : Option Tree.Identifier) (loc : Option Location) :
    PlainChecks loop (Lower.continueCode label loc)
      fun _ => refusedIf label.isSome .labeledContinue loc ++ [.jump loop] :=
  fun ⟨_, hP⟩ _ => jumpCode_checks (fun a k hk => by
    rw [← hk.exits.2, Scope.Arena.exit?, Option.isSome_map]; rfl) hP

theorem bareCode_checks (kind : Tree.BareStatement) (loc : Option Location) :
    CodeChecks (Lower.bareCode kind loc) fun _ => kind.refusals loc := by
  unfold Tree.BareStatement.refusals
  refine Lower.Calculus.code_bareCode (fun construct h _ => ?_) fun h _ => ?_
  · rw [h]
    exact .inr not_fine_refused
  · rw [h]
    rfl

/-! ## Lists -/

theorem runAll_nil : StmtChecks loop [] (fun ctx b => runAll ctx b []) fun _ => [] :=
  PlainChecks.stmt fun _ _ => (checking (SeesIn · · loop ·)).plain (.pure _)

theorem runAll_cons {codes : List StmtCode} (hf : StmtChecks loop T code f)
    (hg : StmtChecks loop U (fun ctx b => runAll ctx b codes) g) :
    StmtChecks loop (T ++ U) (fun ctx b => runAll ctx b (code :: codes))
      fun env => f env ++ g (env.bind T.names) := by
  intro ctx b env G hG hawaits
  rw [Env.names_append, ← Env.bind_bind]
  exact (hf ctx b env G hG hawaits.left).bind fun last => hg ctx last _ G hG hawaits.right

/-- The names of a list are those of its functions and those of its other statements. -/
theorem listTable_perm (ss : List Statement) :
    (listTable ss).Perm (hoistedTable ss ++ placedTable ss) := by
  induction ss with
  | nil => exact .refl _
  | cons s ss ih =>
    have hlist : listTable (s :: ss) = s.hoistedTable ++ (s.placedTable ++ listTable ss) := by
      rw [← append_assoc]
      exact flatMap_cons
    have hhoisted : hoistedTable (s :: ss) = s.hoistedTable ++ hoistedTable ss :=
      flatMap_cons
    have hplaced : placedTable (s :: ss) = s.placedTable ++ placedTable ss :=
      flatMap_cons
    rw [hlist, hhoisted, hplaced, append_assoc]
    refine .append_left _ ((ih.append_left _).trans ?_)
    rw [← append_assoc, ← append_assoc]
    exact perm_append_comm.append_right _

theorem awaits_listTable (env : Env) (hnodup : (args ++ listTable ss).names.Nodup) :
    (env.enter (args ++ listTable ss) (listTable ss).names).Awaits
      (hoistedTable ss ++ placedTable ss) := by
  refine Env.Awaits.perm ⟨?_, fun e he => mem_map_of_mem he, fun e he => ?_⟩ (listTable_perm ss)
  · rw [Env.names_append] at hnodup
    exact (nodup_append.mp hnodup).2.1
  · rw [Env.constant?_enter, Table.find?_of_mem hnodup (mem_append_right args he)]
    rfl

section

variable
  (hf : StmtChecks loop (hoistedTable ss)
    (fun ctx b => runAll ctx b ((items ss).filterMap Item.hoisted?)) f)
  (hg : StmtChecks loop (placedTable ss)
    (fun ctx b => runAll ctx b ((items ss).filterMap Item.inPlace?)) g)
include hf hg

theorem listCode_leads
    (ctx : Ctx) (b : BlockId)
    (hexits : ∀ a, Opens a0 ctx.scope frame env (args ++ listTable ss) (listTable
      ss).names a → a.Exits ctx.scope loop) :
    Leads (Opens a0 ctx.scope frame env args []) (listFindings args ss f g env)
      (Lower.listCode (items ss) ctx b) fun _ a => a0.Kept none a := by
  have hfindings : listFindings args ss f g env
      = (Tree.listRefusals ss ++ [.scope (args ++ listTable ss).names]) ++
        (f (env.enter (args ++ listTable ss) (listTable ss).names) ++
          g ((env.enter (args ++ listTable ss) (listTable ss).names).bind (hoistedTable ss).names)) := by
    simp [listFindings]
  rw [hfindings]
  refine (announceItems_leads ctx b ss).bind fun _ => .of_start fun a ha => ?_
  rw [nil_append] at ha
  have hawaits := awaits_listTable env ha.nodup
  -- what stays while the names of the scope are reached
  have hrest : Stable (some ctx.scope) fun c => a0.Kept none c ∧ a0.scopes.size ≤ ctx.scope ∧
      ctx.scope < c.scopes.size ∧ (c.get ctx.scope).frame = frame := Opened.stable_rest
  refine Leads.conseq ((hf ctx b _ _ hrest hawaits.left).bind fun last =>
    hg ctx last _ _ hrest hawaits.right) (fun c hc => ?_) fun _ c hc => hc.1.1
  subst hc
  exact ⟨⟨ha.kept, ha.start, ha.lt, ha.frame⟩, ha.models, hexits c ha⟩

theorem blockCode_checks :
    PlainChecks loop (Lower.blockCode (items ss)) (listFindings [] ss f g) := by
  rintro ⟨⟨ctx, env, P⟩, hP⟩ b
  refine .of_start fun a ha => ?_
  have hm := hP.models a ha
  refine .bind_nil (newScope_leads hm.toModels) fun m => .step .openFrame fun frame =>
    .step .jump fun _ => ?_
  have hexits : ∀ c, Opens a m (some ctx.scope, .block, none, none) env ([] ++ listTable ss)
      (listTable ss).names c → c.Exits m loop := fun c hc =>
    Scope.Arena.exits_block hc.frame (Nat.lt_of_lt_of_le hm.lt hc.start) (hm.exits.kept hm.lt hc.kept)
  have hlist := listCode_leads hf hg (ctx.withScope m) frame.body hexits
  refine .bind_done (hlist.conseq (fun _ h => h.1) fun _ c hc => hP.stable a c ha hc) fun last => ?_
  exact ((closeFrame_checks frame).at _ hP.sees b).done fun _ =>
    .bind .popScopes fun _ => .pure _

end

/-! ## Bodies of functions -/

/-- The statements of a function. A jump in them finds no target outside. -/
theorem statementBody_checks (hf : StmtChecks false (hoistedTable ss) (fun ctx b => runAll ctx b ((items
      ss).filterMap Item.hoisted?)) f)
    (hg : StmtChecks false (placedTable ss) (fun ctx b => runAll ctx b ((items
      ss).filterMap Item.inPlace?)) g) :
    BodyChecks (Lower.statementBody (Lower.listCode (items ss))) fun args => listFindings args ss f g := by
  intro ctx b a0 env args parent
  exact (listCode_leads hf hg ctx b fun a ha => Scope.Arena.exits_function ha.frame).done
    fun _ => .returnUndefined

theorem listFindings_checksArguments (ss : List Statement) (f g : Env → List Finding) :
    ChecksArguments fun args => listFindings args ss f g := by
  intro args env h
  have hscope : Fine [.scope (args ++ listTable ss).names] := by
    unfold listFindings at h
    simp only [fine_append, fine_cons] at h
    exact fine_cons.mpr ⟨h.2.1, fine_nil⟩
  exact (nodup_append.mp (Env.names_append args _ ▸ fine_scope.mp hscope)).1

theorem expressionBody_checks (hf : CodeChecks e f) :
    BodyChecks (Lower.expressionBody e) fun args env => .scope args.names :: f (env.enter args []) := by
  intro ctx b a0 env args parent
  show Leads _ ([.scope args.names] ++ f (env.enter args [])) _ _
  refine .already ?_ fun a ha => fine_scope.mpr ha.nodup
  have hsees : Sees (Opened a0 ctx.scope (parent, .function, none, none) (env.enter args [])) ctx.scope
      (env.enter args []) := ⟨Opened.stable, fun _ h => h.models⟩
  exact ((hf.at _ hsees b).conseq (fun _ h => .of_opens h) fun _ _ h => h.kept).done fun _ => .perform rfl

end ScriptIr.Static
