import ScriptIr.Proofs.Static.Bindings
import ScriptIr.Proofs.Lower.Parameters

/-!
# Checks of functions

The arguments of a function enter its scope before the names of its body. They cannot be assigned twice
the same name, and the list of all arguments enters only if no parameter has its name.

* `newScope_leads`: a scope is opened.
* `setParams_leads`, `declareArguments_leads`, `declareRest_leads`: the arguments enter it.
* `BodyChecks`: the body of a function, in a scope that has the arguments.
* `closureCode_checks`: the function as an expression.
-/
namespace ScriptIr.Static

open Code List Scope Scope.Arena
open Lower (Ctx BodyCode Header)
open ScriptIr.Tree

variable {a0 : Arena} {k m : ScopeId} {frame : Frame} {kind : Kind} {env : Env}
  {T : Table Bool} {names : List String} {name : String}

/-! ## Parameters -/

theorem filterMap_of_parameters {params : List Pattern} {rest : Option String}
    (h : Lower.Parameters params names rest) :
    params.filterMap Pattern.plainName? = names ∧ params.filterMap Pattern.restName? = rest.toList := by
  induction h with
  | nil | rest => exact ⟨rfl, rfl⟩
  | plain id _ ih =>
    exact ⟨by rw [filterMap_cons, ih.1]; rfl, by rw [filterMap_cons, ih.2]; rfl⟩

/-! ## A scope is opened -/

theorem newScope_leads (h : a0.Models k env) : Leads (· = a0) [] (Lower.newScope (some k) kind) fun m a =>
      Opens a0 m (some k, kind, none, none) env [] [] a ∧
        (a.get m).rest = none ∧ (a.get m).locals = [] := by
  rintro s rfl
  refine ⟨fine_nil, h.push, ?_⟩
  show ((s.scopes.push (some k) kind).2.get s.scopes.scopes.size).rest = none ∧
    ((s.scopes.push (some k) kind).2.get s.scopes.scopes.size).locals = []
  rw [Arena.get_push, if_pos rfl]
  exact ⟨rfl, rfl⟩

/-! ## Arguments -/

theorem setParamsFrom_opens (names : List String) (index : Nat) {a : Arena}
    (h : Opens a0 m frame env T [] a) (hrest : (a.get m).rest = none) (hlocals : (a.get m).locals = []) :
    match Naming.setParamsFrom m index names a with
    | .ok _ b => (T ++ names.map (·, false)).names.Nodup ∧
      Opens a0 m frame env (T ++ names.map (·, false)) [] b ∧ (b.get m).rest = none
    | .error _ _ => ¬(T ++ names.map (·, false)).names.Nodup := by
  induction names generalizing T a index with
  | nil =>
    rw [map_nil, append_nil]
    exact ⟨h.nodup, h, hrest⟩
  | cons name names ih =>
    have howns : (a.get m).owns name = (a.get m).params.has name := by
      simp [owns, isRest, hrest, hlocals, Table.has]
    rw [Naming.setParamsFrom_cons, map_cons, append_cons T]
    cases hhas : (a.get m).params.has name with
    | true =>
      rw [if_pos rfl]
      have hmem := (h.owns name).mp (howns.trans hhas)
      rw [Env.names_append]
      exact fun hn => not_nodup_of_mem hmem (fine_scope.mpr (nodup_append.mp hn).1)
    | false =>
      rw [if_neg Bool.false_ne_true]
      have htake := h.take (howns.trans hhas) (fun s => { s with params := s.params.put name index })
        rfl ⟨rfl, rfl⟩ (standing?_put_params (a.get m) name index)
      have hget := Arena.get_modify_same h.lt fun s =>
        { s with params := s.params.put name index }
      exact ih (index + 1) htake (by rw [hget]; exact hrest) (by rw [hget]; exact hlocals)

theorem setParams_leads (names : List String) :
    Leads (fun a => Opens a0 m frame env [] [] a ∧ (a.get m).rest = none ∧ (a.get m).locals = [])
      [.scope names] (Lower.naming (Naming.setParams m names))
      fun _ a => Opens a0 m frame env (names.map (·, false)) [] a ∧ (a.get m).rest = none := by
  refine .naming fun a ⟨ha, hrest, hlocals⟩ => ?_
  have hset := setParamsFrom_opens names 0 ha hrest hlocals
  rw [nil_append, Table.names_map] at hset
  unfold Naming.setParams
  cases hrun : Naming.setParamsFrom m 0 names a with
  | error e b => rw [hrun] at hset; exact .inr (mt fine_scope.mp hset)
  | ok r b => rw [hrun] at hset; exact ⟨fine_scope.mpr hset.1, hset.2⟩

/-- The list of all arguments enters a scope that has no such name. -/
theorem declareImplicit_leads (hname : name ∉ T.names) (slot : InstId) :
    Leads (fun a => Opens a0 m frame env T [] a ∧ (a.get m).rest = none) []
      (Lower.naming (Naming.declare m name (some slot) false))
      fun _ a => Opens a0 m frame env (T ++ [(name, false)]) [] a ∧ (a.get m).rest = none := by
  refine .naming fun a ⟨ha, hrest⟩ => ?_
  have howns : (a.get m).owns name = false := by
    rw [← Bool.not_eq_true]
    exact mt (ha.owns name).mp hname
  have hnot := howns
  unfold owns at hnot
  rw [Bool.or_eq_false_iff, Bool.or_eq_false_iff, Table.has_eq_isSome (a.get m).locals,
    Option.isSome_eq_false_iff, Option.isNone_iff_eq_none] at hnot
  obtain ⟨⟨hparams, hisRest⟩, hlocals⟩ := hnot
  rw [Naming.declare_eq, hparams, hisRest, hlocals]
  refine ⟨fine_nil, ?_, by rw [Arena.get_modify_same ha.lt]; exact hrest⟩
  exact ha.take howns
    (fun s => { s with locals := s.locals.put name { slot, forward := false, constant := false } })
    rfl ⟨rfl, rfl⟩ (standing?_put_locals hparams hisRest)

def implicitNames (kind : Lower.FunctionKind) (names : List String) : List String :=
  if kind = .function ∧ "arguments" ∉ names then ["arguments"] else []

variable (h : Header)

theorem declareArguments_leads (names : List String) (ctx : Ctx) (entry : BlockId) :
    Leads (fun a => Opens a0 ctx.scope frame env (names.map (·, false)) [] a ∧
        (a.get ctx.scope).rest = none) [] (Lower.declareArguments h names ctx entry)
      fun _ a => Opens a0 ctx.scope frame env
        ((names ++ implicitNames h.kind names).map (·, false)) [] a ∧ (a.get ctx.scope).rest = none := by
  unfold Lower.declareArguments implicitNames
  by_cases hcond : h.kind = .function ∧ "arguments" ∉ names
  · have hif : (decide (h.kind = .function) && !names.contains "arguments") = true := by
      simpa using hcond
    rw [if_pos hif, if_pos hcond, map_append]
    refine .step (.emit rfl) fun slot => .step (.emit rfl) fun _ =>
      .step (.perform rfl) fun _ => .discard (declareImplicit_leads ?_ slot)
    rw [Table.names_map]
    exact hcond.2
  · have hif : ¬(decide (h.kind = .function) && !names.contains "arguments") = true := by
      simpa using hcond
    rw [if_neg hif, if_neg hcond, append_nil]
    exact .pure fun _ h => h

theorem declareRest_leads (ctx : Ctx) (entry : BlockId) (skip : Nat) (name : String) :
    Leads (fun a => Opens a0 ctx.scope frame env T [] a ∧ (a.get ctx.scope).rest = none)
      [.scope (T ++ [(name, false)]).names] (Lower.declareRest ctx entry skip name)
      fun _ => Opens a0 ctx.scope frame env (T ++ [(name, false)]) [] := by
  refine .step .loadGlobal fun _ => .step .getNamed fun _ =>
    .step .getNamed fun _ => .step (.emit rfl) fun _ =>
    .step (.emit rfl) fun _ => .step .callWith fun _ =>
    .step (.emit rfl) fun slot => .step (.perform rfl) fun _ =>
    .naming fun a ⟨ha, hrest⟩ => ?_
  rw [Naming.setRest_eq]
  cases howns : (a.get ctx.scope).owns name with
  | true => exact .inr (not_nodup_of_mem ((ha.owns name).mp howns))
  | false =>
    have htake := ha.take howns (fun s => { s with rest := some (name, slot) }) rfl ⟨rfl, rfl⟩
      (standing?_set_rest hrest)
    exact ⟨fine_scope.mpr htake.nodup, htake⟩

/-! ## Bodies -/

def BodyChecks (body : BodyCode) (f : Table Bool → Env → List Finding) : Prop :=
  ∀ (ctx : Ctx) (b : BlockId) (a0 : Arena) (env : Env) (args : Table Bool) (parent : Option ScopeId),
    Leads (Opens a0 ctx.scope (parent, .function, none, none) env args []) (f args env) (body ctx b)
      fun _ a => a0.Kept none a

def ChecksArguments (f : Table Bool → Env → List Finding) : Prop :=
  ∀ args env, Fine (f args env) → args.names.Nodup

section Closures

variable {body : BodyCode} {f : Table Bool → Env → List Finding}

/-- What is checked in a scope that gets its names one after another. -/
theorem fine_arguments {as bs cs : List String} (hargs : ChecksArguments f) :
    Fine ([.scope as] ++ ([.scope (as ++ bs ++ cs)] ++ f ((as ++ bs ++ cs).map (·, false)) env)) ↔
      Fine (f ((as ++ bs ++ cs).map (·, false)) env) := by
  simp only [fine_append, fine_scope]
  refine ⟨fun h => h.2.2, fun h => ?_⟩
  have hnodup := hargs _ _ h
  rw [Table.names_map] at hnodup
  exact ⟨(nodup_append.mp (nodup_append.mp hnodup).1).1, hnodup, h⟩

theorem checkHeader_leads {P : Arena → Prop} :
    Checks P (refusedIf h.generator .generator h.loc ++ refusedIf h.isAsync .asyncFunction h.loc)
      (Lower.checkHeader h) :=
  .refusedIf_bind _ _ _ (.refusedIf _ _ _)

theorem functionCode_leads (hbody : BodyChecks body f) (hargs : ChecksArguments f) (hk : a0.Models k env) :
    Leads (· = a0) (Tree.headerRefusals h.params h.generator h.isAsync h.loc ++
        f (argumentTable h.kind h.params) env)
      (Lower.functionCode h body k) fun _ a => a0.Kept none a := by
  unfold Lower.functionCode Tree.headerRefusals
  rw [← append_assoc, append_assoc]
  refine (checkHeader_leads h).bind fun _ => (Leads.ofExcept _).bind fun r => .assume fun hr => ?_
  obtain ⟨names, rest⟩ := r
  obtain ⟨hnames, hrest⟩ := filterMap_of_parameters (Lower.parameters_of_names hr)
  have htable : argumentTable h.kind h.params =
      (names ++ implicitNames h.kind names ++ rest.toList).map (·, false) := by
    unfold argumentTable Tree.argumentNames implicitNames
    rw [hnames, hrest, append_assoc]
  rw [htable]
  refine Leads.congr (show Leads _ ([.scope names] ++
    ([.scope (names ++ implicitNames h.kind names ++ rest.toList)] ++ f _ env)) _ _ from ?_)
    (fine_arguments hargs)
  refine .quiet_bind .get fun s => .quiet_bind .newFunction fun func =>
    .bind_nil (newScope_leads hk) fun m => (setParams_leads names).bind fun _ =>
    .step .newBlock fun entry =>
    .bind_nil (declareArguments_leads h names ⟨func, m⟩ entry) fun _ => ?_
  -- the body starts once all arguments are there
  have hstart : ∀ args : List String,
      Leads (Opens a0 m (some k, .function, none, none) env (args.map (·, false)) [])
        (f (args.map (·, false)) env) (do
          body ⟨func, m⟩ entry
          return (s.module.nextId, ← Lower.capturedNames m)) fun _ a => a0.Kept none a := fun args =>
    (hbody ⟨func, m⟩ entry a0 env _ (some k)).bind_quiet fun _ => .bind .scopes fun _ => .pure _
  cases rest with
  | none =>
    rw [Option.toList_none, append_nil]
    refine .already ((hstart _).conseq (fun _ h => h.1) fun _ _ h => h) fun a ha => ?_
    rw [fine_scope, ← Table.names_map (names ++ implicitNames h.kind names) false]
    exact ha.1.nodup
  | some rest =>
    have hmap : (names ++ implicitNames h.kind names).map (·, false) ++ [(rest, false)] =
        (names ++ implicitNames h.kind names ++ [rest]).map (·, false) := by simp
    have hnew : Leads (fun a => Opens a0 m (some k, .function, none, none) env
        ((names ++ implicitNames h.kind names).map (·, false)) [] a ∧ (a.get m).rest = none) _ _ _ :=
      declareRest_leads ⟨func, m⟩ entry names.length rest
    rw [hmap, Table.names_map] at hnew
    exact hnew.bind fun _ => hstart (names ++ implicitNames h.kind names ++ [rest])

theorem closureCode_checks (hbody : BodyChecks body f) (hargs : ChecksArguments f) :
    CodeChecks (Lower.closureCode h body) fun env =>
      Tree.headerRefusals h.params h.generator h.isAsync h.loc ++
        f (argumentTable h.kind h.params) env := by
  rintro ⟨⟨ctx, env, P⟩, hP⟩ b
  refine .bind_done (.of_start fun a ha => ?_) fun r =>
    ((capturedAddresses_checks r.2).at _ hP b).bind_quiet fun _ => .bind .emit fun _ =>
      .pure _
  exact (functionCode_leads h hbody hargs (hP.models a ha)).conseq (fun _ h => h)
    fun _ c hc => hP.stable a c ha hc

end Closures

end ScriptIr.Static
