import ScriptIr.Lower.Tree
import ScriptIr.Proofs.Uniform.Statements
import ScriptIr.Proofs.Static.Expressions

/-!
# Checks of declarations

The names of a scope are announced together, which fails if a name is there already. Patterns then
bind them one after another, which cannot fail: each name is announced once.

* `announceItems_leads`: the names of a list of statements enter its scope.
* `BindChecks`: a pattern checks its defaults and binds its names.
* `declarationCode_checks`, `functionDeclarationCode_checks`: declarations.
-/
namespace ScriptIr.Static

open Code ScriptIr.Tree List Scope Scope.Arena
open Lower (Ctx Emit Plain ExprCode StmtCode BindCode naming items bindMembers)

variable {constant : Bool}

/-! ## Names enter a scope -/

section Announced

variable {a0 : Arena} {m : ScopeId} {frame : Frame} {env : Env} {T U : Table Bool}
  {pending : List String} {name : String}

theorem fine_scope {names : List String} : Fine [.scope names] ↔ names.Nodup := by
  simp [Finding.Fine]

theorem fine_scope_append : Fine ([.scope T.names] ++ [.scope (T ++ U).names]) ↔
    Fine [.scope (T ++ U).names] := by
  rw [fine_append, fine_scope, fine_scope, Env.names_append]
  exact and_iff_right_of_imp fun h => (nodup_append.mp h).1

theorem not_nodup_of_mem (h : name ∈ T.names) : ¬Fine [.scope (T ++ [(name, constant)]).names] := by
  rw [fine_scope, Env.names_append]
  exact fun hn => (nodup_append.mp hn).2.2 name h name (mem_singleton_self _) rfl

theorem forwardDeclare_leads (slot : InstId) (constant : Bool) :
    Leads (Opens a0 m frame env T pending) [.scope (T ++ [(name, constant)]).names]
      (naming (Naming.forwardDeclare m name slot constant))
      fun _ => Opens a0 m frame env (T ++ [(name, constant)]) (pending ++ [name]) := by
  refine .naming fun a ha => ?_
  rw [Naming.forwardDeclare_eq]
  cases howns : (a.get m).owns name with
  | true => exact .inr (not_nodup_of_mem ((ha.owns name).mp howns))
  | false =>
    have hnot := howns
    unfold Scope.owns at hnot
    rw [Bool.or_eq_false_iff, Bool.or_eq_false_iff] at hnot
    have htake := ha.take howns
      (fun s => { s with locals := s.locals.put name { slot, forward := true, constant } }) rfl
      ⟨rfl, rfl⟩
      (Scope.standing?_put_locals hnot.1.1 hnot.1.2)
    exact ⟨fine_scope.mpr htake.nodup, htake⟩

variable (ctx : Ctx) (b : BlockId)

theorem announceNames_leads (constant : Bool) (names : List String) :
    Leads (Opens a0 ctx.scope frame env T pending) [.scope (T ++ names.map (·, constant)).names]
      (Lower.announceNames ctx b constant names)
      fun _ => Opens a0 ctx.scope frame env (T ++ names.map (·, constant)) (pending ++ names) := by
  induction names generalizing T pending with
  | nil =>
    rw [map_nil, append_nil, append_nil]
    exact fun s hs => ⟨fine_scope.mpr hs.nodup, hs⟩
  | cons name names ih =>
    rw [map_cons, append_cons T, append_cons pending]
    exact Leads.congr (.step (.emit rfl) fun slot =>
      (forwardDeclare_leads slot constant).bind fun _ => ih) fine_scope_append

theorem announce_leads (d : Tree.Declaration) :
    Leads (Opens a0 ctx.scope frame env T pending) (d.refusals ++ [.scope (T ++ d.table).names])
      (Lower.announce ctx b d)
      fun _ => Opens a0 ctx.scope frame env (T ++ d.table) (pending ++ d.boundNames) :=
  (Leads.refusedIf _ _ _).bind fun _ => announceNames_leads ctx b d.isConstant d.boundNames

theorem names_table (d : Tree.Declaration) : d.table.names = d.boundNames :=
  Table.names_map d.boundNames d.isConstant

/-- A declaration or a function enters its names in the scope of its list. -/
theorem announceItem_leads (s : Tree.Statement) :
    Leads (Opens a0 ctx.scope frame env T pending) (s.refusals ++ [.scope (T ++ s.table).names])
      (Lower.announceItem ctx b (.of s (Lower.statement s) (Lower.closure? s)))
      fun _ => Opens a0 ctx.scope frame env (T ++ s.table) (pending ++ s.table.names) := by
  have hnone : ∀ code, Leads (Opens a0 ctx.scope frame env T pending)
      ([] ++ [.scope (T ++ []).names]) (Lower.announceItem ctx b (.statement code))
      fun _ => Opens a0 ctx.scope frame env (T ++ []) (pending ++ []) := by
    intro code
    rw [append_nil, append_nil]
    exact fun s hs => ⟨fine_scope.mpr hs.nodup, hs⟩
  cases s with
  | declaration d =>
    show Leads _ (d.refusals ++ [.scope (T ++ d.table).names]) _
      fun _ => Opens a0 ctx.scope frame env (T ++ d.table) (pending ++ d.table.names)
    rw [names_table]
    exact announce_leads ctx b d
  | function f =>
    obtain ⟨id, params, body, generator, isAsync, loc⟩ := f
    cases id with
    | none => exact fun _ _ => .inr fun h => not_fine_refused (fine_append.mp h).1
    | some id => exact announceNames_leads ctx b false [id.name]
  | _ => exact hnone _

theorem announceItems_leads (ss : List Statement) : Leads (Opens a0 ctx.scope frame env T pending)
      (listRefusals ss ++ [.scope (T ++ listTable ss).names])
      (Lower.announceItems ctx b (items ss))
      fun _ => Opens a0 ctx.scope frame env (T ++ listTable ss)
        (pending ++ (listTable ss).names) := by
  induction ss generalizing T pending with
  | nil =>
    show Leads _ ([] ++ [.scope (T ++ []).names]) _
      fun _ => Opens a0 ctx.scope frame env (T ++ []) (pending ++ [])
    rw [append_nil, append_nil]
    exact fun s hs => ⟨fine_scope.mpr hs.nodup, hs⟩
  | cons s ss ih =>
    have htable : listTable (s :: ss) = s.table ++ listTable ss := flatMap_cons
    have hrefusals : listRefusals (s :: ss) = s.refusals ++ listRefusals ss :=
      flatMap_cons
    rw [hrefusals, htable, Env.names_append s.table, ← append_assoc T,
      ← append_assoc pending, items]
    refine Leads.congr ((announceItem_leads ctx b s).bind fun _ => ih) ?_
    simp only [fine_append]
    constructor
    · rintro ⟨⟨h1, _⟩, h2, h3⟩
      exact ⟨⟨h1, h2⟩, h3⟩
    · rintro ⟨⟨h1, h2⟩, h3⟩
      exact ⟨⟨h1, (fine_append.mp (fine_scope_append.mpr h3)).1⟩, h2, h3⟩

end Announced

/-! ## Names are bound -/

/-- The computation checks the findings and binds some names of a scope. It keeps what does not depend
on the names that the scope has reached. -/
def Binds (k : ScopeId) (names : List String) (env : Env) (fs : List Finding) (x : Emit α) : Prop :=
  ∀ G, Stable (some k) G →
    Leads (fun a => G a ∧ a.Models k env) fs x fun _ a => G a ∧ a.Models k (env.bind names)

namespace Binds

variable {k : ScopeId} {names more : List String} {env : Env} {fs gs : List Finding} {x : Emit α}
  {f : α → Emit β}

theorem sees {G : Arena → Prop} (hG : Stable (some k) G) : Sees (fun a => G a ∧ a.Models k env) k env :=
  ⟨hG.closed.and Scope.Arena.stable_models, fun _ h => h.2⟩

theorem bind (hx : Binds k names env fs x) (hf : ∀ a, Binds k more (env.bind names) gs (f a)) :
    Binds k (names ++ more) env (fs ++ gs) (x >>= f) := fun G hG => by
  rw [← Env.bind_bind]
  exact (hx G hG).bind fun a => hf a G hG

theorem check_bind (hx : ∀ P, Sees P k env → Checks P fs x) (hf : ∀ a, Binds k names env gs (f a)) :
    Binds k names env (fs ++ gs) (x >>= f) :=
  fun G hG => (hx _ (sees hG)).bind fun a => hf a G hG

theorem step {n : Nat} (hx : Plain n x) (hf : ∀ a, Binds k names env gs (f a)) :
    Binds k names env gs (x >>= f) := fun G hG => .step hx fun a => hf a G hG

theorem nothing (a : α) : Binds k [] env [] (Pure.pure a : Emit α) := fun G hG => by
  rw [Env.bind_nil]
  exact .quiet (.pure a)

theorem of_not_fine {e : Error} (h : ¬Fine fs) :
    Binds k names env fs (MonadExcept.throw e : Emit α) := fun _ _ => .throw h

end Binds

def BindChecks (code : BindCode) (names : List String) (f : Env → List Finding) : Prop :=
  ∀ (ctx : Ctx) (b : BlockId) (value : InstId) (constant : Bool) (env : Env),
    env.Awaits (names.map (·, constant)) →
    Binds ctx.scope names env (f env) (code ctx b value constant)

section Patterns

variable {f g : Env → List Finding} {bind : BindCode} {names more : List String}
  {elements : List Lower.ElementBind} {loc : Option Location}
  {members : List (Except Error String × BindCode)} {default : ExprCode}

theorem declare_binds {k : ScopeId} {name : String} {env : Env} (h : env.Awaits [(name, constant)]) :
    Binds k [name] env [] (naming (Naming.declare k name none constant)) := by
  intro G hG
  refine .naming fun a ⟨hGa, ha⟩ => ?_
  have hmem : (name, constant) ∈ [(name, constant)] := mem_singleton_self _
  obtain ⟨slot, b, hrun, hkept, hb⟩ := ha.declare (h.pending _ hmem) (h.constant _ hmem)
  rw [hrun]
  exact ⟨fine_nil, hG a b hGa hkept, hb⟩

theorem bindName_checks (name : String) : BindChecks (Lower.bindName name) [name] fun _ => [] := by
  intro ctx b value constant env h G hG
  have hannounced : Leads (fun a => G a ∧ a.Models ctx.scope env) [] (do
      let slot ← naming (Naming.declare ctx.scope name none constant)
      Lower.perform ctx b (.store slot value)
      return b) fun _ a => G a ∧ a.Models ctx.scope (env.bind [name]) :=
    (declare_binds h G hG).done fun _ => .bind (.perform rfl) fun _ => .pure _
  refine .scopes_bind fun a ha => ?_
  rw [ha.2.hasLocal (h.pending _ (mem_singleton_self _))]
  exact hannounced.conseq (fun c hc => hc ▸ ha) fun _ _ h => h

/-- The elements of an array pattern, whatever the position of the first. -/
def ElementsBind (elements : List Lower.ElementBind) (names : List String) (f : Env → List Finding) :
    Prop :=
  ∀ index, BindChecks (fun ctx b value constant =>
    Lower.bindElements ctx value constant b index elements) names f

theorem elementsBind_nil : ElementsBind [] [] fun _ => [] := fun _ _ _ _ _ _ _ => .nothing _

theorem elementsBind_hole (hf : ElementsBind elements names f) :
    ElementsBind (.hole :: elements) names f := fun index => hf (index + 1)

theorem elementsBind_item (hf : BindChecks bind names f) (hg : ElementsBind elements more g) :
    ElementsBind (.item bind :: elements) (names ++ more) fun env => f env ++ g (env.bind names) := by
  intro index ctx b value constant env h
  rw [map_append] at h
  have hright := h.right
  rw [Table.names_map] at hright
  exact .step (.emit rfl) fun _ => .step (.emit rfl) fun item =>
    (hf ctx b item constant env h.left).bind fun last => hg (index + 1) ctx last value constant _ hright

theorem elementsBind_rest (hf : ∀ env, ¬Fine (f env)) : ElementsBind (.rest loc :: elements) names f :=
  fun _ _ _ _ _ env _ => .of_not_fine (hf env)

theorem bindMembers_nil : BindChecks (fun ctx b value constant =>
    bindMembers ctx value constant b []) [] fun _ => [] := fun _ _ _ _ _ _ => .nothing _

theorem bindMembers_cons {key : Except Error String} (hf : BindChecks bind names f)
    (hg : BindChecks (fun ctx b value constant => bindMembers ctx value constant b members) more g) :
    BindChecks (fun ctx b value constant => bindMembers ctx value constant b ((key, bind) :: members))
      (names ++ more) fun env => refusal key ++ (f env ++ g (env.bind names)) := by
  intro ctx b value constant env h
  rw [map_append] at h
  have hright := h.right
  rw [Table.names_map] at hright
  refine .check_bind (fun P _ => (Leads.ofExcept key).conseq (fun _ h => h) fun _ _ h => h.1) fun _ => ?_
  exact .step .getNamed fun item =>
    (hf ctx b item constant env h.left).bind fun last => hg ctx last value constant _ hright

theorem bindMembers_refused {key : Error} (hf : ∀ env, ¬Fine (f env)) :
    BindChecks (fun ctx b value constant =>
      bindMembers ctx value constant b ((.error key, bind) :: members)) names f :=
  fun _ _ _ _ env _ _ _ _ _ => .inr (hf env)

theorem bindFailing_checks {construct : Construct} (hf : ∀ env, ¬Fine (f env)) :
    BindChecks (Lower.bindFailing construct loc) names f :=
  fun _ _ _ _ env _ => .of_not_fine (hf env)

theorem bindDefault_checks (hf : CodeChecks default f) (hg : BindChecks bind names g) :
    BindChecks (Lower.bindDefault bind default) names fun env => f env ++ g env :=
  fun ctx _ _ constant env h =>
    .check_bind (fun _ hP => Lower.Calculus.defaultCode (i := checking.site ctx hP) hf) fun r =>
      hg ctx r.block r.value constant env h

end Patterns

/-! ## Declarations -/

def BindersCheck (binders : List Lower.Binder) (names : List String) (f : Env → List Finding) : Prop :=
  ∀ (ctx : Ctx) (b : BlockId) (constant : Bool) (env : Env), env.Awaits (names.map (·, constant)) →
    Binds ctx.scope names env (f env) (Lower.bindAll ctx constant b binders)

section Declarations

variable {f g h : Env → List Finding} {bind : BindCode} {names more : List String}
  {binders : List Lower.Binder}

theorem bindersCheck_nil : BindersCheck [] [] fun _ => [] := fun _ _ _ _ _ => .nothing _

theorem bindersCheck_cons {init : Option ExprCode} (hf : CodeChecks (Lower.initCode init) f)
    (hg : BindChecks bind names g) (hh : BindersCheck binders more h) :
    BindersCheck (⟨init, bind⟩ :: binders) (names ++ more)
      fun env => f env ++ (g env ++ h (env.bind names)) := by
  intro ctx b constant env hawaits
  rw [map_append] at hawaits
  have hright := hawaits.right
  rw [Table.names_map] at hright
  exact .check_bind (fun P hP => hf.at _ hP b) fun r =>
    (hg ctx r.block r.value constant env hawaits.left).bind fun last =>
      hh ctx last constant _ hright

def TableChecks (T : Table Bool) (code : StmtCode) (f : Env → List Finding) : Prop :=
  ∀ (ctx : Ctx) (b : BlockId) (env : Env), env.Awaits T → Binds ctx.scope T.names env (f env) (code ctx b)

theorem declarationCode_checks (d : Tree.Declaration) (hf : BindersCheck binders d.boundNames f) :
    TableChecks d.table (Lower.declarationCode d binders) fun env => d.refusals ++ f env := by
  intro ctx b env hawaits
  rw [names_table]
  exact .check_bind (fun _ _ => .refusedIf _ _ _) fun _ => hf ctx b d.isConstant env hawaits

theorem functionDeclarationCode_checks {closure : ExprCode} (value : Tree.Function)
    (hf : CodeChecks closure f) :
    TableChecks (Tree.Statement.function value).hoistedTable (Lower.functionDeclarationCode value closure)
      fun env => (Tree.Statement.function value).refusals ++ f env := by
  obtain ⟨id, params, body, generator, isAsync, loc⟩ := value
  cases id with
  | none => exact fun _ _ _ _ _ _ _ _ => .inr fun hf => not_fine_refused (fine_append.mp hf).1
  | some id =>
    intro ctx b env hawaits G hG
    exact ((hf.at _ (Binds.sees hG) b).bind_done fun r => (declare_binds hawaits G hG).done
      fun _ => .bind (.perform rfl) fun _ => .pure _)

end Declarations

end ScriptIr.Static
