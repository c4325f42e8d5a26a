import ScriptIr.Proofs.Static.Checks

/-!
# Checks of expressions

What each kind of expression stands for checks what is found in its parts, in the order in which they
are lowered, and refuses the kinds that are not lowered.

* `readIdentifier_checks`, `literalCode_checks`: simple kinds.
* `memberTarget_checks`, `identifierPlace_checks`: members, and what is written.
* `templateCode_checks`: templates, where a text may be missing.
-/
namespace ScriptIr.Static

open Code Lower Lower.Calculus ScriptIr.Tree

variable {f g : Env → List Finding} {code : ExprCode} {codes : List ExprCode} {e : Expression}

namespace CodeChecks

variable {c : Ctx → BlockId → Emit α}

/-- Findings that are the same in every environment. -/
theorem of_eq (hc : CodeChecks c f) (hfg : ∀ env, f env = g env) : CodeChecks c g := by
  rwa [← funext hfg]

theorem failing {e : Error} (hf : ∀ env, ¬Fine (f env)) : CodeChecks (failing e) f :=
  Code.failing fun i => .inr (hf i.1.2.1)

theorem bind_quiet {d : Ctx → BlockId → α → Emit β} (hc : CodeChecks c f)
    (hd : ∀ ctx b a, Quiet (d ctx b a)) : CodeChecks (fun ctx b => c ctx b >>= d ctx b) f :=
  fun i b => Leads.bind_quiet (hc i b) (hd i.1.1 b)

end CodeChecks

/-! ## Simple kinds -/

theorem readIdentifier_checks (name : String) :
    CodeChecks (readIdentifier name) fun env => [env.use name false] :=
  (identifierAddress_checks name false).bind_quiet fun _ _ _ => .bind .emit fun _ => .pure _

theorem literalCode_checks (l : Tree.Literal) : CodeChecks (literalCode l) fun _ => l.refusals := by
  unfold literalCode Tree.Literal.refusals
  cases l.regex with
  | some r => exact code_instCode rfl
  | none =>
    cases l.bigint with
    | some n => exact .failing fun _ => by simp [refusedIf, Finding.Fine]
    | none =>
      cases l.value with
      | other => exact .failing fun _ => by simp [refusedIf, Finding.Fine]
      | null | boolean _ | number _ | text _ => exact code_instCode rfl

theorem argumentCode_checks (hf : CodeChecks code e.findings) :
    CodeChecks (argumentCode e code) e.findings := by
  cases e with
  | spread e loc =>
    refine .failing fun env => ?_
    rw [Expression.findings]
    exact not_fine_refused
  | _ => exact hf

theorem keyed_checks {name : Except Error String} (hf : CodeChecks code f) :
    (checking Sees).Keyed (checking Sees).Code (fun i => refusal name ++ f i.1.2.1) (name, code)
      (name, code) where
  key := rfl
  fails e he i := by
    cases he
    exact .inr fun h => not_fine_refused (fine_append.mp h).1
  code _ hname := by
    cases hname
    exact hf

/-! ## Members and places -/

section Members

variable {o p : Expression} {computed : Bool} {objectCode propertyCode : ExprCode}

def memberFindings (o p : Expression) (computed : Bool) (env : Env) : List Finding :=
  Tree.memberRefusals o p computed ++ (o.findings env ++ if computed then p.findings env else [])

theorem not_fine_of_superLoc? {loc : Option Location} (h : superLoc? o = some loc) (env : Env) :
    ¬Fine (o.findings env) := by
  unfold superLoc? at h
  split at h
  · exact not_fine_refused
  · cases h

theorem superRefusals_eq (h : superLoc? o = none) : Tree.superRefusals o = [] := by
  unfold Tree.superRefusals
  split
  · cases h
  · rfl

theorem memberTarget_checks (ho : CodeChecks objectCode o.findings)
    (hp : CodeChecks propertyCode p.findings) :
    CodeChecks (memberTarget o p computed objectCode propertyCode)
      (memberFindings o p computed) := by
  have hkey : CodeChecks (keyCode computed p propertyCode) fun env =>
      if computed then p.findings env else refusal (memberKey p) := by
    refine code_keyCode (fun _ => rfl) (fun _ hc hk _ => ?_) (fun _ hc hk _ => .inr ?_) fun hc => ?_
    · rw [hc, hk]
      rfl
    · rw [hc, hk]
      exact not_fine_refused
    · simpa [hc] using hp
  have htarget : CodeChecks (memberTarget o p computed objectCode propertyCode) fun env =>
      o.findings env ++ if computed then p.findings env else refusal (memberKey p) :=
    code_memberTarget rfl (fun loc hloc i => .inr fun h =>
      not_fine_of_superLoc? hloc i.1.2.1 (fine_append.mp h).1) ho hkey
  rintro ⟨⟨ctx, env, P⟩, hP⟩ b
  refine Leads.congr (htarget.at _ hP b) ?_
  show _ ↔ Fine (memberFindings o p computed env)
  unfold memberFindings Tree.memberRefusals
  cases hloc : superLoc? o with
  | some loc => simp [not_fine_of_superLoc? hloc env]
  | none =>
    rw [superRefusals_eq hloc]
    cases computed <;> simp [and_comm]

theorem identifierPlace_checks (name : String) :
    CodeChecks (identifierPlace name) fun env => [env.use name true] :=
  (identifierAddress_checks name true).bind_quiet fun _ _ _ => .pure _

end Members

theorem assignmentCode_checks {place : PlaceCode} (op : Tree.AssignmentOperator) (loc : Option Location)
    (hf : CodeChecks place f) (hg : CodeChecks code g) :
    CodeChecks (assignmentCode op loc place code)
      fun env => op.refusals loc ++ (f env ++ g env) := by
  have hboth (hop : ∀ op', op ≠ .logical op') :
      CodeChecks (assignmentCode op loc place code) fun env => f env ++ g env :=
    code_assignmentCode (fun op' h => absurd h (hop op')) hf hg
  cases op with
  | logical op => exact .failing fun _ hf => not_fine_refused (fine_append.mp hf).1
  | assign => exact hboth nofun
  | compound op => exact hboth nofun

/-! ## Templates -/

def TemplateChecks (codes : List ExprCode) (f : Env → List Finding) : Prop :=
  ∀ (loc : Option Location) (texts : List (Option String)) (value : InstId),
    CodeChecks (fun ctx b => evalTemplate ctx loc b value texts codes)
      fun env => textRefusals loc texts codes.length ++ f env

theorem templateChecks_nil : TemplateChecks [] fun _ => [] := fun _ _ _ _ _ => (checking Sees).plain (.pure _)

theorem templateChecks_cons (hf : CodeChecks code f) (hg : TemplateChecks codes g) :
    TemplateChecks (code :: codes) fun env => f env ++ g env := by
  rintro loc texts value ⟨⟨ctx, env, P⟩, hP⟩ b
  unfold Lower.evalTemplate textRefusals
  dsimp only [List.length_cons]
  cases Lower.nextText loc texts with
  | error e =>
    refine Leads.congr ((hf.at _ hP b).bind fun r => Leads.throw (not_fine_refused (e := e))) ?_
    simp [Finding.Fine]
  | ok next =>
    obtain ⟨text, texts⟩ := next
    refine Leads.congr (show Leads P (f env ++ (textRefusals loc texts codes.length ++ g env)) _ _ from
      (hf.at _ hP b).bind fun r => .ok_bind <| .step (.emit rfl) fun sum => ?_) (by simp [and_left_comm])
    split
    · exact (hg loc texts sum).at _ hP r.block
    · exact .step (.emit rfl) fun _ => .step (.emit rfl) fun _ => (hg loc texts _).at _ hP r.block

theorem templateCode_checks (texts : List (Option String)) (loc : Option Location)
    (hf : TemplateChecks codes f) :
    CodeChecks (templateCode texts codes loc)
      fun env => textRefusals loc texts (codes.length + 1) ++ f env := by
  rintro ⟨⟨ctx, env, P⟩, hP⟩ b
  unfold templateCode textRefusals
  cases nextText loc texts with
  | error e => exact (checking Sees).throw (.inr fun h => not_fine_refused (fine_append.mp h).1)
  | ok next => exact Leads.ok_bind <| .step (.emit rfl) fun value => (hf loc next.2 value).at _ hP b

end ScriptIr.Static
