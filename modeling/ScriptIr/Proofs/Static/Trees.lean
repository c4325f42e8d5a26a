import ScriptIr.Proofs.Static.Loops

/-!
# Checks of trees

The code of every node checks what is found in the node, if no body of a loop or of a choice declares
names, as in all trees that parsers make.

* `Shaped`: nodes that parsers make.
* `expression_checks`, `statement_checks`: nodes.
-/
namespace ScriptIr.Static

open ScriptIr.Tree List Lower Lower.Calculus

abbrev Shaped : List Node → Prop := AllNodes fun n => n.parserShaped = true

/-! ## Members -/

section Targets

variable {e : Expression} (ht : ∀ code, target? e = some code → CodeChecks code e.findings)

include ht

theorem unary_checks (op : UnaryOperator) (he : CodeChecks (expression e) e.findings) :
    CodeChecks (unaryCode op e (target? e) (expression e))
      fun env => (if op = .delete then deleteRefusals e else []) ++ e.findings env := by
  by_cases hop : op = .delete
  · subst hop
    cases e with
    | member o p computed loc =>
      exact code_unaryCode (fun _ => code_deleteCode (ht _ rfl)) fun h => absurd rfl h
    | _ => exact .failing fun _ hf => not_fine_refused (fine_append.mp hf).1
  · simp only [if_neg hop, nil_append]
    exact code_unaryCode (fun h => absurd h hop) fun _ => he

theorem expressionPlace_checks :
    CodeChecks (expressionPlace e (target? e)) fun env => stepRefusals e ++ e.writeFindings env := by
  cases e with
  | identifier id => exact identifierPlace_checks id.name
  | member o p computed loc => exact code_memberPlace (ht _ rfl)
  | _ => exact fun _ _ _ _ => .inr fun hf => not_fine_refused (fine_append.mp hf).1

theorem callee_checks (he : CodeChecks (expression e) e.findings) :
    CodeChecks (calleeCode (target? e) (expression e)) e.findings := by
  cases htarget : target? e with
  | none => exact code_calleeCode_none he
  | some code => exact code_calleeCode_some (ht code htarget)

end Targets

theorem spreadFindings?_eq_none {e : Expression} (h : spread? e = none) (env : Env) :
    e.spreadFindings? env = none := by
  cases e with
  | spread e loc => cases h
  | _ => rfl

theorem length_expressions (es : List Expression) : (expressions es).length = es.length := by
  induction es with
  | nil => rfl
  | cons e es ih => rw [expressions, length_cons, length_cons, ih]

/-! ## Bodies -/

theorem body_checks {loop : Bool} {s : Statement} (hs : Shaped (.body s :: s.nodes))
    (hc : Shaped s.nodes → StmtChecks loop s.placedTable (statement s) (s.findings loop)) :
    PlainChecks loop (statement s) (s.findings loop) := by
  cases s with
  | declaration d =>
    obtain ⟨kind, ds, loc⟩ := d
    have hkind : kind = .functionWide := by
      simpa [Node.parserShaped, Statement.isLexical, Declaration.kind] using hs.head
    subst hkind
    exact fun _ _ _ _ => .inr fun hf => not_fine_refused (fine_append.mp hf).1
  | _ => exact (hc hs.tail).plain

theorem StmtChecks.of_eq {loop : Bool} {T : Scope.Table Bool} {code : StmtCode}
    {f g : Env → List Finding} (hc : StmtChecks loop T code f) (hfg : ∀ env, f env = g env) :
    StmtChecks loop T code g := fun ctx b env G hG hT => by
  rw [← hfg]
  exact hc ctx b env G hG hT

theorem arrowBody_checksArguments (body : ArrowBody) : ChecksArguments body.findings := by
  cases body with
  | block body => exact listFindings_checksArguments body _ _
  | expression e => exact fun args env h => fine_scope.mp (fine_cons.mpr ⟨(fine_cons.mp h).1, fine_nil⟩)

theorem length_binders (ds : List Declarator) : (binders ds).length = ds.length := by
  induction ds with
  | nil => rfl
  | cons d ds ih =>
    obtain ⟨p, init⟩ := d
    rw [binders, length_cons, length_cons, ih]

/-- A declaration in the head of a loop over elements that has no binding or several ones. -/
theorem declaredElements_checks {kind : DeclarationKind} {ds : List Declarator} {loc : Option Location}
    (h : ds.length ≠ 1) :
    ElementChecks (declaredElement (.mk kind ds loc)) (Declaration.mk kind ds loc).table
      (ForTarget.declaration (.mk kind ds loc)).findings := by
  refine declareElement_refused _ (length_binders ds ▸ h) fun env hf => ?_
  have hone := (fine_append.mp (fine_append.mp hf).1).2
  rw [refusedIf, if_pos h] at hone
  exact not_fine_refused hone

theorem declaredElement_checks {kind : DeclarationKind} {p : Pattern} {init : Option Expression}
    {loc : Option Location} (hp : BindChecks (pattern p) p.boundNames p.findings) :
    ElementChecks (declaredElement (.mk kind [.mk p init] loc))
      (Declaration.mk kind [.mk p init] loc).table
      (ForTarget.declaration (.mk kind [.mk p init] loc)).findings := by
  have hnames : (Declaration.mk kind [.mk p init] loc).boundNames = p.boundNames := append_nil _
  have hfindings : (ForTarget.declaration (.mk kind [.mk p init] loc)).findings =
      fun env => (Declaration.mk kind [.mk p init] loc).refusals ++ p.findings env := by
    funext env
    show ((Declaration.mk kind [.mk p init] loc).refusals ++ []) ++ (p.findings env ++ []) = _
    rw [append_nil, append_nil]
  rw [hfindings]
  exact declareElement_checks _ (hnames.symm ▸ hp)

/-! ## Nodes -/

mutual

theorem expression_checks (e : Expression) (h : Shaped e.nodes) :
    CodeChecks (expression e) e.findings := by
  cases e with
  | identifier id => exact readIdentifier_checks id.name
  | literal l => exact literalCode_checks l
  | this loc => exact code_instCode rfl
  | array es => exact code_arrayCode (elements_check es h.tail)
  | object ms loc => exact code_objectCode (members_check ms h.tail)
  | function func => exact function_checks func h.tail
  | arrow params body isAsync loc =>
    exact closureCode_checks
      { kind := .arrow, name := "<arrow>", params, generator := false, isAsync, loc }
      (arrowBody_checks body h.tail.right) (arrowBody_checksArguments body)
  | unary op e => exact unary_checks (target_checks e h.tail) op (expression_checks e h.tail)
  | update op prefixed e =>
    exact code_updateCode op prefixed (expressionPlace_checks (target_checks e h.tail))
  | binary op l r =>
    exact code_binaryCode op (expression_checks l h.tail.left) (expression_checks r h.tail.right)
  | logical op l r =>
    exact code_logicalCode op (expression_checks l h.tail.left) (expression_checks r h.tail.right)
  | assignment op t e =>
    exact assignmentCode_checks op _ (place_checks t h.tail.left) (expression_checks e h.tail.right)
  | conditional t a b =>
    exact code_conditionalCode (expression_checks t h.tail.left)
      (expression_checks a h.tail.right.left) (expression_checks b h.tail.right.right)
  | call e args =>
    exact code_callCode (callee_checks (target_checks e h.tail.left) (expression_checks e h.tail.left))
      (arguments_check args h.tail.right)
  | construct e args =>
    exact code_constructCode (expression_checks e h.tail.left) (arguments_check args h.tail.right)
  | member o p computed loc =>
    exact code_memberCode (memberTarget_checks (expression_checks o h.tail.left)
      (expression_checks p h.tail.right))
  | sequence es => exact code_sequenceCode (expressions_check es h.tail) fun _ => .inl ⟨_, rfl⟩
  | template texts es loc =>
    refine (templateCode_checks texts loc (template_check es h.tail)).of_eq fun env => ?_
    rw [length_expressions]
    rfl
  | spread e loc => exact .failing fun _ => not_fine_refused
  | bare kind loc => exact .failing fun _ => not_fine_refused

theorem target_checks (e : Expression) (h : Shaped e.nodes) :
    ∀ code, target? e = some code → CodeChecks code e.findings := by
  intro code hcode
  cases e with
  | member o p computed loc =>
    cases hcode
    exact memberTarget_checks (expression_checks o h.tail.left) (expression_checks p h.tail.right)
  | _ => cases hcode

theorem spread_checks (e : Expression) (h : Shaped e.nodes) : ∀ code, spread? e = some code →
      CodeChecks code fun env => (e.spreadFindings? env).getD (e.findings env) := by
  intro code hcode
  cases e with
  | spread e loc =>
    cases hcode
    exact expression_checks e h.tail
  | _ => cases hcode

theorem optional_check (o : Option Expression) (h : Shaped (optionalNodes o)) :
    OptionChecks (optional o) (optionalFindings o) := by
  cases o with
  | none => exact .none
  | some e => exact .some (expression_checks e h)

theorem init_checks (o : Option Expression) (h : Shaped (optionalNodes o)) :
    CodeChecks (initCode (optional o)) (optionalFindings o) := by
  cases o with
  | none => exact code_instCode rfl
  | some e => exact expression_checks e h

theorem expressions_check (es : List Expression) (h : Shaped (expressionsNodes es)) :
    (checking Sees).Codes (fun i => expressionsFindings es i.1.2.1) (expressions es) (expressions es) := by
  cases es with
  | nil => exact .nil
  | cons e es => exact .cons (expression_checks e h.left) (expressions_check es h.right)

theorem arguments_check (es : List Expression) (h : Shaped (expressionsNodes es)) :
    (checking Sees).Codes (fun i => expressionsFindings es i.1.2.1) (arguments es)
      (arguments es) := by
  cases es with
  | nil => exact .nil
  | cons e es =>
    exact .cons (argumentCode_checks (expression_checks e h.left)) (arguments_check es h.right)

theorem template_check (es : List Expression) (h : Shaped (expressionsNodes es)) :
    TemplateChecks (expressions es) (expressionsFindings es) := by
  cases es with
  | nil => exact templateChecks_nil
  | cons e es => exact templateChecks_cons (expression_checks e h.left) (template_check es h.right)

theorem elements_check (es : List (Option Expression)) (h : Shaped (elementsNodes es)) :
    (checking Sees).Listed (checking Sees).ElementHolds (fun i => elementsFindings es i.1.2.1)
      (elements es) (elements es) := by
  match es with
  | [] => exact .nil
  | none :: es => exact .cons .hole (elements_check es h)
  | some e :: es =>
    refine Listed.cons (K := checking Sees) (f := fun i => (e.spreadFindings? i.1.2.1).getD
      (e.findings i.1.2.1)) ?_ (elements_check es h.right)
    have hspread := spread_checks e h.left
    have hvalue := expression_checks e h.left
    cases hs : spread? e with
    | some code => exact .spread (hspread code hs)
    | none =>
      simp only [spreadFindings?_eq_none hs, Option.getD_none]
      exact .value hvalue

theorem members_check (ms : List ObjectMember) (h : Shaped (membersNodes ms)) :
    (checking Sees).Listed ((checking Sees).Keyed (checking Sees).Code) (fun i => membersFindings ms i.1.2.1)
      (objectMembers ms) (objectMembers ms) := by
  cases ms with
  | nil => exact .nil
  | cons m ms =>
    simp only [membersFindings, ← append_assoc]
    exact .cons (keyed_checks (member_checks m h.left)) (members_check ms h.right)

theorem member_checks (m : ObjectMember) (h : Shaped m.nodes) :
    CodeChecks (objectMember m) m.findings := by
  cases m with
  | property key e kind method computed loc => exact expression_checks e h.right
  | spread loc => exact .failing fun _ => not_fine_refused

theorem place_checks (t : AssignmentTarget) (h : Shaped t.nodes) :
    CodeChecks (place t) t.findings := by
  cases t with
  | identifier id => exact identifierPlace_checks id.name
  | member o p computed =>
    exact code_memberPlace (memberTarget_checks (expression_checks o h.tail.left)
      (expression_checks p h.tail.right))
  | pattern loc => exact fun _ _ _ _ => .inr not_fine_refused

theorem function_checks (func : Tree.Function) (h : Shaped func.nodes) :
    CodeChecks (function func) func.findings := by
  obtain ⟨id, params, body, generator, isAsync, loc⟩ := func
  exact closureCode_checks
    { kind := .function, name := (id.map (·.name)).getD "<anonymous>", params, generator, isAsync, loc }
    (statementBody_checks (hoisted_check false body h.right) (inPlace_check false body h.right))
    (listFindings_checksArguments body _ _)

theorem arrowBody_checks (body : ArrowBody) (h : Shaped body.nodes) :
    BodyChecks (arrowBody body) body.findings := by
  cases body with
  | block body => exact statementBody_checks (hoisted_check false body h) (inPlace_check false body h)
  | expression e => exact expressionBody_checks (expression_checks e h)

theorem pattern_checks (p : Pattern) (h : Shaped p.nodes) :
    BindChecks (pattern p) p.boundNames p.findings := by
  cases p with
  | identifier id => exact bindName_checks id.name
  | array ps => exact patternElements_check ps h 0
  | object ms => exact patternMembers_check ms h
  | withDefault p e => exact bindDefault_checks (expression_checks e h.right) (pattern_checks p h.left)
  | rest p loc => exact bindFailing_checks fun _ => not_fine_refused
  | member loc => exact bindFailing_checks fun _ => not_fine_refused

theorem patternElements_check (ps : List (Option Pattern)) (h : Shaped (patternElementsNodes ps)) :
    ElementsBind (patternElements ps) (elementNames ps) (patternElementsFindings ps) := by
  match ps with
  | [] => exact elementsBind_nil
  | none :: ps => exact elementsBind_hole (patternElements_check ps h)
  | some p :: ps =>
    have hfirst := pattern_checks p h.left
    have hrest := patternElements_check ps h.right
    cases p with
    | rest p loc => exact elementsBind_rest fun _ hf => not_fine_refused (fine_append.mp hf).1
    | _ => exact elementsBind_item hfirst hrest

theorem patternMembers_check (ms : List PatternMember) (h : Shaped (patternMembersNodes ms)) :
    BindChecks (bindObject (patternMembers ms)) (memberNames ms) (patternMembersFindings ms) := by
  match ms with
  | [] => exact bindMembers_nil
  | .property key p computed loc :: ms =>
    exact bindMembers_cons (pattern_checks p h.left.right) (patternMembers_check ms h.right)
  | .rest p loc :: ms => exact bindMembers_refused fun _ => not_fine_refused

theorem binders_check (ds : List Declarator) (h : Shaped (declaratorsNodes ds)) :
    BindersCheck (binders ds) (ds.flatMap fun d => d.target.boundNames) (declaratorsFindings ds) := by
  match ds with
  | [] => exact bindersCheck_nil
  | .mk p init :: ds =>
    exact bindersCheck_cons (init_checks init h.left.right) (pattern_checks p h.left.left)
      (binders_check ds h.right)

theorem declaration_checks (d : Declaration) (h : Shaped d.nodes) :
    TableChecks d.table (declaration d) d.findings := by
  obtain ⟨kind, ds, loc⟩ := d
  exact declarationCode_checks _ (binders_check ds h)

theorem optionalHead_checks (init : Option ForInit) (h : Shaped (headNodes init)) :
    HeadChecks (optionalHead init) (headTable init) (headFindings init) := by
  match init with
  | none => exact emptyHead_checks
  | some (.declaration (.mk kind ds loc)) =>
    exact declarationHead_checks _ (declarationCode_checks _ (binders_check ds h))
  | some (.expression e) => exact expressionHead_checks (expression_checks e h)

theorem forTarget_checks (t : ForTarget) (h : Shaped t.nodes) :
    ElementChecks (forTarget t) t.table t.findings := by
  match t with
  | .target t => exact assignElement_checks (place_checks t h)
  | .declaration (.mk kind [] loc) => exact declaredElements_checks (by simp)
  | .declaration (.mk kind [.mk p init] loc) =>
    exact declaredElement_checks (pattern_checks p h.left.left)
  | .declaration (.mk kind (_ :: _ :: ds) loc) => exact declaredElements_checks (by simp)

theorem statement_checks (loop : Bool) (s : Statement) (h : Shaped s.nodes) :
    StmtChecks loop s.placedTable (statement s) (s.findings loop) := by
  cases s with
  | declaration d => exact (declaration_checks d h).stmt
  | function func => exact PlainChecks.stmt fun _ _ _ _ => .inr not_fine_refused
  | expression e => exact PlainChecks.stmt (CodeChecks.plain (code_expressionCode (expression_checks e h)))
  | block body => exact (blockCode_checks (hoisted_check loop body h) (inPlace_check loop body h)).stmt
  | returns e => exact PlainChecks.stmt (CodeChecks.plain (returnCode_checks (init_checks e h)))
  | breaks label loc => exact (breakCode_checks label loc).stmt
  | continues label loc => exact (continueCode_checks label loc).stmt
  | ifElse t a b =>
    have htest := expression_checks t h.left
    have hfirst := body_checks h.right.left (statement_checks loop a)
    cases b with
    | none => exact PlainChecks.stmt (code_ifCode htest.plain hfirst .none)
    | some b =>
      have hsecond := body_checks h.right.right (statement_checks loop b)
      exact PlainChecks.stmt (code_ifCode htest.plain hfirst (.some hsecond))
  | whileLoop t body =>
    exact (whileCode_checks (expression_checks t h.left)
      (body_checks h.right (statement_checks true body))).stmt
  | doWhile t body =>
    exact (doWhileCode_checks (expression_checks t h.left)
      (body_checks h.right (statement_checks true body))).stmt
  | forLoop init test update body =>
    have hbody := body_checks h.right.right.right (statement_checks true body)
    refine (forCode_checks (optionalHead_checks init h.left) (optional_check test h.right.left) hbody
      (optional_check update h.right.right.left)).stmt.of_eq fun env => ?_
    rw [← Env.bind_enter_self env (headTable init) (headTable init).names]
    rfl
  | forIn t e body isAwait loc =>
    have hbody := body_checks h.right.right (statement_checks true body)
    refine (forEachCode_checks .keysProtocol (expression_checks e h.right.left)
      (forTarget_checks t h.left) hbody isAwait loc).stmt.of_eq fun env => ?_
    rw [← Env.bind_enter_self env t.table t.table.names]
    rfl
  | forOf t e body isAwait loc =>
    have hbody := body_checks h.right.right (statement_checks true body)
    refine (forEachCode_checks .itemsProtocol (expression_checks e h.right.left)
      (forTarget_checks t h.left) hbody isAwait loc).stmt.of_eq fun env => ?_
    rw [← Env.bind_enter_self env t.table t.table.names]
    rfl
  | bare kind loc => exact PlainChecks.stmt (CodeChecks.plain (bareCode_checks kind loc))

theorem hoisted_check (loop : Bool) (ss : List Statement) (h : Shaped (statementsNodes ss)) :
    StmtChecks loop (hoistedTable ss)
      (fun ctx b => runAll ctx b ((items ss).filterMap Item.hoisted?))
      (hoistedFindings ss) := by
  cases ss with
  | nil => exact runAll_nil
  | cons s ss =>
    have hrest := hoisted_check loop ss h.right
    cases s with
    | function func =>
      exact runAll_cons (functionDeclarationCode_checks func (function_checks func h.left)).stmt hrest
    | _ =>
      refine hrest.of_eq fun env => ?_
      show _ = [] ++ hoistedFindings ss (env.bind [])
      rw [Env.bind_nil]
      rfl

theorem inPlace_check (loop : Bool) (ss : List Statement) (h : Shaped (statementsNodes ss)) :
    StmtChecks loop (placedTable ss) (fun ctx b => runAll ctx b ((items ss).filterMap Item.inPlace?))
      (inPlaceFindings loop ss) := by
  cases ss with
  | nil => exact runAll_nil
  | cons s ss =>
    have hfirst := statement_checks loop s h.left
    have hrest := inPlace_check loop ss h.right
    cases s with
    | function func =>
      refine hrest.of_eq fun env => ?_
      show _ = [] ++ inPlaceFindings loop ss (env.bind [])
      rw [Env.bind_nil]
      rfl
    | _ => exact runAll_cons hfirst hrest

end

end ScriptIr.Static
