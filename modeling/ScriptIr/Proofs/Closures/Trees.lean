import ScriptIr.Compile
import ScriptIr.Proofs.Closures.Judgement
import ScriptIr.Proofs.Lower.Parameters

/-!
# Judgements on trees

What holds of the primitives holds of the code of every tree, graded by the functions of the tree.

* `Judgement.code_expression`, `Judgement.code_statement`: nodes.
-/
namespace ScriptIr

/-- Whether a statement may declare names in the scope in which it stands. -/
def Tree.Statement.declares : Statement → Bool
  | .declaration _ => true
  | .ifElse _ a none => a.declares
  | .ifElse _ a (some b) => a.declares || b.declares
  | _ => false

namespace Lower

open ScriptIr.Tree

/-! ## Places that hold no functions -/

theorem nests_of_propertyName {key : Expression} {name : String} (h : propertyName key = .ok name) :
    key.nests = [] := by
  cases key with
  | identifier _ | literal _ => rfl
  | _ => cases h

theorem nests_of_patternKey {key : Expression} {computed : Bool} {loc : Option Location} {name : String}
    (h : patternKey key computed loc = .ok name) : key.nests = [] := by
  cases computed with
  | true => cases h
  | false => exact nests_of_propertyName h

theorem Parameters.nests {ps : List Pattern} {names : List String} {rest : Option String}
    (h : Parameters ps names rest) : patternsNests ps = [] := by
  induction h with
  | nil | rest => rfl
  | plain id _ ih =>
    rw [patternsNests, ih]
    rfl

namespace Judgement

open Calculus

/-- A judgement of which closures are part, as the code is that they close over. -/
structure Closing extends Judgement where
  closes : toJudgement.Closes

variable {J : Closing}

/-- A closure; the parameters of a function that can be lowered hold no functions. -/
theorem code_closureCode (h : Header) {body : BodyCode} {ns : List Nest} (hb : J.Stmt true ns body) :
    J.Code [.mk h.kind h.name (patternsNests h.params ++ ns)] (Lower.closureCode h body) :=
  J.closes h body (patternsNests h.params ++ ns) fun ⟨_, _⟩ hnames => by
    rw [(parameters_of_names hnames).nests]
    exact hb

mutual

theorem code_expression (e : Expression) : J.Code e.nests (expression e) := by
  cases e with
  | identifier id => exact code_readIdentifier _
  | literal l => exact code_literalCode lax l
  | this loc => exact code_instCode rfl
  | array es => exact code_arrayCode (listed_elements es)
  | object ms loc => exact code_objectCode (listed_objectMembers ms)
  | function func => exact code_function func
  | arrow params body isAsync loc =>
    exact code_closureCode
      { kind := .arrow, name := "<arrow>", params, generator := false, isAsync, loc }
      (code_arrowBody body)
  | unary op e => exact code_unaryCode op (code_target e) (code_expression e)
  | update op prefixed e =>
    refine code_updateCode op prefixed (code_expressionPlace ?_ (code_target e))
    rintro id rfl
    rfl
  | binary op l r => exact code_binaryCode op (code_expression l) (code_expression r)
  | logical op l r => exact code_logicalCode op (code_expression l) (code_expression r)
  | assignment op t e =>
    exact code_assignmentCode (fun _ _ _ => trivial) (code_place t) (code_expression e)
  | conditional t a b =>
    exact code_conditionalCode (code_expression t) (code_expression a) (code_expression b)
  | call e args =>
    exact code_callCode (calleeCode (code_target e) (code_expression e)) (codes_arguments args)
  | construct e args => exact code_constructCode (code_expression e) (codes_arguments args)
  | member o p computed loc =>
    refine code_memberCode (code_memberTarget (code_expression o) (code_expression p) ?_)
    rintro id rfl
    rfl
  | sequence es => exact code_sequenceCode (codes_expressions es) fun _ => trivial
  | template texts es loc => exact code_templateCode lax texts loc (codes_expressions es)
  | spread e loc => exact .failing fun _ => trivial
  | bare kind loc => exact .failing fun _ => trivial

theorem code_target (e : Expression) : ∀ code, target? e = some code → J.Code e.nests code := by
  intro code hcode
  cases e with
  | member o p computed loc =>
    cases hcode
    refine code_memberTarget (code_expression o) (code_expression p) ?_
    rintro id rfl
    rfl
  | _ => cases hcode

theorem code_spread (e : Expression) : ∀ code, spread? e = some code → J.Code e.nests code := by
  intro code hcode
  cases e with
  | spread e loc =>
    cases hcode
    exact code_expression e
  | _ => cases hcode

theorem optional_expression (o : Option Expression) : J.Optional (optionalNests o) (optional o) := by
  cases o with
  | none => exact .none
  | some e => exact .some (code_expression e)

theorem codes_expressions (es : List Expression) :
    J.exprs.Codes (fun _ => expressionsNests es) (expressions es) (expressions es) := by
  cases es with
  | nil => exact .nil
  | cons e es => exact .cons (code_expression e) (codes_expressions es)

theorem codes_arguments (es : List Expression) :
    J.exprs.Codes (fun _ => expressionsNests es) (arguments es) (arguments es) := by
  cases es with
  | nil => exact .nil
  | cons e es =>
    have he : J.Code e.nests (argumentCode e (expression e)) := by
      unfold argumentCode
      split
      · exact .failing fun _ => trivial
      · exact code_expression e
    exact .cons he (codes_arguments es)

theorem listed_elements (es : List (Option Expression)) :
    J.exprs.Listed J.exprs.ElementHolds (fun _ => elementsNests es) (elements es) (elements es) := by
  match es with
  | [] => exact .nil
  | none :: es => exact .cons .hole (listed_elements es)
  | some e :: es =>
    have he : ∀ code, spread? e = some code → J.Code e.nests code := code_spread e
    have hcode : J.Code e.nests (expression e) := code_expression e
    have hfirst : J.exprs.ElementHolds (fun _ => e.nests) (match spread? e with
        | some code => .spread code
        | none => .value (expression e))
        (match spread? e with
        | some code => .spread code
        | none => .value (expression e)) := by
      cases hs : spread? e with
      | some code => exact .spread (he code hs)
      | none => exact .value hcode
    exact .cons hfirst (listed_elements es)

theorem listed_objectMembers (ms : List ObjectMember) :
    J.exprs.Listed (Keyed J.exprs J.exprs.Code) (fun _ => membersNests ms) (objectMembers ms)
      (objectMembers ms) := by
  cases ms with
  | nil => exact .nil
  | cons m ms =>
    have hcode : ∀ name, memberName m = .ok name → J.Code m.nests (objectMember m) := by
      intro name hname
      cases m with
      | spread loc => cases hname
      | property key e kind method computed loc =>
        -- a member that is lowered has a name as its key
        have hkey : key.nests = [] := by
          dsimp only [memberName] at hname
          split at hname
          · cases hname
          · split at hname
            · cases hname
            · split at hname
              · cases hname
              · exact nests_of_propertyName hname
        dsimp only [ObjectMember.nests]
        rw [hkey]
        exact code_expression e
    exact .cons ⟨rfl, fun _ _ _ => trivial, hcode⟩ (listed_objectMembers ms)

theorem code_place (t : AssignmentTarget) : J.Code t.nests (place t) := by
  cases t with
  | identifier id => exact code_identifierPlace _
  | member o p computed =>
    refine code_memberPlace (code_memberTarget (code_expression o) (code_expression p) ?_)
    rintro id rfl
    rfl
  | pattern loc => exact fun _ _ => unsupported ..

theorem code_function (func : Tree.Function) : J.Code [func.nest] (function func) := by
  obtain ⟨id, params, body, generator, isAsync, loc⟩ := func
  exact code_closureCode
    { kind := .function, name := (id.map (·.name)).getD "<anonymous>", params, generator, isAsync, loc }
    (code_statementBody (code_listCode (listed_hoisted body) (listed_inPlace body)))

theorem code_arrowBody (body : ArrowBody) : J.Stmt true body.nests (arrowBody body) := by
  cases body with
  | block body => exact code_statementBody (code_listCode (listed_hoisted body) (listed_inPlace body))
  | expression e => exact stmt (code_expressionBody (code_expression e))

theorem bind_pattern (p : Pattern) : J.Bind p.nests (pattern p) := by
  cases p with
  | identifier id => exact bind_bindName _
  | array ps => exact bind_bindArray lax (listed_patternElements ps)
  | object ms => exact bind_bindObject (listed_patternMembers ms)
  | withDefault p e => exact bind_bindDefault (stmt (code_expression e)) (bind_pattern p)
  | rest p loc => exact fun _ _ _ _ => unsupported ..
  | member loc => exact fun _ _ _ _ => unsupported ..

theorem listed_patternElements (ps : List (Option Pattern)) :
    J.stmts.Listed J.stmts.ElementBindHolds (fun _ => patternElementsNests ps) (patternElements ps)
      (patternElements ps) := by
  match ps with
  | [] => exact .nil
  | none :: ps => exact .cons .hole (listed_patternElements ps)
  | some p :: ps =>
    have hp : J.Bind p.nests (pattern p) := bind_pattern p
    have hfirst : J.stmts.ElementBindHolds (fun _ => p.nests) (elementBind p (pattern p))
        (elementBind p (pattern p)) := by
      cases p with
      | rest p loc => exact .rest _ loc
      | _ => exact .item hp
    exact .cons hfirst (listed_patternElements ps)

theorem listed_patternMembers (ms : List PatternMember) :
    J.stmts.Listed (Keyed J.stmts J.stmts.Bind) (fun _ => patternMembersNests ms) (patternMembers ms)
      (patternMembers ms) := by
  match ms with
  | [] => exact .nil
  | .property key p computed loc :: ms =>
    have hp : ∀ name, patternKey key computed loc = .ok name → J.Bind (key.nests ++ p.nests) (pattern p) := by
      intro name hname
      rw [nests_of_patternKey hname]
      exact bind_pattern p
    exact .cons ⟨rfl, fun _ _ _ => trivial, hp⟩ (listed_patternMembers ms)
  | .rest p loc :: ms =>
    exact .cons ⟨rfl, fun _ _ _ => trivial, fun _ h => nomatch h⟩ (listed_patternMembers ms)

theorem listed_binders (ds : List Declarator) :
    J.stmts.Binders (fun _ => declaratorsNests ds) (binders ds) (binders ds) := by
  match ds with
  | [] => exact .nil
  | .mk p init :: ds =>
    have hinit : J.stmts.Perhaps J.stmts.Code (fun _ => optionalNests init) (optional init)
        (optional init) := by
      cases init with
      | none => exact .none
      | some e => exact .some (stmt (code_expression e))
    exact .cons hinit (bind_pattern p) (listed_binders ds)

theorem listed_targets (ds : List Declarator) :
    J.stmts.Listed (fun f b b' => J.stmts.Bind f b.bind b'.bind) (fun _ => targetsNests ds) (binders ds)
      (binders ds) := by
  match ds with
  | [] => exact .nil
  | .mk p init :: ds => exact .cons (bind_pattern p) (listed_targets ds)

theorem code_declaration (d : Declaration) : J.Stmt true d.nests (declaration d) := by
  obtain ⟨kind, ds, loc⟩ := d
  exact code_declarationCode _ (listed_binders ds)

theorem code_optionalHead (init : Option ForInit) : J.Stmt true (headNests init) (optionalHead init) := by
  match init with
  | none => exact fun _ _ => J.pure ..
  | some (.declaration d) => exact code_declarationHead d (code_declaration d)
  | some (.expression e) => exact stmt (code_expressionHead (code_expression e))

theorem receives_forTarget (t : ForTarget) :
    J.stmts.Receives (fun _ => t.nests) (forTarget t) (forTarget t) := by
  match t with
  | .declaration (.mk kind ds loc) => exact receives_declareElement _ (listed_targets ds)
  | .target t => exact receives_assignElement (code_place t)

theorem code_statement (s : Statement) : J.Stmt s.declares s.nests (statement s) := by
  cases s with
  | declaration d => exact code_declaration d
  | function func => exact fun _ _ => unsupported ..
  | expression e => exact code_expressionCode (code_expression e)
  | block body => exact code_blockCode (code_listCode (listed_hoisted body) (listed_inPlace body))
  | returns e => exact code_returnCode (optional_expression e)
  | breaks label loc => exact code_jumpCode _ _ _ _ _
  | continues label loc => exact code_jumpCode _ _ _ _ _
  | ifElse t a b =>
    match b with
    | none => exact code_ifCode (stmt (code_expression t)) (code_statement a) .none
    | some b =>
      have ha : J.Stmt (a.declares || b.declares) a.nests (statement a) :=
        (code_statement a).mono (by simp +contextual)
      have hb : J.Stmt (a.declares || b.declares) b.nests (statement b) :=
        (code_statement b).mono (by simp +contextual)
      exact code_ifCode (stmt (code_expression t)) ha (.some hb)
  | whileLoop t body => exact code_whileCode (code_expression t) (code_statement body).any
  | doWhile t body => exact code_doWhileCode (code_statement body).any (code_expression t)
  | forLoop init test update body =>
    exact code_forCode (code_optionalHead init) (optional_expression test) (optional_expression update)
      (code_statement body).any
  | forIn t e body isAwait loc =>
    exact code_forEachCode .keysProtocol (code_expression e) (receives_forTarget t)
      (code_statement body).any isAwait loc
  | forOf t e body isAwait loc =>
    exact code_forEachCode .itemsProtocol (code_expression e) (receives_forTarget t)
      (code_statement body).any isAwait loc
  | bare kind loc => exact code_bareCode (fun _ _ _ => trivial) fun _ _ => rfl

theorem listed_hoisted (ss : List Statement) :
    J.Stmts (hoistedNests ss) ((items ss).filterMap Item.hoisted?) := by
  cases ss with
  | nil => exact .nil
  | cons s ss =>
    have hrest : J.Stmts _ _ := listed_hoisted ss
    cases s with
    | function func => exact .cons (code_functionDeclarationCode func (code_function func)) hrest
    | _ => simpa only [items, closure?, Item.of, List.filterMap_cons, Item.hoisted?, hoistedNests]

theorem listed_inPlace (ss : List Statement) :
    J.Stmts (inPlaceNests ss) ((items ss).filterMap Item.inPlace?) := by
  cases ss with
  | nil => exact .nil
  | cons s ss =>
    have hfirst : J.Stmt true s.nests (statement s) := (code_statement s).any
    have hrest : J.Stmts _ _ := listed_inPlace ss
    cases s with
    | function func =>
      simpa only [items, closure?, Item.of, List.filterMap_cons, Item.inPlace?, inPlaceNests]
    | _ =>
      simp only [items, Item.of, List.filterMap_cons, Item.inPlace?, inPlaceNests]
      exact .cons hfirst hrest

end

theorem program_body (p : Program) (ctx : Ctx) (entry : Code.BlockId) :
    J.holds ctx.func 0 p.nests (statementBody (listCode (items p.body)) ctx entry) :=
  placed (code_statementBody (code_listCode (listed_hoisted p.body) (listed_inPlace p.body))) ctx
    entry fun _ => Nat.zero_le _

end Judgement

end Lower

end ScriptIr
