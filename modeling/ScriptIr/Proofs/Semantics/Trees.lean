import ScriptIr.Proofs.Semantics.Closures

/-!
# What trees do

The code of every node does what running the node does, by recursion on the tree.

* `expression_does`, `pattern_does`, `statement_does`: what nodes do.
-/
namespace ScriptIr.Run

open Lower List ScriptIr.Tree

variable {B : FunctionSpec} {e : Expression} {x : String}

variable {fs : List Callable}

/-! ## Keys and arguments -/

theorem memberKey_text (h : memberKey e = .ok x) : x = e.keyText := by
  unfold memberKey at h
  split at h <;> cases h
  rfl

theorem propertyName_text (h : propertyName e = .ok x) : x = e.keyText := by
  unfold propertyName at h
  split at h
  · cases h
    rfl
  · next l =>
    split at h
    · next hl =>
      cases h
      simp only [Expression.keyText, hl]
    · next hl =>
      split at h
      · cases h
        simp only [Expression.keyText, hl]
      · cases h
    · cases h
  · cases h

theorem memberName_text {m : ObjectMember} (h : memberName m = .ok x) : x = m.keyText := by
  cases m with
  | spread loc => cases h
  | property key e kind method computed loc =>
    unfold memberName at h
    dsimp only at h
    split at h
    · cases h
    split at h
    · cases h
    split at h
    · cases h
    exact propertyName_text h

theorem patternKey_text {key : Expression} {computed : Bool} {loc : Option Location}
    (h : patternKey key computed loc = .ok x) : x = key.keyText := by
  unfold patternKey at h
  split at h
  · cases h
  · exact propertyName_text h

variable {V σ : Type} {S : Setting V σ} {B : FunctionSpec} {ev : Nat → Nat → StateM σ (Outcome V)}

theorem argumentCode_does (e : Expression) {code : ExprCode} {ev : Nat → StateM σ V}
    (h : ExprDoes S B code ev fs) :
    ExprDoes S B (argumentCode e code) ev fs := by
  unfold argumentCode
  split
  · exact failing_does _ ev fs
  · exact h

theorem expressionPlace_does (e : Expression)
    (h : TargetDoes? S B (target? e) (evalTarget? S.toScene e) e.functions) :
    PlaceDoes S B (expressionPlace e (target? e)) (evalPlace S.toScene e) e.functions := by
  cases e with
  | identifier id => exact identifierPlace_does id.name
  | member o p computed loc =>
    cases h with
    | some h => exact memberPlace_does h
  | _ => exact fun _ _ _ => .throw

theorem evalSpread?_none (S : Scene V σ) (h : spread? e = none) : evalSpread? S e = none := by
  cases e with
  | spread e loc => cases h
  | _ => rfl

/-! ## Loops -/

theorem testOf_eq (S : Setting V σ) (test : Option Expression) :
    testOf S (test.map (evalExpression S.toScene)) = execTest S.toScene test := by
  cases test <;> rfl

theorem updateOf_eq (S : Scene V σ) (update : Option Expression) :
    updateOf (update.map (evalExpression S)) = execUpdate S update := by
  cases update <;> rfl

theorem keysWalk_round (S : Scene V σ) (receive : V → StateM σ Unit) (body : StateM σ (Outcome V))
    (e : V × V) : (keysWalk S).round receive body e = fun index => do
      if ← S.decide (← S.perform (.binary .less index e.2)) then
        receive (← S.perform (.getItem e.1 index))
        afterBody (← body) (do return .again (← S.perform (.binary .add index (← S.number 1))))
      else return .ended .normal := by
  funext index w
  let out := S.test (S.perform (.binary .less index e.2) w).1 (S.perform (.binary .less index e.2) w).2
  have hstep : (keysWalk S).step e index w = (if out.1 then some () else none, out.2) := rfl
  change _ = (if out.1 then (keysWalk S).visit receive body e index () else pure (.ended .normal)) out.2
  cases hout : out.1 with
  | true =>
    rw [Walk.round_some (x := ()) (by rw [hstep, hout]; rfl), hstep, if_pos rfl]
  | false =>
    rw [Walk.round_none (by rw [hstep, hout]; rfl), hstep]
    rfl

theorem itemsWalk_round (S : Scene V σ) (receive : V → StateM σ Unit) (body : StateM σ (Outcome V))
    (iterator : V) : (itemsWalk S).round receive body iterator = (fun _ => do
      let (answer, done) ← nextItem S iterator
      if done then return .ended .normal
      receive (← S.getNamed answer "value")
      afterBody (← body) (return .again ())) := by
  funext i w
  let asked := askIterator S iterator w
  let out := S.test asked.1.2 asked.2
  have hstep : (itemsWalk S).step iterator i w = (if out.1 then none else some asked.1.1, out.2) := rfl
  change _ = (if out.1 then pure (.ended .normal)
    else (itemsWalk S).visit receive body iterator () asked.1.1) out.2
  cases hout : out.1 with
  | true =>
    rw [Walk.round_none (by rw [hstep, hout]; rfl), hstep]
    rfl
  | false =>
    rw [Walk.round_some (x := asked.1.1) (by rw [hstep, hout]; rfl), hstep]
    rfl

theorem function_makes {params : List Pattern} {h : Header} {code : BodyCode}
    (kind : FunctionKind) (body : ArrowBody) (hkind : h.kind = kind)
    (hparams : h.params = params)
    (hbody : ∀ {V' σ' : Type} (S' : Setting V' σ'), BodyDoes S' (Behaves S'.firstId)
      (∀ node ∈ body.nodes, node.parserShaped = true) code
      (fun fuel n => execBody S'.toScene fuel body n) body.functions) :
    ExprDoes S (Behaves S.firstId) (closureCode h code) (fun n => S.closure n kind)
      (⟨kind, params, body⟩ :: body.functions) :=
  closureCode_does (c := ⟨kind, params, body⟩) hkind.symm hparams.symm fun S' hS' => hS' ▸ hbody S'

theorem OptionalDoes.initCode {o : Option Expression} {code : Option ExprCode}
    (h : OptionalDoes S B code (o.map (evalExpression S.toScene)) fs) :
    ExprDoes S B (initCode code) (evalOptional S.toScene o) fs := by
  cases o with
  | none =>
    cases h
    exact instCode_does fun _ _ _ _ => rfl
  | some e =>
    cases h with
    | some h => exact h

/-! ## Lists -/

/-- The members of a list of statements do what their declarations of functions and their other
statements do. -/
structure ItemsDo (S : Setting V σ) (B : FunctionSpec) (strict : Prop)
    (items : List Item) (evh : Nat → StateM σ Unit) (evi : Nat → Nat → StateM σ (Outcome V))
    (hs gs : List Callable) : Prop where
  hoisted : StmtsDoes S B strict [] (items.filterMap Item.hoisted?)
    (fun _ n => evh n >>= fun _ => pure .normal) hs
  inPlace : ∃ decl, (∀ x ∈ decl, x ∈ items.flatMap itemNames) ∧
    StmtsDoes S B strict decl (items.filterMap Item.inPlace?) evi gs

namespace ItemsDo

variable {B : FunctionSpec} {strict : Prop} {items : List Item}
  {evh : Nat → StateM σ Unit} {evi : Nat → Nat → StateM σ (Outcome V)} {fs hs gs : List Callable}

variable {code : StmtCode}

theorem nil : ItemsDo S B strict [] (fun _ => pure ()) (fun _ _ => pure .normal) [] [] :=
  ⟨.nil, [], fun _ => id, .nil⟩

theorem declaration (d : Declaration) (h : StmtDoes S B strict d.boundNames code ev fs)
    (hi : ItemsDo S B strict items evh evi hs gs) :
    ItemsDo S B strict (.declaration d code :: items) evh
      (fun fuel n => inTurn (ev fuel n) (evi fuel (n + fs.length))) hs (fs ++ gs) := by
  obtain ⟨decl, hdecl, hrest⟩ := hi.inPlace
  refine ⟨hi.hoisted, _, fun x hx => ?_, .cons h hrest⟩
  rw [flatMap_cons]
  rcases mem_append.mp hx with hx | hx
  · exact mem_append_left _ hx
  · exact mem_append_right _ (hdecl x hx)

theorem statement (h : StmtDoes S B strict [] code ev fs) (hi : ItemsDo S B strict items evh evi hs gs) :
    ItemsDo S B strict (.statement code :: items) evh
      (fun fuel n => inTurn (ev fuel n) (evi fuel (n + fs.length))) hs (fs ++ gs) := by
  obtain ⟨decl, hdecl, hrest⟩ := hi.inPlace
  exact ⟨hi.hoisted, decl, hdecl, .cons h hrest⟩

theorem function (f : Tree.Function) {closure : ExprCode} {ev : Nat → StateM σ V}
    (h : ExprDoes S B closure ev fs) (hi : ItemsDo S B strict items evh evi hs gs) :
    ItemsDo S B strict (.function f closure :: items) (fun n => do
        S.assign ((f.id.map (·.name)).getD "") (← ev n)
        evh (n + fs.length)) evi (fs ++ hs) gs := by
  obtain ⟨decl, hdecl, hrest⟩ := hi.inPlace
  refine ⟨.cons (functionDeclarationCode_does f h) hi.hoisted, decl, fun x hx => ?_, hrest⟩
  rw [flatMap_cons]
  exact mem_append_right _ (hdecl x hx)

/-- The whole list: the functions come first. -/
theorem list (h : ItemsDo S B strict items evh evi hs gs) : ListDoes S B strict (listCode items)
      (fun fuel n => do
        evh n
        evi fuel (n + hs.length)) (hs ++ gs) := by
  obtain ⟨decl, hdecl, hrest⟩ := h.inPlace
  exact listCode_does h.hoisted hrest (nofun) hdecl

end ItemsDo

theorem body_does {s : Statement} {strict : Prop}
    (hs : strict → AllNodes (·.parserShaped = true) (.body s :: s.nodes))
    (hdoes : (strict → AllNodes (·.parserShaped = true) s.nodes) →
      StmtDoes S B strict s.declaredNames (statement s) ev fs) :
    StmtDoes S B strict [] (statement s) ev fs := by
  have h := hdoes fun hstrict => (hs hstrict).tail
  by_cases hstrict : strict
  · cases s with
    | declaration d =>
      have hkind : d.kind = .functionWide := by
        simpa [Node.parserShaped, Statement.isLexical] using (hs hstrict).head
      intro ctx b n s c t _ hrun
      have hrun : declaration d ctx b s = .ok c t := hrun
      obtain ⟨kind, ds, loc⟩ := d
      unfold declaration declarationCode checkBlockWide at hrun
      rw [if_pos hkind] at hrun
      cases hrun
    | function f =>
      intro ctx b n s c t _ hrun
      cases hrun
    | _ => exact h
  · exact h.loosen fun h => absurd h hstrict

/-! ## Nodes -/

mutual

theorem expression_does (e : Expression) {V σ : Type} (S : Setting V σ) :
    ExprDoes S (Behaves S.firstId) (expression e) (evalExpression S.toScene e) e.functions := by
  cases e with
  | identifier id => exact readIdentifier_does id.name
  | literal l => exact literalCode_does l
  | this loc => exact instCode_does fun _ _ _ _ => rfl
  | bare kind loc => exact failing_does _ _ _
  | array es => exact arrayCode_does (elements_does es S)
  | object ms loc => exact objectCode_does (members_does ms S)
  | function f => exact function_does f S
  | arrow params body isAsync loc => exact function_makes .arrow body rfl rfl (arrowBody_does body)
  | unary op e => exact unaryCode_does op e (target?_does e S) (expression_does e S)
  | update op prefixed e => exact updateCode_does op prefixed (expressionPlace_does e (target?_does e S))
  | spread e loc => exact failing_does _ _ _
  | binary op l r => exact binaryCode_does op (expression_does l S) (expression_does r S)
  | logical op l r => exact logicalCode_does op (expression_does l S) (expression_does r S)
  | assignment op t e => exact assignmentCode_does op e.loc (place_does t S) (expression_does e S)
  | conditional t a b =>
    exact conditionalCode_does (expression_does t S) (expression_does a S) (expression_does b S)
  | call e args =>
    exact callCode_does (target?_does e S) (expression_does e S) (arguments_does args S)
  | construct e args => exact constructCode_does (expression_does e S) (arguments_does args S)
  | member o p computed loc =>
    exact memberCode_does
      (memberTarget_does (expression_does o S) (expression_does p S) fun _ => memberKey_text)
  | sequence es => exact sequenceCode_does (expressions_does es S)
  | template texts es loc => exact templateCode_does (templates_does es S) texts loc

theorem target?_does (e : Expression) {V σ : Type} (S : Setting V σ) :
    TargetDoes? S (Behaves S.firstId) (target? e) (evalTarget? S.toScene e) e.functions := by
  cases e with
  | member o p computed loc =>
    exact .some (memberTarget_does (expression_does o S) (expression_does p S) fun _ => memberKey_text)
  | _ => exact .none _

theorem expressions_does (es : List Expression) {V σ : Type} (S : Setting V σ) :
    ExprsDoes S (Behaves S.firstId) (expressions es) (evalAll S.toScene es)
      (expressionsFunctions es) := by
  cases es with
  | nil => exact .nil
  | cons e es => exact .cons (expression_does e S) (expressions_does es S)

theorem arguments_does (es : List Expression) {V σ : Type} (S : Setting V σ) :
    ExprsDoes S (Behaves S.firstId) (arguments es) (evalAll S.toScene es)
      (expressionsFunctions es) := by
  cases es with
  | nil => exact .nil
  | cons e es => exact .cons (argumentCode_does e (expression_does e S)) (arguments_does es S)

theorem templates_does (es : List Expression) {V σ : Type} (S : Setting V σ) :
    TemplateDoes S (Behaves S.firstId) (expressions es) (evalTemplate S.toScene es)
      (expressionsFunctions es) := by
  cases es with
  | nil => exact .nil
  | cons e es => exact .cons (expression_does e S) (templates_does es S)

theorem spread?_does (e : Expression) {V σ : Type} (S : Setting V σ) (code : ExprCode)
    (h : spread? e = some code) : ∃ ev, evalSpread? S.toScene e = some ev ∧
      ExprDoes S (Behaves S.firstId) code ev e.functions := by
  cases e with
  | spread e loc =>
    cases h
    exact ⟨_, rfl, expression_does e S⟩
  | _ => cases h

theorem elements_does (es : List (Option Expression)) {V σ : Type} (S : Setting V σ) :
    ElementsDoes S (Behaves S.firstId) (elements es) (evalElements S.toScene es)
      (elementsFunctions es) := by
  match es with
  | [] => exact .nil
  | none :: es => exact .hole (elements_does es S)
  | some e :: es =>
    have hes := elements_does es S
    have he := expression_does e S
    have hspread := spread?_does e S
    cases hcode : spread? e with
    | some code =>
      obtain ⟨ev, hev, hdoes⟩ := hspread code hcode
      have hvalue : evalElements S.toScene (some e :: es) = (fun n p => do
          let p ← S.flush p
          let piece ← S.spread (← ev n)
          evalElements S.toScene es (n + e.functions.length) { p with done := p.done ++ [piece] }) := by
        funext n p
        simp only [evalElements, hev]
      rw [elements, hcode, hvalue]
      exact .spread hdoes hes
    | none =>
      have hev := evalSpread?_none S.toScene hcode
      have hvalue : evalElements S.toScene (some e :: es) = (fun n p => do
          let v ← evalExpression S.toScene e n
          evalElements S.toScene es (n + e.functions.length) { p with pending := p.pending ++ [v] }) := by
        funext n p
        simp only [evalElements, hev]
      rw [elements, hcode, hvalue]
      exact .value he hes

theorem members_does (ms : List ObjectMember) {V σ : Type} (S : Setting V σ) :
    MembersDoes S (Behaves S.firstId) (objectMembers ms) (evalMembers S.toScene ms)
      (membersFunctions ms) := by
  cases ms with
  | nil => exact .nil
  | cons m ms => exact .cons (fun _ => memberName_text) (member_does m S) (members_does ms S)

theorem member_does (m : ObjectMember) {V σ : Type} (S : Setting V σ) :
    ExprDoes S (Behaves S.firstId) (objectMember m) (evalMember S.toScene m) m.functions := by
  cases m with
  | property key e kind method computed loc => exact expression_does e S
  | spread loc => exact failing_does _ _ _

theorem place_does (t : AssignmentTarget) {V σ : Type} (S : Setting V σ) :
    PlaceDoes S (Behaves S.firstId) (place t) (evalAssigned S.toScene t) t.functions := by
  cases t with
  | identifier id => exact identifierPlace_does id.name
  | member o p computed =>
    exact memberPlace_does
      (memberTarget_does (expression_does o S) (expression_does p S) fun _ => memberKey_text)
  | pattern loc => exact fun _ _ _ => .throw

theorem function_does (f : Tree.Function) {V σ : Type} (S : Setting V σ) :
    ExprDoes S (Behaves S.firstId) (function f) (fun n => S.closure n .function) f.functions := by
  obtain ⟨id, params, body, generator, isAsync, loc⟩ := f
  exact function_makes .function (.block body) rfl rfl fun S' =>
    statementBody_does (items_does body S' fun h => h).list

theorem arrowBody_does (body : ArrowBody) {V σ : Type} (S : Setting V σ) :
    BodyDoes S (Behaves S.firstId) (∀ node ∈ body.nodes, node.parserShaped = true)
      (arrowBody body) (fun fuel n => execBody S.toScene fuel body n) body.functions := by
  cases body with
  | block body => exact statementBody_does (items_does body S fun h => h).list
  | expression e => exact expressionBody_does (expression_does e S)

theorem pattern_does (p : Pattern) {V σ : Type} (S : Setting V σ) :
    BindDoes S (Behaves S.firstId) (pattern p) p.boundNames (bindPattern S.toScene p)
      p.functions := by
  cases p with
  | identifier id => exact bindName_does id.name
  | array ps => exact fun ctx b n value constant =>
      bindElements_does (patternElements_does ps S) ctx b n value constant 0
  | object ms => exact bindMembers_does (patternMembers_does ms S)
  | withDefault p e => exact bindDefault_does (expression_does e S) (pattern_does p S)
  | rest p loc => exact bindFailing_does _ _ _ _ _
  | member loc => exact bindFailing_does _ _ _ _ _

theorem patternElements_does (ps : List (Option Pattern)) {V σ : Type} (S : Setting V σ) :
    ElementBindsDoes S (Behaves S.firstId) (patternElements ps) (elementNames ps)
      (bindElements S.toScene ps) (patternElementsFunctions ps) := by
  match ps with
  | [] => exact .nil
  | none :: ps => exact .hole (patternElements_does ps S)
  | some p :: ps =>
    have hps := patternElements_does ps S
    unfold patternElements elementBind
    split
    · exact .rest
    · exact .item (pattern_does p S) hps

theorem patternMembers_does (ms : List PatternMember) {V σ : Type} (S : Setting V σ) :
    MemberBindsDoes S (Behaves S.firstId) (patternMembers ms) (memberNames ms)
      (bindMembers S.toScene ms) (patternMembersFunctions ms) := by
  match ms with
  | [] => exact .nil
  | .property key p computed loc :: ms =>
    exact .cons (fun _ => patternKey_text) (pattern_does p S) (patternMembers_does ms S)
  | .rest p loc :: ms => exact .failing

theorem optional_does (o : Option Expression) {V σ : Type} (S : Setting V σ) :
    OptionalDoes S (Behaves S.firstId) (optional o) (o.map (evalExpression S.toScene))
      (optionalFunctions o) := by
  cases o with
  | none => exact .none
  | some e => exact .some (expression_does e S)

theorem binders_does (ds : List Declarator) {V σ : Type} (S : Setting V σ) :
    BindersDoes S (Behaves S.firstId) (binders ds) (ds.flatMap fun d => d.target.boundNames)
      (bindDeclarators S.toScene ds) (declaratorsFunctions ds) := by
  match ds with
  | [] => exact .nil
  | .mk p init :: ds =>
    exact .cons (optional_does init S).initCode (pattern_does p S) (binders_does ds S)

theorem declaration_does (d : Declaration) {V σ : Type} (S : Setting V σ) (ctx : Ctx)
    (b : Code.BlockId) (n : Nat) :
    Does S (Behaves S.firstId) ctx b n (.any Unit V) d.boundNames (declaration d ctx b) id
      (fun _ => .any Unit V) (fun _ => bindDeclarators S.toScene d.declarators n) d.functions := by
  obtain ⟨kind, ds, loc⟩ := d
  exact declarationCode_does _ (binders_does ds S) ctx b n

theorem head_does (init : Option ForInit) {V σ : Type} (S : Setting V σ) :
    HeadDoes S (Behaves S.firstId) (optionalHead init) (headNames init)
      (execHead S.toScene init) (headFunctions init) := by
  match init with
  | none => exact emptyHead_does
  | some (.declaration d) => exact declarationHead_does d (declaration_does d S)
  | some (.expression e) => exact expressionHead_does (expression_does e S)

theorem forTarget_does (t : ForTarget) {V σ : Type} (S : Setting V σ) :
    ElementDoes S (Behaves S.firstId) (forTarget t) (receive S.toScene t) t.functions := by
  match t with
  | .declaration (.mk kind [] loc) =>
    exact declareElement_does (.mk kind [] loc) (binders []) nofun
  | .declaration (.mk kind (.mk p i :: .mk q j :: ds) loc) =>
    exact declareElement_does (.mk kind (.mk p i :: .mk q j :: ds) loc)
      (binders (.mk p i :: .mk q j :: ds)) fun _ hb => by cases hb
  | .declaration (.mk kind [.mk p init] loc) =>
    have hp := pattern_does p S
    refine declareElement_does (.mk kind [.mk p init] loc) (binders [.mk p init]) fun binder hb => ?_
    cases hb
    have hnames : (Declaration.mk kind [.mk p init] loc).boundNames = p.boundNames :=
      append_nil _
    have hfunctions : (ForTarget.declaration (.mk kind [.mk p init] loc)).functions = p.functions :=
      append_nil _
    rw [hnames, hfunctions]
    exact hp
  | .target t => exact assignElement_does (place_does t S)

theorem statement_does (s : Statement) {V σ : Type} (S : Setting V σ) {strict : Prop}
    (h : strict → AllNodes (·.parserShaped = true) s.nodes) :
    StmtDoes S (Behaves S.firstId) strict s.declaredNames (statement s)
      (fun fuel n => execStatement S.toScene fuel s n) s.functions := by
  cases s with
  | declaration d => exact StmtDoes.of_does _ (declaration_does d S)
  | function f => exact nofun
  | expression e => exact expressionCode_does (expression_does e S)
  | block body => exact blockCode_does (items_does body S h).list
  | returns e => exact returnCode_does (optional_does e S).initCode
  | breaks label loc => exact breakCode_does label loc
  | continues label loc => exact continueCode_does label loc
  | bare kind loc => exact bareCode_does kind loc
  | ifElse t a b =>
    have ha := body_does (fun hs => (h hs).right.left) (statement_does a S)
    cases b with
    | none =>
      have hif := ifThen_does (expression_does t S) ha
      rw [← append_nil a.functions] at hif
      exact hif
    | some b =>
      exact ifElse_does (expression_does t S) ha
        (body_does (fun hs => (h hs).right.right) (statement_does b S))
  | whileLoop t body =>
    exact whileCode_does (expression_does t S) (body_does (fun hs => (h hs).right) (statement_does body S))
  | doWhile t body =>
    exact doWhileCode_does (expression_does t S)
      (body_does (fun hs => (h hs).right) (statement_does body S))
  | forLoop init test update body =>
    have hloop := forCode_does (head_does init S) (optional_does test S)
      (body_does (fun hs => (h hs).right.right.right) (statement_does body S))
      (optional_does update S)
    rw [testOf_eq, updateOf_eq] at hloop
    exact hloop
  | forIn t e body isAwait loc =>
    have hloop := forEachCode_does isAwait loc keysProtocol_walks (expression_does e S)
      (forTarget_does t S) (body_does (fun hs => (h hs).right.right) (statement_does body S))
    simp only [Walk.loop, keysWalk_round] at hloop
    exact hloop
  | forOf t e body isAwait loc =>
    have hloop := forEachCode_does isAwait loc itemsProtocol_walks (expression_does e S)
      (forTarget_does t S) (body_does (fun hs => (h hs).right.right) (statement_does body S))
    simp only [Walk.loop, itemsWalk_round] at hloop
    exact hloop

theorem items_does (ss : List Statement) {V σ : Type} (S : Setting V σ) {strict : Prop}
    (h : strict → AllNodes (·.parserShaped = true) (statementsNodes ss)) :
    ItemsDo S (Behaves S.firstId) strict (items ss) (execHoisted S.toScene ss)
      (fun fuel n => execInPlace S.toScene fuel ss n) (hoistedFunctions ss) (inPlaceFunctions ss) := by
  match ss with
  | [] => exact .nil
  | s :: ss =>
    have hss := items_does ss S fun hs => (h hs).right
    cases s with
    | declaration d => exact .declaration d (StmtDoes.of_does _ (declaration_does d S)) hss
    | function f => exact .function f (function_does f S) hss
    | _ => exact .statement (statement_does _ S fun hs => (h hs).left) hss

end

end ScriptIr.Run
