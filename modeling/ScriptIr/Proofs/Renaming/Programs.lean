import ScriptIr.Compile
import ScriptIr.Proofs.Lower.Trees
import ScriptIr.Proofs.Renaming.Statements

/-!
# Trees under a renaming

What a node of the renamed tree stands for is the image of what the node stands for, if the renaming
leaves the names alone that the node does not find declared, and the names that functions carry.

* `expression_alike`, `statement_alike`, ...: nodes, by recursion on the tree.
* `program_steady`: programs.
-/
namespace ScriptIr

open ScriptIr.Tree List Lower.Calculus

variable {names : List String} {positions : Positions} {e : Expression} {error : Error}

/-! ## Undeclared names -/

def Tree.Env.Known (env : Env) : String → Prop := fun name => env name ≠ none

/-- Where the part stands, the renaming leaves alone the names it uses that mean nothing. -/
def Tree.Walk.Clear (r : String → String) (w : Walk) (env : Env) (n : Nat) : Prop :=
  ∀ ref ∈ (w env n).1, ref.origin = none → r ref.name = ref.name

theorem Tree.Env.known_declare {env : Env} {n : Nat} (name : String)
    (h : (env.declare names n positions).Known name) : Lower.adding env.Known names name := by
  unfold Env.Known Env.declare at h
  split at h
  next hmem => exact .inr hmem
  · exact .inl h

namespace Tree.Walk.Clear

variable {r : String → String} {v w : Walk} {env : Env} {n : Nat}

theorem use {name : String} (h : (Walk.use name).Clear r env n) (hname : ¬ env.Known name) :
    r name = name :=
  h ⟨name, env name⟩ (mem_singleton.2 rfl) (not_not.1 hname)

theorem left (h : (v ++ w).Clear r env n) : v.Clear r env n := fun ref hmem =>
  h ref (mem_append_left _ hmem)

theorem right (h : (v ++ w).Clear r env n) : w.Clear r env (v env n).2 := fun ref hmem =>
  h ref (mem_append_right _ hmem)

theorem declared (h : (Walk.declaring names w positions).Clear r env n) :
    w.Clear r (env.declare names n positions) (n + 1) := h

theorem roundsTest (h : (Walk.rounds names v w).Clear r env n) : ∃ m, v.Clear r env m := by
  unfold Walk.Clear Walk.rounds at h
  split at h
  · exact ⟨n, left h⟩
  · exact ⟨n + 1, fun ref hmem => h ref (mem_append_left _ hmem)⟩

/-- The body of a loop stands where the names of the loop are known, once or twice. -/
theorem roundsBody (h : (Walk.rounds names v w).Clear r env n) :
    ∃ env' m, w.Clear r env' m ∧ ∀ name, env'.Known name → Lower.adding env.Known names name := by
  unfold Walk.Clear Walk.rounds at h
  split at h
  · exact ⟨env, _, right h, fun _ hn => .inl hn⟩
  · exact ⟨env.declare names n, _, fun ref hmem => h ref (mem_append_right _ hmem), Env.known_declare⟩

end Tree.Walk.Clear

namespace Lower

variable {r : Equiv.Perm String} {seen seen' : String → Prop}

theorem propertyName_nameless (h : propertyName e = .error error) : error.rename r = error := by
  unfold propertyName at h
  split at h
  · cases h
  · split at h
    · cases h
    · split at h <;> cases h
      rfl
    · cases h; rfl
  · cases h; rfl

theorem memberName_nameless {m : ObjectMember} (h : memberName m = .error error) :
    error.rename r = error := by
  unfold memberName at h
  split at h
  · cases h; rfl
  · split at h
    · cases h; rfl
    · split at h
      · cases h; rfl
      · split at h
        · cases h; rfl
        · exact propertyName_nameless h

theorem patternKey_nameless {key : Expression} {computed : Bool} {loc : Option Location}
    (h : patternKey key computed loc = .error error) : error.rename r = error := by
  unfold patternKey at h
  split at h
  · cases h; rfl
  · exact propertyName_nameless h

theorem memberName_rename (m : ObjectMember) : memberName (m.rename r) = memberName m := by
  cases m with
  | property key e kind method computed loc =>
    cases computed with
    | true => simp [ObjectMember.rename, memberName]
    | false => simp [ObjectMember.rename, memberName]
  | spread loc => simp [ObjectMember.rename, memberName]

theorem patternKey_rename (key : Expression) (computed : Bool) (loc : Option Location) :
    patternKey (if computed then key.rename r else key) computed loc = patternKey key computed loc := by
  cases computed <;> simp [patternKey]

theorem ItemAlike.mono {item item' : Item} (h : ItemAlike r seen item item')
    (hsub : ∀ name, seen name → seen' name) : ItemAlike r seen' item item' := by
  cases h with
  | declaration d h => exact .declaration d (h.mono hsub)
  | function f h => exact .function f (h.mono hsub)
  | statement h => exact .statement (h.mono hsub)

theorem alike_expressionPlace {f : (renames r seen).Site → List Empty} {t t' : Option TargetCode}
    (ht : (renames r seen).Perhaps (renames r seen).Code f t t')
    (hid : ∀ id, e = .identifier id → ¬ seen id.name → r id.name = id.name) :
    AlikeSeeing r seen (expressionPlace e t) (expressionPlace (e.rename r) t') := by
  cases e with
  | identifier id => exact alike_identifierPlace (hid id rfl)
  | _ =>
    cases ht with
    | none => exact fun _ _ => steady_throw rfl
    | some ht => exact code_memberPlace ht

theorem alike_deleteCode {f : (renames r seen).Site → List Empty} {t t' : Option TargetCode}
    (ht : (renames r seen).Perhaps (renames r seen).Code f t t') :
    AlikeSeeing r seen (deleteCode e t) (deleteCode (e.rename r) t') := by
  cases ht with
  | none =>
    unfold deleteCode
    rw [Expression.loc_rename]
    exact .failing fun _ => rfl
  | some h => exact code_deleteCode h

theorem alike_calleeCode {f : (renames r seen).Site → List Empty} {t t' : Option TargetCode} {c c' : ExprCode}
    (ht : (renames r seen).Perhaps (renames r seen).Code f t t') (hc : AlikeSeeing r seen c c') :
    AlikeSeeing r seen (calleeCode t c) (calleeCode t' c') := by
  cases ht with
  | none => exact code_calleeCode_none hc
  | some h => exact code_calleeCode_some h

theorem superLoc?_rename (e : Expression) : superLoc? (e.rename r) = superLoc? e := by
  cases e <;> simp only [Expression.rename, superLoc?]

theorem memberKey_nameless (h : memberKey e = .error error) : error.rename r = error := by
  unfold memberKey at h
  split at h <;> cases h <;> rfl

/-- A member and its image. The property is renamed only if it is written in brackets. -/
theorem alike_memberTarget {o p p' : Expression} {computed : Bool} {oc oc' pc pc' : ExprCode}
    (ho : AlikeSeeing r seen oc oc') (hp : computed = true → AlikeSeeing r seen pc pc')
    (hkey : computed = false → p' = p) :
    AlikeSeeing r seen (memberTarget o p computed oc pc) (memberTarget (o.rename r) p' computed oc' pc') :=
  code_memberTarget (superLoc?_rename o) (fun _ _ _ => rfl) ho
    (code_keyCode (fun h => by rw [hkey h]) (fun _ _ _ _ => rfl)
      (fun _ _ h _ => (memberKey_nameless h).symm) hp)

theorem alike_argumentCode {c c' : ExprCode} (h : AlikeSeeing r seen c c') :
    AlikeSeeing r seen (argumentCode e c) (argumentCode (e.rename r) c') := by
  cases e with
  | spread e loc => exact .failing fun _ => rfl
  | _ => exact h

theorem listed_cons {holds : ((renames r seen).Site → List Empty) → α → α → Prop} {a a' : α} {as as' : List α}
    (first : holds (fun _ => []) a a') (rest : (renames r seen).Listed holds (fun _ => []) as as') :
    (renames r seen).Listed holds (fun _ => []) (a :: as) (a' :: as') := .cons first rest

theorem element_alike {f : (renames r seen).Site → List Empty} {t t' : Option ExprCode} {c c' : ExprCode}
    (ht : (renames r seen).Perhaps (renames r seen).Code f t t') (hc : AlikeSeeing r seen c c') :
    (renames r seen).ElementHolds (fun _ => []) (t.elim (.value c) .spread) (t'.elim (.value c') .spread) := by
  cases ht with
  | none => exact .value hc
  | some h => exact .spread h

theorem bindElement_alike {p : Pattern} {b b' : BindCode} (h : BindAlike r seen b b') :
    (renames r seen).ElementBindHolds (fun _ => []) (elementBind p b) (elementBind (p.rename r) b') := by
  cases p with
  | rest p loc => exact .rest _ loc
  | _ => exact .item h

/-- The renaming touches neither these names of functions nor that of the list of all arguments, which
functions declare. -/
structure Fixes (r : String → String) (names : List String) : Prop where
  arguments : r "arguments" = "arguments"
  functions : ∀ name ∈ names, r name = name

section Fixes

variable {r : String → String} {ms ns : List String}

theorem Fixes.left (h : Fixes r (ms ++ ns)) : Fixes r ms :=
  ⟨h.arguments, fun name hn => h.functions name (mem_append_left _ hn)⟩

theorem Fixes.right (h : Fixes r (ms ++ ns)) : Fixes r ns :=
  ⟨h.arguments, fun name hn => h.functions name (mem_append_right _ hn)⟩

end Fixes

/-! ## Nodes -/

mutual

theorem expression_alike {env : Env} {n : Nat} (e : Expression) (hw : e.walk.Clear r env n)
    (hf : Fixes r e.functionNames) :
    AlikeSeeing r env.Known (expression e) (expression (e.rename r)) := by
  cases e with
  | identifier id => exact alike_readIdentifier hw.use
  | literal l => exact code_literalCode (lax_renames r _) l
  | this loc => exact code_instCode rfl
  | bare kind loc => exact .failing fun _ => rfl
  | array es => exact code_arrayCode (elements_alike es hw hf)
  | object ms loc => exact code_objectCode (objectMembers_alike ms hw hf)
  | function f => exact function_alike f hw hf
  | arrow params body isAsync loc =>
    refine alike_closureCode hf.arguments
      { kind := .arrow, name := "<arrow>", params, generator := false, isAsync, loc }
      (arrowBody_alike body hw.declared hf fun name hn => ?_)
    have := Env.known_declare name hn
    simp only [adding, mem_append] at this ⊢
    tauto
  | unary op e =>
    exact code_unaryCode (fun _ => alike_deleteCode (target?_alike e hw hf))
      fun _ => expression_alike e hw hf
  | update op prefixed e =>
    refine code_updateCode op prefixed (alike_expressionPlace (target?_alike e hw hf) fun id hid => ?_)
    subst hid
    exact hw.use
  | spread e loc => exact .failing fun _ => rfl
  | binary op a b =>
    exact code_binaryCode op (expression_alike a hw.left hf.left) (expression_alike b hw.right hf.right)
  | logical op a b =>
    exact code_logicalCode op (expression_alike a hw.left hf.left) (expression_alike b hw.right hf.right)
  | assignment op t e =>
    simp only [Expression.rename, expression, Expression.loc_rename]
    exact code_assignmentCode (fun _ _ _ => rfl) (place_alike t hw.left hf.left)
      (expression_alike e hw.right hf.right)
  | conditional t a b =>
    exact code_conditionalCode (expression_alike t hw.left hf.left)
      (expression_alike a hw.right.left hf.right.left)
      (expression_alike b hw.right.right hf.right.right)
  | call e args =>
    exact code_callCode (alike_calleeCode (target?_alike e hw.left hf.left)
      (expression_alike e hw.left hf.left)) (arguments_alike args hw.right hf.right)
  | construct e args =>
    exact code_constructCode (expression_alike e hw.left hf.left) (arguments_alike args hw.right hf.right)
  | member o p computed loc =>
    exact code_memberCode (alike_memberTarget (expression_alike o hw.left hf.left) (fun hc => by
        subst hc
        exact expression_alike p hw.right hf.right)
      fun hc => by rw [hc]; rfl)
  | sequence es => exact code_sequenceCode (expressions_alike es hw hf) fun _ => rfl
  | template texts es loc =>
    exact code_templateCode (lax_renames r _) texts loc (expressions_alike es hw hf)

theorem target?_alike {env : Env} {n : Nat} (e : Expression) (hw : e.walk.Clear r env n)
    (hf : Fixes r e.functionNames) :
    OptionAlike r env.Known (target? e) (target? (e.rename r)) := by
  cases e with
  | member o p computed loc =>
    exact .some <| alike_memberTarget (expression_alike o hw.left hf.left) (fun hc => by
        subst hc
        exact expression_alike p hw.right hf.right)
      fun hc => by rw [hc]; rfl
  | _ => exact .none

theorem spread?_alike {env : Env} {n : Nat} (e : Expression) (hw : e.walk.Clear r env n)
    (hf : Fixes r e.functionNames) :
    OptionAlike r env.Known (spread? e) (spread? (e.rename r)) := by
  cases e with
  | spread e loc => exact .some (expression_alike e hw hf)
  | _ => exact .none

theorem optional_alike {env : Env} {n : Nat} (o : Option Expression)
    (hw : (optionalWalk o).Clear r env n) (hf : Fixes r (optionalFunctionNames o)) :
    OptionAlike r env.Known (optional o) (optional (renameOptional r o)) := by
  cases o with
  | none => exact .none
  | some e => exact .some (expression_alike e hw hf)

theorem expressions_alike {env : Env} {n : Nat} (es : List Expression)
    (hw : (expressionsWalk es).Clear r env n) (hf : Fixes r (expressionsFunctionNames es)) :
    (renames r env.Known).Codes (fun _ => []) (expressions es) (expressions (renameExpressions r es)) := by
  cases es with
  | nil => exact .nil
  | cons e es =>
    exact .cons (expression_alike e hw.left hf.left) (expressions_alike es hw.right hf.right)

theorem arguments_alike {env : Env} {n : Nat} (es : List Expression)
    (hw : (expressionsWalk es).Clear r env n) (hf : Fixes r (expressionsFunctionNames es)) :
    (renames r env.Known).Codes (fun _ => []) (arguments es) (arguments (renameExpressions r es)) := by
  cases es with
  | nil => exact .nil
  | cons e es =>
    exact .cons (alike_argumentCode (expression_alike e hw.left hf.left))
      (arguments_alike es hw.right hf.right)

theorem elements_alike {env : Env} {n : Nat} (es : List (Option Expression))
    (hw : (elementsWalk es).Clear r env n) (hf : Fixes r (elementsFunctionNames es)) :
    (renames r env.Known).Listed (renames r env.Known).ElementHolds (fun _ => []) (elements es)
      (elements (renameElements r es)) := by
  match es with
  | [] => exact .nil
  | none :: es => exact .cons .hole (elements_alike es hw hf)
  | some e :: es =>
    refine listed_cons ?_ (elements_alike es hw.right hf.right)
    have := element_alike (spread?_alike e hw.left hf.left) (expression_alike e hw.left hf.left)
    generalize spread? e = o, spread? (e.rename r) = o' at this ⊢
    cases o <;> cases o' <;> exact this

theorem objectMembers_alike {env : Env} {n : Nat} (ms : List ObjectMember)
    (hw : (membersWalk ms).Clear r env n) (hf : Fixes r (membersFunctionNames ms)) :
    (renames r env.Known).Listed ((renames r env.Known).Keyed (renames r env.Known).Code) (fun _ => [])
      (objectMembers ms) (objectMembers (renameMembers r ms)) := by
  cases ms with
  | nil => exact .nil
  | cons m ms =>
    exact listed_cons ⟨memberName_rename m, fun _ h _ => (memberName_nameless h).symm,
      fun _ _ => objectMember_alike m hw.left hf.left⟩ (objectMembers_alike ms hw.right hf.right)

theorem objectMember_alike {env : Env} {n : Nat} (m : ObjectMember) (hw : m.walk.Clear r env n)
    (hf : Fixes r m.functionNames) :
    AlikeSeeing r env.Known (objectMember m) (objectMember (m.rename r)) := by
  cases m with
  | property key e kind method computed loc => exact expression_alike e hw hf
  | spread loc => exact .failing fun _ => rfl

theorem place_alike {env : Env} {n : Nat} (t : AssignmentTarget) (hw : t.walk.Clear r env n)
    (hf : Fixes r t.functionNames) :
    AlikeSeeing r env.Known (place t) (place (t.rename r)) := by
  cases t with
  | identifier id => exact alike_identifierPlace hw.use
  | member o p computed =>
    exact code_memberPlace (alike_memberTarget (expression_alike o hw.left hf.left) (fun hc => by
        subst hc
        exact expression_alike p hw.right hf.right)
      fun hc => by rw [hc]; rfl)
  | pattern loc => exact fun _ _ => steady_unsupported _ _

theorem function_alike {env : Env} {n : Nat} (f : Function) (hw : f.walk.Clear r env n)
    (hf : Fixes r f.functionNames) :
    AlikeSeeing r env.Known (function f) (function (f.rename r)) := by
  obtain ⟨id, params, body, generator, isAsync, loc⟩ := f
  have hname : ((id.map (·.rename r)).map (·.name)).getD "<anonymous>"
      = (id.map (·.name)).getD "<anonymous>" := by
    cases id with
    | none => rfl
    | some id => exact hf.left.functions id.name (mem_singleton.2 rfl)
  simp only [Function.rename, function, hname]
  have hitems := items_alike body hw.declared.left hw.declared.right hf.right
  refine alike_closureCode hf.arguments
    { kind := .function, name := (id.map (·.name)).getD "<anonymous>", params, generator, isAsync, loc }
    (code_statementBody (alike_listCode (hitems.imp fun item item' h => h.mono fun name hn => ?_)))
  have := Env.known_declare name hn
  simp only [adding, declared_items, Header.implicitNames, if_true, mem_append, mem_cons,
    not_mem_nil, or_false] at this ⊢
  tauto

theorem arrowBody_alike {env : Env} {n : Nat} {seen : String → Prop} (body : ArrowBody)
    (hw : body.walk.Clear r env n) (hf : Fixes r body.functionNames)
    (hseen : ∀ name, env.Known name → adding seen body.declaredNames name) :
    AlikeSeeing r seen (arrowBody body) (arrowBody (body.rename r)) := by
  cases body with
  | block body =>
    have hitems := items_alike body hw.left hw.right hf
    refine code_statementBody (alike_listCode (hitems.imp fun item item' h => h.mono fun name hn => ?_))
    rw [declared_items]
    exact hseen name hn
  | expression e =>
    refine code_expressionBody ((expression_alike e hw hf).mono fun name hn => ?_)
    exact (hseen name hn).resolve_right not_mem_nil

theorem pattern_alike {env : Env} {n : Nat} (p : Pattern) (hw : p.walk.Clear r env n)
    (hf : Fixes r p.functionNames) :
    BindAlike r env.Known (pattern p) (pattern (p.rename r)) := by
  cases p with
  | identifier id => exact bindAlike_name id.name
  | array ps => exact bind_bindArray (lax_renames r _) (patternElements_alike ps hw hf)
  | object ms => exact bind_bindObject (patternMembers_alike ms hw hf)
  | withDefault p e =>
    exact bind_bindDefault (expression_alike e hw.left hf.left) (pattern_alike p hw.right hf.right)
  | rest p loc => exact bindAlike_failing _ loc
  | member loc => exact bindAlike_failing _ loc

theorem patternElements_alike {env : Env} {n : Nat} (ps : List (Option Pattern))
    (hw : (patternElementsWalk ps).Clear r env n)
    (hf : Fixes r (patternElementsFunctionNames ps)) :
    (renames r env.Known).Listed (renames r env.Known).ElementBindHolds (fun _ => []) (patternElements ps)
      (patternElements (renamePatternElements r ps)) := by
  match ps with
  | [] => exact .nil
  | none :: ps => exact .cons .hole (patternElements_alike ps hw hf)
  | some p :: ps =>
    exact .cons (bindElement_alike (pattern_alike p hw.left hf.left))
      (patternElements_alike ps hw.right hf.right)

theorem patternMembers_alike {env : Env} {n : Nat} (ms : List PatternMember)
    (hw : (patternMembersWalk ms).Clear r env n)
    (hf : Fixes r (patternMembersFunctionNames ms)) :
    (renames r env.Known).Listed ((renames r env.Known).Keyed (renames r env.Known).Bind) (fun _ => [])
      (patternMembers ms) (patternMembers (renamePatternMembers r ms)) := by
  match ms with
  | [] => exact .nil
  | .property key p computed loc :: ms =>
    exact listed_cons ⟨patternKey_rename key computed loc, fun _ h _ => (patternKey_nameless h).symm,
      fun _ _ => pattern_alike p hw.left hf.left⟩ (patternMembers_alike ms hw.right hf.right)
  | .rest p loc :: ms =>
    exact listed_cons ⟨rfl, fun _ h => by cases h; exact fun _ => rfl, fun _ _ => bindAlike_failing _ loc⟩
      (patternMembers_alike ms hw hf)

theorem binders_alike {env : Env} {n : Nat} (ds : List Declarator)
    (hw : (declaratorsWalk ds).Clear r env n)
    (hf : Fixes r (declaratorsFunctionNames ds)) :
    (renames r env.Known).Binders (fun _ => []) (binders ds) (binders (renameDeclarators r ds)) := by
  match ds with
  | [] => exact .nil
  | .mk p init :: ds =>
    exact .cons (optional_alike init hw.left.left hf.left) (pattern_alike p hw.left.right hf.right.left)
      (binders_alike ds hw.right hf.right.right)

theorem targets_alike {env : Env} {n : Nat} (ds : List Declarator) (hw : (targetsWalk ds).Clear r env n)
    (hf : Fixes r (declaratorsFunctionNames ds)) :
    Forall₂ (fun b b' : Binder => BindAlike r env.Known b.bind b'.bind) (binders ds)
      (binders (renameDeclarators r ds)) := by
  match ds with
  | [] => exact .nil
  | .mk p init :: ds =>
    exact .cons (pattern_alike p hw.left hf.right.left) (targets_alike ds hw.right hf.right.right)

theorem declaration_alike {env : Env} {n : Nat} (d : Declaration) (hw : d.walk.Clear r env n)
    (hf : Fixes r d.functionNames) :
    AlikeSeeing r env.Known (declaration d) (declaration (d.rename r)) := by
  obtain ⟨kind, ds, loc⟩ := d
  exact alike_declarationCode (.mk kind ds loc) (binders_alike ds hw hf)

theorem head_alike {env : Env} {n : Nat} {seen : String → Prop} (init : Option ForInit)
    (hw : (headWalk init).Clear r env n) (hf : Fixes r (headFunctionNames init))
    (hseen : ∀ name, env.Known name → adding seen (headNames init) name) :
    HeadAlike r seen (headNames init) (optionalHead init) (optionalHead (renameHead r init)) := by
  match init with
  | none => exact headAlike_empty
  | some (.declaration d) => exact headAlike_declaration d ((declaration_alike d hw hf).mono hseen)
  | some (.expression e) =>
    exact headAlike_expression ((expression_alike e hw hf).mono fun name hn =>
      (hseen name hn).resolve_right not_mem_nil)

theorem forTarget_alike {env : Env} {n : Nat} {seen : String → Prop} (t : ForTarget)
    (hw : t.walk.Clear r env n) (hf : Fixes r t.functionNames)
    (hseen : ∀ name, env.Known name → adding seen t.declaredNames name) :
    TargetAlike r seen t.declaredNames (forTarget t) (forTarget (t.rename r)) := by
  match t with
  | .declaration (.mk kind ds loc) =>
    exact targetAlike_declare (.mk kind ds loc) ((targets_alike ds hw hf).imp fun _ _ h => h.mono hseen)
  | .target t =>
    exact targetAlike_assign ((place_alike t hw hf).mono fun name hn =>
      (hseen name hn).resolve_right not_mem_nil)

theorem statement_alike {env : Env} {n : Nat} (s : Statement) (hw : s.walk.Clear r env n)
    (hf : Fixes r s.functionNames) :
    AlikeSeeing r env.Known (statement s) (statement (s.rename r)) := by
  cases s with
  | declaration d => exact declaration_alike d hw hf
  | function f =>
    simp only [Statement.rename, statement, Function.loc_rename]
    exact fun _ _ => steady_unsupported _ _
  | expression e => exact code_expressionCode (expression_alike e hw hf)
  | block body =>
    have hitems := items_alike body hw.declared.left hw.declared.right hf
    refine alike_blockCode (hitems.imp fun item item' h => h.mono fun name hn => ?_)
    rw [declared_items]
    exact Env.known_declare name hn
  | returns e => exact alike_returnCode (optional_alike e hw hf)
  | breaks label loc =>
    exact alike_jumpCode label loc _ rfl fun a k => Scope.Arena.findBreak_rename r a k
  | continues label loc =>
    exact alike_jumpCode label loc _ rfl fun a k => Scope.Arena.findContinue_rename r a k
  | ifElse t a b =>
    exact code_ifCode (expression_alike t hw.left hf.left) (statement_alike a hw.right.left hf.right.left)
      (optionalStatement_alike b hw.right.right hf.right.right)
  | whileLoop t body =>
    have hsub (name : String) (hn : (env.declare [] n).Known name) : env.Known name :=
      (Env.known_declare name hn).resolve_right not_mem_nil
    exact alike_whileCode ((expression_alike t hw.declared.left hf.left).mono hsub)
      ((statement_alike body hw.declared.right hf.right).mono hsub)
  | doWhile t body =>
    have hsub (name : String) (hn : (env.declare [] n).Known name) : env.Known name :=
      (Env.known_declare name hn).resolve_right not_mem_nil
    exact alike_doWhileCode ((expression_alike t hw.declared.right hf.left).mono hsub)
      ((statement_alike body hw.declared.left hf.right).mono hsub)
  | forLoop init test update body =>
    have hw := hw.declared
    obtain ⟨m, htest⟩ := hw.right.left.roundsTest
    obtain ⟨env', m', hbody, hknown⟩ := hw.right.left.roundsBody
    have hsub (name : String) (hn : (env.declare (headNames init) n).Known name) :
        adding env.Known (headNames init) name := Env.known_declare name hn
    exact alike_forCode (head_alike init hw.left hf.left hsub)
      (OptionAlike.mono (optional_alike test htest hf.right.left) hsub)
      (OptionAlike.mono (optional_alike update hw.right.right hf.right.right.left) hsub)
      ((statement_alike body hbody hf.right.right.right).mono fun name hn =>
        (hknown name hn).elim (hsub name) .inr)
  | forIn t e body isAwait loc =>
    exact alike_forEachCode .keysProtocol isAwait loc (expression_alike e hw.left hf.right.left)
      (forTarget_alike t hw.right.declared.left hf.left Env.known_declare)
      ((statement_alike body hw.right.declared.right hf.right.right).mono Env.known_declare)
  | forOf t e body isAwait loc =>
    exact alike_forEachCode .itemsProtocol isAwait loc (expression_alike e hw.left hf.right.left)
      (forTarget_alike t hw.right.declared.left hf.left Env.known_declare)
      ((statement_alike body hw.right.declared.right hf.right.right).mono Env.known_declare)
  | bare kind loc => exact code_bareCode (fun _ _ _ => rfl) fun _ _ => rfl

theorem optionalStatement_alike {env : Env} {n : Nat} (o : Option Statement)
    (hw : (optionalStatementWalk o).Clear r env n)
    (hf : Fixes r (optionalStatementFunctionNames o)) :
    OptionAlike r env.Known (optionalStatement o) (optionalStatement (renameOptionalStatement r o)) := by
  cases o with
  | none => exact .none
  | some s => exact .some (statement_alike s hw hf)

theorem items_alike {env : Env} {n m : Nat} (ss : List Statement)
    (hh : (hoistedWalk ss).Clear r env n) (hp : (inPlaceWalk ss).Clear r env m)
    (hf : Fixes r (statementsFunctionNames ss)) :
    Forall₂ (ItemAlike r env.Known) (items ss) (items (renameStatements r ss)) := by
  cases ss with
  | nil => exact .nil
  | cons s ss =>
    refine .cons ?_ (items_alike ss hh.right hp.right hf.right)
    have hstatement := statement_alike s hp.left hf.left
    cases s with
    | declaration d => exact .declaration d hstatement
    | function f => exact .function f (function_alike f hh.left hf.left)
    | _ => exact .statement hstatement

end

theorem program_steady (p : Program) (hfree : ∀ name ∈ p.freeNames, r name = name)
    (hf : Fixes r p.functionNames) :
    Commutes r (fun _ => True) id (program p) (program (p.rename r)) fun _ _ => True := by
  have hw : p.walk.Clear r (fun _ => none) 0 := by
    intro ref hmem horigin
    exact hfree ref.name (mem_map.2 ⟨ref, mem_filter.2 ⟨hmem, by rw [horigin]; rfl⟩, rfl⟩)
  have hitems := items_alike p.body hw.declared.left hw.declared.right hf
  have hbody : AlikeSeeing r (fun _ => False) (statementBody (listCode (items p.body)))
      (statementBody (listCode (items (renameStatements r p.body)))) := by
    refine code_statementBody (alike_listCode (hitems.imp fun item item' h => h.mono fun name hn => ?_))
    rw [declared_items]
    exact (Env.known_declare name hn).imp (fun h => h rfl) id
  let L : Lasting := ⟨fun _ => True, fun _ _ => trivial⟩
  refine Commutes.bind (Q := fun _ => L.holds) (steady_newFunction ..) fun func => ?_
  refine Commutes.bind (commutes_newScope none .function (fun _ => False) fun _ _ _ h => h.elim)
    fun scope => ?_
  refine Commutes.imp (P := (L.and (.seeing scope fun _ => False)).holds)
    (Q := fun _ => (L.and (.seeing scope fun _ => False)).holds) ?_ (fun _ h => h.1) fun _ _ _ => trivial
  exact (steady_newBlock _).bind fun entry => hbody.steady ⟨func, scope⟩ sights_inner entry

end Lower

end ScriptIr
