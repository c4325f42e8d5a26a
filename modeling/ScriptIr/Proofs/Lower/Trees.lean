import ScriptIr.Lower.Tree
import ScriptIr.Proofs.Lower.Elements

/-!
# Contracts of trees

Every node of a tree meets the contract of its kind, with the references of its walk, if the mode
accepts all nodes inside it. The proof is by induction on the tree; each case puts the contracts of the
parts together.

* `expression_ok`, `pattern_ok`, `statement_ok`: nodes.
* `items_ok`: lists of statements.
-/
namespace ScriptIr.Lower

open ScriptIr.Tree hiding Walk
open ScriptIr.Tree (Walk)

variable {M : Mode} {err : Error} {computed : Bool} {loc : Option Location}

/-- What a mode asks of a node: the fault of an expression is allowed, and a body declares no names
if names may enter a scope only at its start. -/
def Mode.Accepts (M : Mode) : Node → Prop
  | .expression e => ∀ fault, e.fault? = some fault → M.allowed (.internal fault)
  | .body s => M.strict → s.isLexical = false

/-! ## Names of properties -/

theorem propertyName_external (M : Mode) {e : Expression} (h : propertyName e = .error err) :
    M.allowed err := by
  refine M.external err fun fault => ?_
  rintro rfl
  unfold propertyName at h
  split at h
  · cases h
  · split at h
    · cases h
    · split at h <;> cases h
    · cases h
  · cases h

theorem memberName_external (M : Mode) {m : ObjectMember} (h : memberName m = .error err) :
    M.allowed err := by
  unfold memberName at h
  split at h
  · cases h
    exact M.allows
  · split at h
    · cases h
      exact M.allows
    split at h
    · cases h
      exact M.allows
    split at h
    · cases h
      exact M.allows
    · exact propertyName_external M h

theorem patternKey_external (M : Mode) {key : Expression} (h : patternKey key computed loc = .error err) :
    M.allowed err := by
  unfold patternKey at h
  split at h
  · cases h
    exact M.allows
  · exact propertyName_external M h

theorem memberKey_allowed {o p : Expression} (h : M.Accepts (.expression (.member o p false loc)))
    (herr : memberKey p = .error err) : M.allowed err := by
  unfold memberKey at herr
  split at herr
  · cases herr
  · cases herr
    exact M.allows
  · next hid hprivate =>
    cases herr
    refine h _ ?_
    unfold Expression.fault?
    split
    · next heq => cases heq
    · next heq => cases heq; exact absurd rfl (hid _)
    · next heq => cases heq; exact absurd rfl (hprivate _)
    · next heq => cases heq; rfl
    · next hother => exact absurd rfl (hother _ _ _)

/-! ## Parts of nodes -/

section Parts

variable {e o p : Expression}

theorem member_ok (ho : ExprOk M (expression o) o.walk) (hp : ExprOk M (expression p) p.walk)
    (h : M.Accepts (.expression (.member o p computed loc))) :
    TargetOk M (memberTarget o p computed (expression o) (expression p))
      (o.walk ++ if computed then p.walk else .skip) :=
  memberTarget_ok ho (fun _ => hp) fun hc _ herr => memberKey_allowed (hc ▸ h) herr

theorem argument_ok (h : ExprOk M (expression e) e.walk) :
    ExprOk M (argumentCode e (expression e)) e.walk := by
  unfold argumentCode
  split
  · exact failing_ok _ M.allows
  · exact h

theorem expressionPlace_ok (h : ∀ t, target? e = some t → TargetOk M t e.walk) :
    PlaceOk M (expressionPlace e (target? e)) e.walk := by
  unfold expressionPlace
  split
  · exact identifierPlace_ok _
  · next ht => exact memberPlace_ok (h _ ht)
  · exact fun _ _ _ _ _ _ _ => .throw M.allows

theorem initCode_ok {code : Option ExprCode} {w : Walk} (h : OptionalOk M code w) :
    ExprOk M (initCode code) w := by
  cases code with
  | none =>
    rw [show w = .skip from h]
    exact initCode_none_ok
  | some code => exact h

end Parts

/-- A body binds no names: one that could is not lowered where names enter a scope at its start. -/
theorem body_ok {s : Statement} (hs : AllNodes M.Accepts (.body s :: s.nodes))
    (hok : AllNodes M.Accepts s.nodes → StmtOk M (statement s) s.declaredNames s.walk) :
    StmtOk M (statement s) [] s.walk := by
  intro c ctx env b R ht hat _
  have h := hok hs.tail
  by_cases hstrict : M.strict
  · cases s with
    | declaration d =>
      have hkind : d.kind = .functionWide := by simpa [Statement.isLexical] using hs.head hstrict
      obtain ⟨kind, ds, loc⟩ := d
      show Sat M (declarationCode (.mk kind ds loc) (binders ds) ctx b) c _
      unfold declarationCode checkBlockWide
      rw [if_pos hkind]
      exact .unsupported_bind ..
    | function f => exact .unsupported ..
    | _ => exact h c ctx env b R ht hat fun _ => nofun
  · exact h c ctx env b R ht hat fun hs' => absurd hs' hstrict

theorem declared_items (ss : List Statement) : (items ss).flatMap Item.declared = declaredNames ss := by
  induction ss with
  | nil => rfl
  | cons s ss ih =>
    have hof : (Item.of s (statement s) (closure? s)).declared = s.declaredNames := by
      cases s <;> rfl
    show (Item.of s (statement s) (closure? s) :: items ss).flatMap Item.declared = _
    rw [List.flatMap_cons, ih, hof]
    rfl

/-! ## Nodes -/

mutual

theorem expression_ok (e : Expression) (h : AllNodes M.Accepts e.nodes) :
    ExprOk M (expression e) e.walk := by
  cases e with
  | identifier id => exact readIdentifier_ok id.name
  | literal l => exact literalCode_ok l
  | this loc => exact instCode_ok rfl rfl rfl
  | bare kind loc => exact failing_ok _ M.allows
  | array es => exact arrayCode_ok (elements_ok es h.tail)
  | object ms loc => exact objectCode_ok (objectMembers_ok ms h.tail)
  | function f => exact function_ok f h.tail
  | arrow params body isAsync loc => exact closureCode_ok (arrowBody_ok body h.tail.right)
  | unary op e => exact unaryCode_ok (target?_ok e h.tail) (expression_ok e h.tail)
  | update op prefixed e =>
    exact updateCode_ok op prefixed (expressionPlace_ok (target?_ok e h.tail))
  | spread e loc => exact failing_ok _ M.allows
  | binary op l r =>
    exact binaryCode_ok op (expression_ok l h.tail.left) (expression_ok r h.tail.right)
  | logical op l r =>
    exact logicalCode_ok op (expression_ok l h.tail.left) (expression_ok r h.tail.right)
  | assignment op t e =>
    exact assignmentCode_ok op e.loc (place_ok t h.tail.left) (expression_ok e h.tail.right)
  | conditional t a b =>
    exact conditionalCode_ok (expression_ok t h.tail.left) (expression_ok a h.tail.right.left)
      (expression_ok b h.tail.right.right)
  | call e args =>
    exact callCode_ok (target?_ok e h.tail.left) (expression_ok e h.tail.left) (arguments_ok args h.tail.right)
  | construct e args =>
    exact constructCode_ok (expression_ok e h.tail.left) (arguments_ok args h.tail.right)
  | member o p computed loc =>
    exact memberCode_ok (member_ok (expression_ok o h.tail.left) (expression_ok p h.tail.right) h.head)
  | sequence es =>
    refine sequenceCode_ok (expressions_ok es h.tail) fun hnil => h.head _ ?_
    cases es with
    | nil => rfl
    | cons e es => cases hnil
  | template texts es loc => exact templateCode_ok (expressions_ok es h.tail) texts loc

theorem target?_ok (e : Expression) (h : AllNodes M.Accepts e.nodes) (t : TargetCode)
    (ht : target? e = some t) : TargetOk M t e.walk := by
  cases e with
  | member o p computed loc =>
    cases ht
    exact member_ok (expression_ok o h.tail.left) (expression_ok p h.tail.right) h.head
  | _ => cases ht

theorem spread?_ok (e : Expression) (h : AllNodes M.Accepts e.nodes) (code : ExprCode)
    (hc : spread? e = some code) : ExprOk M code e.walk := by
  cases e with
  | spread e loc =>
    cases hc
    exact expression_ok e h.tail
  | _ => cases hc

theorem optional_ok (o : Option Expression) (h : AllNodes M.Accepts (optionalNodes o)) :
    OptionalOk M (optional o) (optionalWalk o) := by
  cases o with
  | none => rfl
  | some e => exact expression_ok e h

theorem expressions_ok (es : List Expression) (h : AllNodes M.Accepts (expressionsNodes es)) :
    ExprsOk M (expressions es) (expressionsWalk es) := by
  cases es with
  | nil => exact .nil
  | cons e es => exact .cons (expression_ok e h.left) (expressions_ok es h.right)

theorem arguments_ok (es : List Expression) (h : AllNodes M.Accepts (expressionsNodes es)) :
    ExprsOk M (arguments es) (expressionsWalk es) := by
  cases es with
  | nil => exact .nil
  | cons e es => exact .cons (argument_ok (expression_ok e h.left)) (arguments_ok es h.right)

theorem elements_ok (es : List (Option Expression)) (h : AllNodes M.Accepts (elementsNodes es)) :
    SegmentsOk M (cut (elements es)) (elementsWalk es) := by
  match es with
  | [] => exact .nil
  | none :: es => exact .addItem (instCode_ok rfl rfl rfl) (elements_ok es h)
  | some e :: es =>
    have hes := elements_ok es h.right
    unfold elements
    split
    · next hspread => exact .spread (spread?_ok e h.left _ hspread) hes
    · exact .addItem (expression_ok e h.left) hes

theorem objectMembers_ok (ms : List ObjectMember) (h : AllNodes M.Accepts (membersNodes ms)) :
    MembersOk M (objectMembers ms) (membersWalk ms) := by
  cases ms with
  | nil => exact .nil
  | cons m ms =>
    exact .cons (fun _ => memberName_external M) (objectMember_ok m h.left) (objectMembers_ok ms h.right)

theorem objectMember_ok (m : ObjectMember) (h : AllNodes M.Accepts m.nodes) :
    ExprOk M (objectMember m) m.walk := by
  cases m with
  | property key e kind method computed loc => exact expression_ok e h.right
  | spread loc => exact failing_ok _ M.allows

theorem place_ok (t : AssignmentTarget) (h : AllNodes M.Accepts t.nodes) : PlaceOk M (place t) t.walk := by
  cases t with
  | identifier id => exact identifierPlace_ok id.name
  | member o p computed =>
    exact memberPlace_ok (member_ok (expression_ok o h.tail.left) (expression_ok p h.tail.right) h.head)
  | pattern loc => exact fun _ _ _ _ _ _ _ => .unsupported ..

theorem function_ok (f : Function) (h : AllNodes M.Accepts f.nodes) : ExprOk M (function f) f.walk := by
  obtain ⟨id, params, body, generator, isAsync, loc⟩ := f
  have hbody := statementBody_ok (listCode_ok (items_ok body h.right))
  rw [declared_items] at hbody
  exact closureCode_ok hbody

theorem arrowBody_ok (body : ArrowBody) (h : AllNodes M.Accepts body.nodes) :
    BodyOk M (arrowBody body) body.declaredNames body.walk := by
  cases body with
  | block body =>
    have hbody := statementBody_ok (listCode_ok (items_ok body h))
    rw [declared_items] at hbody
    exact hbody
  | expression e => exact expressionBody_ok (expression_ok e h)

theorem pattern_ok (p : Pattern) (h : AllNodes M.Accepts p.nodes) :
    BindOk M (pattern p) p.boundNames p.walk := by
  cases p with
  | identifier id => exact bindName_ok id.name
  | array ps => exact bindArray_ok (patternElements_ok ps h)
  | object ms => exact bindObject_ok (patternMembers_ok ms h)
  | withDefault p e => exact bindDefault_ok (pattern_ok p h.left) (expression_ok e h.right)
  | rest p loc => exact bindFailing_ok _ _ _ _
  | member loc => exact bindFailing_ok _ _ _ _

theorem patternElements_ok (ps : List (Option Pattern))
    (h : AllNodes M.Accepts (patternElementsNodes ps)) :
    ElementBindsOk M (patternElements ps) (elementNames ps) (patternElementsWalk ps) := by
  match ps with
  | [] => exact .nil
  | none :: ps => exact .hole (patternElements_ok ps h)
  | some p :: ps =>
    have hps := patternElements_ok ps h.right
    unfold patternElements elementBind
    split
    · exact .rest ..
    · exact .item (pattern_ok p h.left) hps

theorem patternMembers_ok (ms : List PatternMember) (h : AllNodes M.Accepts (patternMembersNodes ms)) :
    MemberBindsOk M (patternMembers ms) (memberNames ms) (patternMembersWalk ms) := by
  match ms with
  | [] => exact .nil
  | .property key p computed loc :: ms =>
    exact .cons (fun _ => patternKey_external M) (pattern_ok p h.left.right) (patternMembers_ok ms h.right)
  | .rest p loc :: ms =>
    exact .cons (fun _ he => by cases he; exact M.allows)
      (bindFailing_ok _ _ _ .skip) (patternMembers_ok ms h.right)

theorem binders_ok (ds : List Declarator) (h : AllNodes M.Accepts (declaratorsNodes ds)) :
    BindersOk M (binders ds) (ds.flatMap fun d => d.target.boundNames) (declaratorsWalk ds) := by
  match ds with
  | [] => exact .nil
  | .mk p init :: ds =>
    refine .cons ?_ (pattern_ok p h.left.left) (binders_ok ds h.right)
    exact initCode_ok (optional_ok init h.left.right)

theorem declaration_ok (d : Declaration) (h : AllNodes M.Accepts d.nodes) :
    StmtOk M (declaration d) d.boundNames d.walk := by
  obtain ⟨kind, ds, loc⟩ := d
  exact declarationCode_ok _ (binders_ok ds h)

theorem forHead_ok (init : ForInit) (h : AllNodes M.Accepts init.nodes) :
    HeadOk M (forHead init) init.declaredNames init.walk := by
  cases init with
  | declaration d => exact declarationHead_ok (declaration_ok d h)
  | expression e => exact expressionHead_ok (expression_ok e h)

theorem optionalHead_ok (init : Option ForInit) (h : AllNodes M.Accepts (headNodes init)) :
    HeadOk M (optionalHead init) (headNames init) (headWalk init) := by
  cases init with
  | none => exact emptyHead_ok
  | some init => exact forHead_ok init h

theorem declaredElement_ok (d : Declaration) (h : AllNodes M.Accepts d.nodes) :
    ElementOk M (declaredElement d) d.boundNames d.targetWalk := by
  obtain ⟨kind, ds, loc⟩ := d
  refine declareElement_ok fun binder hb => ?_
  match ds with
  | [] => cases hb
  | .mk _ _ :: .mk _ _ :: _ => cases hb
  | [.mk p init] =>
    cases hb
    have hnames : (Declaration.mk kind [.mk p init] loc).boundNames = p.boundNames :=
      List.append_nil _
    have hwalk : (Declaration.mk kind [.mk p init] loc).targetWalk = p.walk := Walk.append_skip _
    rw [hnames, hwalk]
    exact pattern_ok p h.left.left

theorem forTarget_ok (t : ForTarget) (h : AllNodes M.Accepts t.nodes) :
    ElementOk M (forTarget t) t.declaredNames t.walk := by
  cases t with
  | declaration d => exact declaredElement_ok d h
  | target t => exact assignElement_ok (place_ok t h)

theorem statement_ok (s : Statement) (h : AllNodes M.Accepts s.nodes) :
    StmtOk M (statement s) s.declaredNames s.walk := by
  cases s with
  | declaration d => exact declaration_ok d h
  | function f => exact fun _ _ _ _ _ _ _ _ => .unsupported ..
  | expression e => exact expressionCode_ok (expression_ok e h)
  | block body =>
    have hblock := blockCode_ok (items_ok body h)
    rw [declared_items] at hblock
    exact hblock
  | returns e => exact returnCode_ok (initCode_ok (optional_ok e h))
  | breaks label loc => exact breakCode_ok label loc
  | continues label loc => exact continueCode_ok label loc
  | bare kind loc => exact bareCode_ok kind loc
  | ifElse t a b =>
    exact ifCode_ok (expression_ok t h.left) (body_ok h.right.left (statement_ok a))
      (optionalStatement_ok b h.right.right)
  | whileLoop t body =>
    exact whileCode_ok (expression_ok t h.left) (body_ok h.right (statement_ok body))
  | doWhile t body =>
    exact doWhileCode_ok (expression_ok t h.left) (body_ok h.right (statement_ok body))
  | forLoop init test update body =>
    exact forCode_ok (optionalHead_ok init h.left) (optional_ok test h.right.left)
      (optional_ok update h.right.right.left)
      (body_ok h.right.right.right (statement_ok body))
  | forIn t e body isAwait loc =>
    exact forEachCode_ok keysProtocol_ok (expression_ok e h.right.left) (forTarget_ok t h.left)
      (body_ok h.right.right (statement_ok body)) isAwait loc
  | forOf t e body isAwait loc =>
    exact forEachCode_ok itemsProtocol_ok (expression_ok e h.right.left) (forTarget_ok t h.left)
      (body_ok h.right.right (statement_ok body)) isAwait loc

theorem optionalStatement_ok (o : Option Statement) (h : AllNodes M.Accepts (optionalBodyNodes o)) :
    AlternateOk M (optionalStatement o) (optionalStatementWalk o) := by
  cases o with
  | none => rfl
  | some s => exact body_ok h (statement_ok s)

theorem items_ok (ss : List Statement) (h : AllNodes M.Accepts (statementsNodes ss)) :
    ItemsOk M (items ss) (hoistedWalk ss) (inPlaceWalk ss) := by
  match ss with
  | [] => exact .nil
  | s :: ss =>
    have hss := items_ok ss h.right
    cases s with
    | declaration d => exact .declaration (declaration_ok d h.left) hss
    | function f => exact .function (function_ok f h.left) hss
    | _ => exact .statement (statement_ok _ h.left) hss

end

end ScriptIr.Lower
