import ScriptIr.Proofs.Uniform.Statements
import ScriptIr.Proofs.Scope.Locals
import ScriptIr.Proofs.Tree.Nests

/-!
# Judgements on emitted code

A property of computations that emit code follows the way in which the code of a tree is put together
from the code of its parts. What has to be shown of a property is how it behaves at the few primitives
that touch the module; the rest of the lowering is walked through once, here and in the module on
trees.

A judgement is graded by the functions of the source that a computation makes closures of.

* `Judgement.Code`, `Judgement.Stmt`: pieces of code and lists of them.
-/
namespace ScriptIr.Lower

open Code ScriptIr.Tree

variable {h : Header}

/-- The step that completes the instruction which opens a frame, and what follows it. -/
def completeFrame (ctx : Ctx) (push : InstId) (size : UInt32) (captured : List InstId)
    (rest : Emit Unit) : Emit Unit := do
  match ← instAt? ctx push with
  | some (.pushScope ..) => patch ctx push (.pushScope size captured)
  | _ => throw (.internal .lostFrame)
  rest

/-- What is emitted to a function that has been opened; the answer is the names that it captures. -/
def openedCode (h : Header) (names : List String) (rest : Option String) (body : BodyCode)
    (parent : Scope.ScopeId) (func : Nat) : Emit (List String) := do
  let scope ← newScope (some parent) .function
  naming (Scope.Naming.setParams scope names)
  let entry ← newBlock { func, scope }
  declareArguments h names { func, scope } entry
  if let some rest := rest then declareRest { func, scope } entry names.length rest
  body { func, scope } entry
  capturedNames scope

/-- A function is opened under the next id, and then filled. -/
theorem functionCode_of_ok {names : List String × Option String}
    (hnames : parameterNames h.params = .ok names) (body : BodyCode) (parent : Scope.ScopeId) :
    functionCode h body parent = do
      checkHeader h
      let s ← get
      let func ← newFunction h.name names.1.length
      let captured ← openedCode h names.1 names.2 body parent func
      return (s.module.nextId, captured) := by
  obtain ⟨names, rest⟩ := names
  have hpure : (ofExcept (.ok (names, rest)) : Emit (List String × Option String)) = pure (names, rest) :=
    rfl
  simp only [functionCode, openedCode, hnames, hpure, pure_bind, bind_assoc]
  cases rest with
  | none => simp only [bind_assoc]
  | some rest => simp only [bind_assoc]

theorem functionCode_of_error {e : Error} (hnames : parameterNames h.params = .error e)
    (body : BodyCode) (parent : Scope.ScopeId) :
    functionCode h body parent = (checkHeader h >>= fun _ => throw e) := by
  unfold functionCode
  rw [hnames]
  rfl

/-- A property of computations that emit code to function `f` and declare nothing in the scopes below
`low`, given the functions of which they make closures. A computation that fails may have left out
closures. -/
structure Judgement where
  holds : {α : Type} → (f low : Nat) → List Nest → Emit α → Prop
  pure : ∀ {α : Type} (f low : Nat) (a : α), holds f low [] (Pure.pure a)
  throw : ∀ {α : Type} (f low : Nat) (ns : List Nest) (e : Error), holds f low ns (throw e : Emit α)
  bind : ∀ {α β : Type} {f low : Nat} {ms ns : List Nest} {x : Emit α} {g : α → Emit β},
    holds f low ms x → (∀ a, holds f low ns (g a)) → holds f low (ms ++ ns) (x >>= g)
  naming : ∀ {α : Type} (f : Nat) {low : Nat} {x : Scope.Naming α}, x.Spares low →
    holds f low [] (naming x)
  /-- A scope that is opened is not among those before it. -/
  opening : ∀ {α : Type} {f low : Nat} {ns : List Nest} {parent : Option Scope.ScopeId}
    {kind : Scope.Kind} {g : Scope.ScopeId → Emit α},
    (∀ low scope, low ≤ scope → holds f low ns (g scope)) → holds f low ns (newScope parent kind >>= g)
  record : ∀ (f low : Nat) (u : Use), holds f low [] (record u)
  newBlock : ∀ (ctx : Ctx) {low : Nat}, holds ctx.func low [] (newBlock ctx)
  emit : ∀ (ctx : Ctx) (block : BlockId) (inst : Inst) {low : Nat}, inst.closure? = none →
    holds ctx.func low [] (emit ctx block inst)
  completeFrame : ∀ (ctx : Ctx) (push : InstId) (size : UInt32) (captured : List InstId)
    (rest : Emit Unit) {low : Nat}, holds ctx.func low [] rest →
    holds ctx.func low [] (completeFrame ctx push size captured rest)
  completePhi : ∀ {α : Type} (ctx : Ctx) (block : BlockId) (x : InstId → Emit α)
    (incoming : α → List (BlockId × InstId)) {low : Nat}, (∀ id, holds ctx.func low [] (x id)) →
    holds ctx.func low [] (completePhi ctx block x incoming)

namespace Judgement

variable {J : Judgement} {f low : Nat} {ms ns ts : List Nest} {ctx : Ctx} {declares : Bool} {x : Emit α}
  {g : α → Emit β} {target : Option TargetCode} {e : Tree.Expression} {test callee : ExprCode}
  {binders : List Binder} {items : List Item} {body : StmtCode}

/-! ## Sequences of steps -/

theorem plain (h : Plain f x) : J.holds f low [] x := by
  induction h with
  | pure a => exact J.pure ..
  | bind _ _ ihx ihg => exact J.bind ihx ihg
  | newBlock => exact J.newBlock _
  | emit h => exact J.emit _ _ _ h
  | completePhi _ ih => exact J.completePhi _ _ _ _ ih

theorem before (hx : J.holds f low [] x) (hg : ∀ a, J.holds f low ns (g a)) :
    J.holds f low ns (x >>= g) := J.bind hx hg

theorem step (hx : Plain f x) (hg : ∀ a, J.holds f low ns (g a)) : J.holds f low ns (x >>= g) :=
  before (plain hx) hg

theorem after (hx : J.holds f low ns x) (hg : ∀ a, J.holds f low [] (g a)) : J.holds f low ns (x >>= g) := by
  have := J.bind hx hg
  rwa [List.append_nil] at this

theorem done (hx : J.holds f low ns x) (hg : ∀ a, Plain f (g a)) : J.holds f low ns (x >>= g) :=
  after hx fun a => plain (hg a)

theorem unsupported (construct : Construct) (loc : Option Location) :
    J.holds f low ns (unsupported construct loc : Emit α) := J.throw ..

/-- A failure ends the computation, whatever comes behind it. -/
theorem throw_before (e : Error) : J.holds f low ns ((MonadExcept.throw e : Emit α) >>= g) :=
  J.throw f low ns e

theorem scopes (read : Scope.Arena → α) : J.holds f low [] (scopes read) :=
  J.naming f (x := fun a => .ok (read a) a) fun a _ _ _ h => by cases h; exact .refl low a

theorem modifyScopes {change : Scope.Arena → Scope.Arena}
    (hchange : ∀ a : Scope.Arena, a.Spares low (change a)) :
    J.holds f low [] (modifyScopes change) :=
  J.naming f (x := fun a => .ok () (change a)) fun a _ _ _ h => by cases h; exact hchange a

variable (scope : Scope.ScopeId)

theorem continueTarget (target : BlockId) :
    J.holds f low [] (Lower.modifyScopes (·.setContinueTarget scope target)) :=
  modifyScopes fun _ => .modify (.inr fun _ => rfl)

theorem breakTarget (target : BlockId) :
    J.holds f low [] (Lower.modifyScopes (·.setBreakTarget scope target)) :=
  modifyScopes fun _ => .modify (.inr fun _ => rfl)

theorem setTargets (onBreak onContinue : BlockId) :
    J.holds f low [] (setTargets scope onBreak onContinue) :=
  before (breakTarget scope onBreak) fun _ => continueTarget scope onContinue

theorem lookup (name : String) (tolerant upper : Bool) :
    J.holds f low [] (Lower.naming (Scope.Naming.lookup scope name tolerant upper)) :=
  J.naming f Scope.Naming.spares_lookup

theorem declare {scope : Scope.ScopeId} (hlow : low ≤ scope) (name : String) (slot : Option InstId)
    (constant : Bool) :
    J.holds f low [] (Lower.naming (Scope.Naming.declare scope name slot constant)) :=
  J.naming f (Scope.Naming.spares_declare hlow)

/-! ## Addresses and frames -/

variable (block : BlockId)

theorem capturedAddress (name : String) : J.holds ctx.func low [] (capturedAddress ctx block name) := by
  refine before (lookup ..) fun r => ?_
  cases r with
  | some r => exact plain .slotAddress
  | none => exact J.throw ..

theorem capturedAddresses (names : List String) :
    J.holds ctx.func low [] (capturedAddresses ctx block names) := by
  induction names with
  | nil => exact J.pure ..
  | cons name names ih =>
    exact before (capturedAddress block name) fun _ => before ih fun _ => J.pure ..

theorem nameAddress (name : String) (write : Bool) :
    J.holds ctx.func low [] (nameAddress ctx block name write) := by
  refine before (lookup ..) fun r => ?_
  cases r with
  | some r =>
    dsimp only
    split
    · exact throw_before _
    · exact plain .slotAddress
  | none => exact plain (.emit rfl)

theorem identifierAddress (name : String) (write : Bool) :
    J.holds ctx.func low [] (identifierAddress ctx block name write) :=
  before (nameAddress block name write) fun _ => before (J.record ..) fun _ => J.pure ..

theorem closeFrame (frame : Frame) : J.holds ctx.func low [] (closeFrame ctx frame) :=
  before (scopes _) fun _ => before (capturedAddresses ..) fun _ => before (scopes _) fun _ =>
    J.completeFrame ctx _ _ _ _ (plain .jump)

/-! ## Pieces of code -/

/-- The judgement as a calculus. Code that stands in a scope may declare names there, if it is said
to. -/
def calculus (J : Judgement) (declares : Bool) : Calculus where
  Site := { p : Ctx × Nat // declares = true → p.2 ≤ p.1.scope }
  Grade := Nest
  ctx i := i.1.1
  holds i ns x _ := J.holds i.1.1.func i.1.2 ns x
  Fails _ _ _ := True
  plain := plain
  bind hx hg := J.bind hx hg
  throw _ := J.throw ..
  fails_append _ _ := trivial

abbrev exprs (J : Judgement) : Calculus := J.calculus false

abbrev stmts (J : Judgement) : Calculus := J.calculus true

abbrev site (J : Judgement) (ctx : Ctx) (low : Nat) : J.exprs.Site := ⟨(ctx, low), nofun⟩

abbrev Stmt (J : Judgement) (declares : Bool) (ns : List Nest) (code : Ctx → BlockId → Emit α) : Prop :=
  (J.calculus declares).Code (fun _ => ns) code code

abbrev Code (J : Judgement) : List Nest → (Ctx → BlockId → Emit α) → Prop := J.Stmt false

abbrev Optional (J : Judgement) (ns : List Nest) (code : Option ExprCode) : Prop :=
  J.exprs.Perhaps J.exprs.Code (fun _ => ns) code code

theorem lax : (J.calculus declares).Lax := fun _ _ _ => trivial

theorem placed {code : Ctx → BlockId → Emit α} (h : J.Stmt declares ns code) (ctx : Ctx) (block : BlockId)
    (hlow : declares = true → low ≤ ctx.scope := by intro h; cases h) :
    J.holds ctx.func low ns (code ctx block) := h ⟨(ctx, low), hlow⟩ block

theorem Stmt.mono {may : Bool} {code : Ctx → BlockId → Emit α} (h : J.Stmt declares ns code)
    (hmay : declares = true → may = true) : J.Stmt may ns code :=
  fun i block => placed h i.1.1 block fun hd => i.2 (hmay hd)

theorem Stmt.any {code : Ctx → BlockId → Emit α} (h : J.Stmt declares ns code) : J.Stmt true ns code :=
  Stmt.mono h fun _ => rfl

theorem stmt {code : Ctx → BlockId → Emit α} (h : J.Code ns code) : J.Stmt declares ns code :=
  Stmt.mono h nofun

/-- A function makes a closure where it stands. What its body has to satisfy matters only if its
parameters can be lowered. -/
def Closes (J : Judgement) : Prop :=
  ∀ (h : Header) (body : BodyCode) (ns : List Nest),
    (∀ names, parameterNames h.params = .ok names → J.Stmt true ns body) →
    J.Code [.mk h.kind h.name ns] (closureCode h body)

theorem code_readIdentifier (name : String) : J.Code [] (readIdentifier name) := fun _ _ =>
  done (identifierAddress ..) fun _ => .bind (.emit rfl) fun _ => .pure _

theorem code_identifierPlace (name : String) : J.Code [] (identifierPlace name) := fun _ _ =>
  done (identifierAddress ..) fun _ => .pure _

theorem code_expressionPlace (hname : ∀ id, e = .identifier id → ns = [])
    (h : ∀ code, target = some code → J.Code ns code) : J.Code ns (expressionPlace e target) := by
  cases target with
  | some target =>
    unfold expressionPlace
    split
    · rw [hname _ rfl]
      exact code_identifierPlace _
    next heq =>
      cases heq
      exact Calculus.code_memberPlace (h _ rfl)
    next heq => cases heq
  | none =>
    unfold expressionPlace
    split
    · rw [hname _ rfl]
      exact code_identifierPlace _
    next heq => cases heq
    next => exact fun _ _ => J.throw ..

/-- A member. Without brackets its property is a name, which has no functions in it. -/
theorem code_memberTarget {object property : Tree.Expression} {computed : Bool}
    {objectCode propertyCode : ExprCode} (ho : J.Code ms objectCode) (hp : J.Code ns propertyCode)
    (hnames : ∀ id, property = .identifier id → ns = []) :
    J.Code (ms ++ ns) (memberTarget object property computed objectCode propertyCode) := by
  refine Calculus.code_memberTarget rfl (fun _ _ _ => trivial) ho (Calculus.code_keyCode (fun _ => rfl)
    (fun name _ hname _ => ?_) (fun _ _ _ _ => trivial) fun _ => hp)
  unfold memberKey at hname
  split at hname
  · exact hnames _ rfl
  · cases hname
  · cases hname

theorem code_unaryCode {operand : ExprCode} (op : Tree.UnaryOperator)
    (ht : ∀ code, target = some code → J.Code ns code) (ho : J.Code ns operand) :
    J.Code ns (unaryCode op e target operand) := by
  refine Calculus.code_unaryCode (fun _ => ?_) fun _ => ho
  cases target with
  | some target => exact Calculus.code_deleteCode (ht target rfl)
  | none => exact .failing fun _ => trivial

theorem calleeCode (ht : ∀ code, target = some code → J.Code ns code) (hc : J.Code ns callee) :
    J.Code ns (calleeCode target callee) := by
  cases target with
  | some target => exact Calculus.code_calleeCode_some (ht target rfl)
  | none => exact Calculus.code_calleeCode_none hc

/-! ## Declarations -/

theorem announceNames (hlow : low ≤ ctx.scope) (block : BlockId) (constant : Bool) (names : List String) :
    J.holds ctx.func low [] (announceNames ctx block constant names) := by
  induction names with
  | nil => exact J.pure ..
  | cons name names ih =>
    exact step (.emit rfl) fun _ => before (J.naming _ (Scope.Naming.spares_forwardDeclare hlow)) fun _ => ih

variable (d : Declaration)

theorem checkBlockWide : J.holds f low [] (checkBlockWide d) := by
  unfold Lower.checkBlockWide
  split
  · exact unsupported ..
  · exact J.pure ..

theorem announce (hlow : low ≤ ctx.scope) (block : BlockId) (d : Declaration) :
    J.holds ctx.func low [] (announce ctx block d) :=
  before (checkBlockWide d) fun _ => announceNames hlow ..

/-- What a pattern stands for. -/
abbrev Bind (J : Judgement) (ns : List Nest) (bind : BindCode) : Prop :=
  J.stmts.Bind (fun _ => ns) bind bind

theorem bind_bindName (name : String) : J.Bind [] (bindName name) := by
  rintro ⟨⟨ctx, low⟩, hlow⟩ block value constant
  have hstore (given : Option InstId) : J.holds ctx.func low [] (do
      let slot ← Lower.naming (Scope.Naming.declare ctx.scope name given constant)
      Lower.perform ctx block (.store slot value)
      return block) := done (declare (hlow rfl) ..) fun _ => .bind (.perform rfl) fun _ => .pure _
  refine before (scopes _) fun announced => ?_
  dsimp only
  split
  · exact before (J.pure ..) hstore
  · exact before (plain (.bind (.emit rfl) fun _ => .pure _)) hstore

theorem code_declarationCode (h : J.stmts.Binders (fun _ => ns) binders binders) :
    J.Stmt true ns (declarationCode d binders) := fun i _ =>
  before (checkBlockWide d) fun _ => Calculus.bindAll (i := i) h _

/-! ## Functions and lists of statements -/

theorem checkHeader (h : Header) : J.holds f low [] (checkHeader h) := by
  unfold Lower.checkHeader
  by_cases hg : h.generator = true
  · rw [if_pos hg]
    exact throw_before _
  · rw [if_neg hg]
    dsimp only
    split
    · exact unsupported ..
    · exact J.pure ..

theorem declareArguments (hlow : low ≤ ctx.scope) (h : Header) (names : List String) (entry : BlockId) :
    J.holds ctx.func low [] (declareArguments h names ctx entry) := by
  unfold Lower.declareArguments
  split
  · exact step (.emit rfl) fun _ => step (.emit rfl) fun _ => step (.perform rfl) fun _ =>
      before (declare hlow ..) fun _ => J.pure ..
  · exact J.pure ..

theorem declareRest (entry : BlockId) (skip : Nat) (name : String) :
    J.holds ctx.func low [] (declareRest ctx entry skip name) :=
  step .loadGlobal fun _ => step .getNamed fun _ => step .getNamed fun _ => step (.emit rfl) fun _ =>
    step .emitNumber fun _ => step .callWith fun _ => step (.emit rfl) fun _ => step (.perform rfl) fun _ =>
      J.naming _ Scope.Naming.spares_setRest

theorem openedCode (h : Header) (names : List String) (rest : Option String) {body : BodyCode}
    (hb : J.Stmt true ns body) (parent : Scope.ScopeId) (func : Nat) :
    J.holds func low ns (openedCode h names rest body parent func) := by
  refine J.opening fun low scope hscope =>
    before (J.naming _ Scope.Naming.spares_setParams) fun _ => ?_
  have hctx : func = (Ctx.mk func scope).func := rfl
  rw [hctx]
  refine step .newBlock fun entry => before (declareArguments hscope ..) fun _ => ?_
  cases rest with
  | none => exact after (placed hb _ _ fun _ => hscope) fun _ => scopes _
  | some rest =>
    exact before (declareRest ..) fun _ => after (placed hb _ _ fun _ => hscope) fun _ => scopes _

/-- Closures, for a property that depends neither on the function nor on the closures that are made. -/
theorem closes_of_ungraded (hsame : ∀ {α : Type} {f g low : Nat} {ms ns : List Nest} {x : Emit α},
      J.holds f low ms x → J.holds g low ns x)
    (hget : ∀ {low}, J.holds 0 low [] (get : Emit State))
    (hnew : ∀ {low} name count, J.holds 0 low [] (newFunction name count))
    (hemit : ∀ {low} ctx block inst, J.holds 0 low [] (Lower.emit ctx block inst)) : J.Closes := by
  rintro h body ns hbody ⟨⟨ctx, low⟩, _⟩ block
  have hfunction : J.holds 0 low [] (functionCode h body ctx.scope) := by
    cases hnames : parameterNames h.params with
    | error e =>
      rw [functionCode_of_error hnames]
      exact before (checkHeader h) fun _ => J.throw ..
    | ok names =>
      rw [functionCode_of_ok hnames]
      exact before (checkHeader h) fun _ => before hget fun _ => before (hnew ..) fun func =>
        before (hsame (openedCode h names.1 names.2 (hbody names hnames) ctx.scope func)) fun _ =>
          J.pure ..
  exact hsame (before hfunction fun r => before (hsame (capturedAddresses block r.2)) fun _ =>
    before (hemit ctx block _) fun _ => J.pure 0 low _)

theorem functionName (func : Tree.Function) : J.holds f low [] (functionName func) := by
  unfold Lower.functionName
  split
  · exact J.pure ..
  · exact unsupported ..

theorem announceItems (hlow : low ≤ ctx.scope) (block : BlockId) (items : List Item) :
    J.holds ctx.func low [] (announceItems ctx block items) := by
  induction items with
  | nil => exact J.pure ..
  | cons item items ih =>
    refine before ?_ fun _ => ih
    cases item with
    | declaration decl code => exact announce hlow ..
    | function func closure => exact before (functionName func) fun _ => announceNames hlow ..
    | statement code => exact J.pure ..

theorem code_functionDeclarationCode (func : Tree.Function) {closure : ExprCode}
    (h : J.Code ns closure) : J.Stmt true ns (functionDeclarationCode func closure) :=
  fun i _ => before (functionName func) fun _ => after (placed h _ _) fun _ =>
    done (declare (i.2 rfl) ..) fun _ => .bind (.perform rfl) fun _ => .pure _

abbrev Stmts (J : Judgement) (ns : List Nest) (codes : List StmtCode) : Prop :=
  J.stmts.Listed J.stmts.Code (fun _ => ns) codes codes

theorem code_listCode (hh : J.Stmts ms (items.filterMap Item.hoisted?))
    (hp : J.Stmts ns (items.filterMap Item.inPlace?)) :
    J.Stmt true (ms ++ ns) (listCode items) := fun i block =>
  before (announceItems (i.2 rfl) block items) fun _ => J.bind (Calculus.runAll (i := i) hh) fun _ =>
    Calculus.runAll (i := i) hp

/-! ## Statements -/

theorem code_blockCode (h : J.Stmt true ns (listCode items)) : J.Code ns (blockCode items) := fun i _ =>
  J.opening fun _ scope hscope => step .openFrame fun _ => step .jump fun _ =>
    after (placed h (i.1.1.withScope scope) _ fun _ => hscope) fun _ => before (closeFrame _) fun _ =>
      plain (.bind .popScopes fun _ => .pure _)

theorem code_returnCode {argument : Option ExprCode} (h : J.Optional ns argument) :
    J.Code ns (returnCode argument) :=
  fun i _ => after (Calculus.code_initCode h i _) fun _ => before (scopes _) fun _ =>
    plain (.bind .popScopes fun _ => .bind (.perform rfl) fun _ => .newBlock)

theorem code_jumpCode (label : Option Tree.Identifier) (loc : Option Location) (labeled : Construct)
    (missing : Error) (find : Scope.Arena → Scope.ScopeId → Option (BlockId × Nat)) :
    J.Code [] (jumpCode label loc labeled missing find) := by
  rintro ⟨⟨ctx, low⟩, _⟩ block
  unfold jumpCode
  split
  · exact throw_before _
  · refine before (scopes _) fun r => ?_
    split
    · exact J.throw ..
    · exact plain (.bind .popScopes fun _ => .bind .jump fun _ => .newBlock)

/-! ## Loops -/

theorem closeLoop (ctx : Ctx) (frame : Frame) (exit : BlockId) :
    J.holds ctx.func low [] (closeLoop ctx frame exit) :=
  done (closeFrame _) fun _ => .bind .popScopes fun _ => .pure _

theorem code_loopCode {rounds : RoundsCode} (h : ∀ {low} (ctx : Ctx) (scope : Scope.ScopeId), low ≤ scope →
    ∀ start first second exit,
      J.holds ctx.func low ns (rounds ctx (ctx.withScope scope) start first second exit)) :
    J.Code ns (loopCode next rounds) := fun _ _ =>
  J.opening fun _ scope hscope => step .newBlock fun _ => step .openFrame fun _ => step .newBlock fun _ =>
    step .newBlock fun _ => before (setTargets ..) fun _ => step .jump fun _ =>
      after (h _ scope hscope ..) fun _ => closeLoop ..

theorem code_whileCode (ht : J.Code ms test) (hb : J.Stmt true ns body) :
    J.Code (ms ++ ns) (whileCode test body) :=
  code_loopCode fun ctx scope hscope _ _ _ _ => step .jump fun _ =>
    J.bind (placed ht (ctx.withScope scope) _) fun _ => step (.perform rfl) fun _ =>
      done (placed hb (ctx.withScope scope) _ fun _ => hscope) fun _ => .jump

theorem code_doWhileCode (hb : J.Stmt true ms body) (ht : J.Code ns test) :
    J.Code (ms ++ ns) (doWhileCode test body) :=
  code_loopCode fun ctx scope hscope _ _ _ _ => step .jump fun _ =>
    J.bind (placed hb (ctx.withScope scope) _ fun _ => hscope) fun _ => step .jump fun _ =>
      done (placed ht (ctx.withScope scope) _) fun _ => .perform rfl

theorem code_declarationHead {code : StmtCode} (h : J.Stmt true ns code) :
    J.Stmt true ns (declarationHead d code) := fun i block =>
  before (announce (i.2 rfl) block d) fun _ => done (h i block) fun _ => .pure _

theorem copyAllIn (ctx : Ctx) (hlow : low ≤ ctx.scope) (block : BlockId) (vars : List LoopVariable) :
    J.holds ctx.func low [] (copyAllIn ctx block vars) :=
  Calculus.copyAllIn (i := J.site ctx low) <| List.forall₂_same.2 fun _ _ =>
    ⟨lookup .., trivial, fun _ => declare hlow ..⟩

theorem plainRounds (ctx : Ctx) (hlow : low ≤ ctx.scope) {test : Option ExprCode} (ht : J.Optional ms test)
    (hb : J.Stmt true ns body) (testing update exit : BlockId) :
    J.holds ctx.func low (ms ++ ns) (plainRounds test body ctx testing update exit) :=
  before (continueTarget ..) fun _ => step .newBlock fun _ =>
    J.bind (Calculus.forTest (i := J.site ctx low) ht) fun _ =>
      done (placed hb ctx _ fun _ => hlow) fun _ => .jump

theorem copyingRounds (ctx : Ctx) (vars : List LoopVariable) {test : Option ExprCode}
    (ht : J.Optional ms test) (hb : J.Stmt true ns body) (testing update exit : BlockId) :
    J.holds ctx.func low (ms ++ ns) (copyingRounds vars test body ctx testing update exit) :=
  J.opening fun low scope hscope => step .openFrame fun _ => step .newBlock fun _ =>
    before (continueTarget ..) fun _ => J.bind (Calculus.forTest (i := J.site ctx low) ht) fun _ =>
      before (copyAllIn (ctx.withScope scope) hscope _ _) fun _ =>
        after (placed hb (ctx.withScope scope) _ fun _ => hscope) fun _ => step .jump fun _ =>
          step .copyAllOut fun _ => step .popScopes fun _ => step .jump fun _ => closeFrame _

theorem forRounds (ctx : Ctx) (hlow : low ≤ ctx.scope) (vars : List LoopVariable)
    {test : Option ExprCode} (ht : J.Optional ms test) (hb : J.Stmt true ns body)
    (testing update exit : BlockId) :
    J.holds ctx.func low (ms ++ ns) (forRounds vars test body ctx testing update exit) := by
  unfold Lower.forRounds
  split
  · exact plainRounds ctx hlow ht hb ..
  · exact copyingRounds ctx vars ht hb ..

theorem code_forCode {head : HeadCode} {test update : Option ExprCode} {hs us bs : List Nest}
    (hhead : J.Stmt true hs head) (ht : J.Optional ts test) (hu : J.Optional us update)
    (hb : J.Stmt true bs body) : J.Code (hs ++ (ts ++ (bs ++ us))) (forCode head test update body) := by
  rintro ⟨⟨ctx, _⟩, _⟩ block
  refine J.opening fun low scope hscope => step .newBlock fun exit => step .openFrame fun frame =>
    before (breakTarget ..) fun _ => step .jump fun _ =>
      J.bind (placed hhead (ctx.withScope scope) _ fun _ => hscope) fun head => step .newBlock fun testing =>
        step .newBlock fun updating => step .jump fun _ => ?_
  rw [← List.append_assoc]
  exact J.bind (forRounds (ctx.withScope scope) hscope _ ht hb ..) fun _ =>
    after (Calculus.updatePart (i := J.site (ctx.withScope scope) low) hu) fun _ =>
      step .jump fun _ => closeLoop ..

theorem receives_assignElement {place : PlaceCode} (h : J.Code ns place) :
    J.stmts.Receives (fun _ => ns) (assignElement place) (assignElement place) :=
  fun _ _ _ => done (placed h _ _) fun _ => .bind .writePlace fun _ => .pure _

theorem receives_declareElement {f : J.stmts.Site → List Nest}
    (h : J.stmts.Listed (fun f b b' => J.stmts.Bind f b.bind b'.bind) f binders binders) :
    J.stmts.Receives f (declareElement d binders) (declareElement d binders) := by
  intro i block element
  refine before (checkBlockWide d) fun _ => ?_
  cases h with
  | nil => exact unsupported ..
  | cons hb hrest =>
    cases hrest with
    | nil =>
      simp only [List.append_nil]
      exact before (announce (i.2 rfl) ..) fun _ => hb i _ _ _
    | cons => exact unsupported ..

theorem code_forEachCode {protocol : Protocol} {value : ExprCode} {target : ElementCode}
    {vs : List Nest} (hp : ∀ {ctx r value}, Plain ctx.func (protocol ctx r value))
    (hv : J.Code vs value) (ht : J.stmts.Receives (fun _ => ms) target target) (hb : J.Stmt true ns body)
    (isAwait : Bool) (loc : Option Location) :
    J.Code (vs ++ (ms ++ ns)) (forEachCode protocol value target body isAwait loc) := by
  intro i block
  unfold forEachCode
  split
  · exact throw_before _
  · exact J.bind (hv i block) fun _ => step .newBlock fun _ => step .newBlock fun _ =>
      step .newBlock fun _ => J.opening fun low scope hscope => step .openFrame fun _ =>
        step .newBlock fun _ => before (setTargets ..) fun _ => step hp fun _ =>
          J.bind (ht ⟨(i.1.1.withScope scope, low), fun _ => hscope⟩ _ _) fun _ =>
            after (placed hb (i.1.1.withScope scope) _ fun _ => hscope) fun _ => step .jump fun _ =>
              step .popScopes fun _ => step .jump fun _ => before (closeFrame _) fun _ => J.pure ..

end Judgement

end ScriptIr.Lower
