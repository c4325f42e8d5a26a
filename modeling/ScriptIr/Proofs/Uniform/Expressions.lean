import ScriptIr.Proofs.Uniform.Plain

/-!
# Expressions in a calculus of computations

A property of computations follows the way in which the code of an expression is put together from the
code of its parts. What the parts are judged by is left open: it may be a property of one computation
or relate it to a second one, and it may depend on the place where the code stands.

* `Calculus.Code`: code, graded by what is found in it.
* `code_binaryCode`, `code_callCode`, ...: the kinds of expressions.
-/
namespace ScriptIr.Lower

open Code ScriptIr.Tree

/-- A property of pairs of computations at a site. It is graded: a computation may do no more than its
grade says, and fails only as its grade allows. -/
structure Calculus where
  Site : Type
  Grade : Type
  ctx : Site → Ctx
  holds : {α : Type} → Site → List Grade → Emit α → Emit α → Prop
  Fails : List Grade → Error → Error → Prop
  plain : ∀ {α : Type} {i : Site} {x : Emit α}, Plain (ctx i).func x → holds i [] x x
  bind : ∀ {α β : Type} {i : Site} {gs hs : List Grade} {x x' : Emit α} {g g' : α → Emit β},
    holds i gs x x' → (∀ a, holds i hs (g a) (g' a)) → holds i (gs ++ hs) (x >>= g) (x' >>= g')
  throw : ∀ {α : Type} {i : Site} {gs : List Grade} {e e' : Error}, Fails gs e e' →
    holds i gs (throw e : Emit α) (throw e')
  fails_append : ∀ {gs : List Grade} {e e' : Error}, Fails gs e e' → ∀ hs, Fails (gs ++ hs) e e'

namespace Calculus

variable {K : Calculus} {i : K.Site} {gs : List K.Grade} {x x' : Emit α} {g g' : α → Emit β}
  {f f₁ f₂ f₃ : K.Site → List K.Grade} {codes codes' args args' : List ExprCode} {e e' : Expression}
  {c c' left left' right right' test test' : ExprCode} {target target' : TargetCode}
  {place place' : PlaceCode} {error : Error}

theorem step (hx : Plain (K.ctx i).func x) (hg : ∀ a, K.holds i gs (g a) (g' a)) :
    K.holds i gs (x >>= g) (x >>= g') := K.bind (K.plain hx) hg

theorem after (hx : K.holds i gs x x') (hg : ∀ a, K.holds i [] (g a) (g' a)) :
    K.holds i gs (x >>= g) (x' >>= g') := by
  have := K.bind hx hg
  rwa [List.append_nil] at this

theorem done (hx : K.holds i gs x x') (hg : ∀ a, Plain (K.ctx i).func (g a)) :
    K.holds i gs (x >>= g) (x' >>= g) := after hx fun a => K.plain (hg a)

theorem ofExcept {x : Except Error α} (hfails : ∀ e, x = .error e → K.Fails gs e e)
    (hg : ∀ a, x = .ok a → K.holds i gs (g a) (g' a)) :
    K.holds i gs (ofExcept x >>= g) (ofExcept x >>= g') := by
  cases x with
  | ok a => exact hg a rfl
  | error e => exact K.throw (hfails e rfl)

/-- Whatever its grade, a computation may refuse a part of the language. -/
def Lax (K : Calculus) : Prop := ∀ gs construct loc,
  K.Fails gs (.unsupported construct loc) (.unsupported construct loc)

def Code (K : Calculus) (f : K.Site → List K.Grade) (c c' : Ctx → BlockId → Emit α) : Prop :=
  ∀ i block, K.holds i (f i) (c (K.ctx i) block) (c' (K.ctx i) block)

theorem Code.failing (h : ∀ i, K.Fails (f i) error error) : K.Code f (failing error) (failing error) :=
  fun i _ => K.throw (h i)

theorem code_instCode {inst : Inst} (h : inst.closure? = none) :
    K.Code (fun _ => []) (instCode inst) (instCode inst) :=
  fun _ _ => K.plain (.bind (.emit h) fun _ => .pure _)

theorem code_literalCode (hK : K.Lax) (l : Tree.Literal) :
    K.Code (fun _ => []) (literalCode l) (literalCode l) := by
  unfold literalCode
  split
  · exact code_instCode rfl
  · split
    · exact .failing fun _ => hK ..
    · split
      · exact code_instCode rfl
      · exact code_instCode rfl
      · exact code_instCode rfl
      · exact code_instCode rfl
      · exact .failing fun _ => hK ..

/-! ## Lists of expressions -/

/-- Pieces and their counterparts, one after the other. -/
inductive Listed (K : Calculus) (holds : (K.Site → List K.Grade) → β → β → Prop) :
    (K.Site → List K.Grade) → List β → List β → Prop where
  | nil : Listed K holds (fun _ => []) [] []
  | cons {f g : K.Site → List K.Grade} {b b' : β} {bs bs' : List β} (first : holds f b b')
    (rest : Listed K holds g bs bs') : Listed K holds (fun i => f i ++ g i) (b :: bs) (b' :: bs')

abbrev Codes (K : Calculus) : (K.Site → List K.Grade) → List ExprCode → List ExprCode → Prop :=
  Listed K K.Code

theorem evalList (h : K.Codes f codes codes') (block : BlockId) :
    K.holds i (f i) (evalList (K.ctx i) block codes) (evalList (K.ctx i) block codes') := by
  induction h generalizing block with
  | nil => exact K.plain (.pure _)
  | cons hcode _ ih => exact K.bind (hcode i block) fun _ => done (ih _) fun _ => .pure _

theorem code_argumentsCode (h : K.Codes f args args') :
    K.Code f (argumentsCode args) (argumentsCode args') :=
  fun _ block => done (evalList h block) fun _ => .bind (.emit rfl) fun _ => .pure _

theorem code_sequenceCode (h : K.Codes f codes codes')
    (hfails : ∀ gs, K.Fails gs (.internal .emptySequence) (.internal .emptySequence)) :
    K.Code f (sequenceCode codes) (sequenceCode codes') := by
  refine fun i block => after (evalList h block) fun r => ?_
  dsimp only
  split
  · exact K.plain (.pure _)
  · exact K.throw (hfails _)

/-- An element of an array literal. -/
inductive ElementHolds (K : Calculus) : (K.Site → List K.Grade) → Element → Element → Prop where
  | hole : ElementHolds K (fun _ => []) .hole .hole
  | value {f : K.Site → List K.Grade} {c c' : ExprCode} (h : K.Code f c c') :
    ElementHolds K f (.value c) (.value c')
  | spread {f : K.Site → List K.Grade} {c c' : ExprCode} (h : K.Code f c c') :
    ElementHolds K f (.spread c) (.spread c')

theorem evalElements {elements elements' : List Element} (h : Listed K K.ElementHolds f elements elements')
    (block : BlockId) (s : Segments) :
    K.holds i (f i) (evalElements (K.ctx i) block s elements)
      (evalElements (K.ctx i) block s elements') := by
  induction h generalizing block s with
  | nil => exact K.plain (.pure _)
  | cons he _ ih =>
    cases he with
    | hole => exact step (.emit rfl) fun _ => ih _ _
    | value hcode => exact K.bind (hcode i block) fun _ => ih _ _
    | spread hcode =>
      exact step .flush fun _ => K.bind (hcode i block) fun _ => step .loadGlobal fun _ =>
        step .getNamed fun _ => step .callWith fun _ => ih _ _

theorem code_arrayCode {elements elements' : List Element}
    (h : Listed K K.ElementHolds f elements elements') :
    K.Code f (arrayCode elements) (arrayCode elements') := by
  refine fun i block => done (evalElements h block {}) fun _ => .bind .closeSegments fun _ => ?_
  dsimp only [concatCode]
  split
  · exact .pure _
  · exact .bind .loadGlobal fun _ => .bind .getNamed fun _ => .bind .getNamed fun _ =>
      .bind .callWith fun _ => .pure _

/-- A member of an object literal or pattern. Its counterpart has the same key. -/
structure Keyed (K : Calculus) (holds : (K.Site → List K.Grade) → β → β → Prop)
    (f : K.Site → List K.Grade) (m m' : Except Error String × β) : Prop where
  key : m'.1 = m.1
  fails : ∀ e, m.1 = .error e → ∀ i, K.Fails (f i) e e
  code : ∀ name, m.1 = .ok name → holds f m.2 m'.2

theorem evalMembers {members members' : List (Except Error String × ExprCode)}
    (h : Listed K (Keyed K K.Code) f members members') (block : BlockId) :
    K.holds i (f i) (evalMembers (K.ctx i) block members) (evalMembers (K.ctx i) block members') := by
  induction h generalizing block with
  | nil => exact K.plain (.pure _)
  | @cons _ _ m m' _ _ hm _ ih =>
    obtain ⟨name, code⟩ := m
    obtain ⟨name', code'⟩ := m'
    obtain rfl : name' = name := hm.key
    exact ofExcept (fun e he => K.fails_append (hm.fails e he i) _) fun name hname =>
      step (.emit rfl) fun _ => K.bind (hm.code name hname i block) fun _ => done (ih _) fun _ => .pure _

theorem code_objectCode {members members' : List (Except Error String × ExprCode)}
    (h : Listed K (Keyed K K.Code) f members members') :
    K.Code f (objectCode members) (objectCode members') :=
  fun _ block => done (evalMembers h block) fun _ => .bind (.emit rfl) fun _ => .pure _

/-! ## Members and places -/

section Members

variable {object object' property property' : Expression} {computed : Bool}
  {objectCode objectCode' propertyCode propertyCode' : ExprCode}

def superLoc? : Expression → Option (Option Location)
  | .bare .superclass loc => some loc
  | _ => none

def keyCode (computed : Bool) (property : Expression) (code : ExprCode) : ExprCode := fun ctx block =>
  if computed then code ctx block
  else do
    let name ← MonadExcept.ofExcept (memberKey property)
    return ⟨block, ← emit ctx block (.string name)⟩

theorem memberTarget_eq : memberTarget object property computed objectCode propertyCode =
    match superLoc? object with
    | some loc => fun _ _ => unsupported .superProperty loc
    | none => fun ctx block => do
      let o ← objectCode ctx block
      let k ← keyCode computed property propertyCode ctx o.block
      return ⟨k.block, o.value, k.value⟩ := by
  have hplain : (fun ctx block => do
      let o ← objectCode ctx block
      if computed then
        let k ← propertyCode ctx o.block
        return ⟨k.block, o.value, k.value⟩
      else
        let name ← MonadExcept.ofExcept (memberKey property)
        return ⟨o.block, o.value, ← emit ctx o.block (.string name)⟩ : TargetCode) = fun ctx block => do
      let o ← objectCode ctx block
      let k ← keyCode computed property propertyCode ctx o.block
      return ⟨k.block, o.value, k.value⟩ := by
    cases computed <;> simp [keyCode]
  unfold memberTarget superLoc?
  cases object with
  | bare kind loc => cases kind <;> first | rfl | exact hplain
  | _ => exact hplain

theorem code_memberTarget (hsuper : superLoc? object' = superLoc? object)
    (hfails : ∀ loc, superLoc? object = some loc →
      ∀ i, K.Fails (f₁ i ++ f₂ i) (.unsupported .superProperty loc) (.unsupported .superProperty loc))
    (ho : K.Code f₁ objectCode objectCode')
    (hp : K.Code f₂ (keyCode computed property propertyCode) (keyCode computed property' propertyCode')) :
    K.Code (fun i => f₁ i ++ f₂ i) (memberTarget object property computed objectCode propertyCode)
      (memberTarget object' property' computed objectCode' propertyCode') := by
  rw [memberTarget_eq, memberTarget_eq, hsuper]
  cases hloc : superLoc? object with
  | some loc => exact fun i _ => K.throw (hfails loc hloc i)
  | none => exact fun i block => K.bind (ho i block) fun _ => done (hp i _) fun _ => .pure _

theorem code_keyCode (hkey : computed = false → memberKey property' = memberKey property)
    (hnamed : ∀ name, computed = false → memberKey property = .ok name → ∀ i, f i = [])
    (hfails : ∀ e, computed = false → memberKey property = .error e → ∀ i, K.Fails (f i) e e)
    (hc : computed = true → K.Code f c c') :
    K.Code f (keyCode computed property c) (keyCode computed property' c') := by
  cases computed with
  | true => exact hc rfl
  | false =>
    intro i block
    show K.holds i (f i) (MonadExcept.ofExcept (memberKey property) >>= _)
      (MonadExcept.ofExcept (memberKey property') >>= _)
    rw [hkey rfl]
    refine ofExcept (fun e he => hfails e rfl he i) fun name hname => ?_
    rw [hnamed name rfl hname i]
    exact K.plain (.bind (.emit rfl) fun _ => .pure _)

theorem code_memberCode (h : K.Code f target target') :
    K.Code f (memberCode target) (memberCode target') :=
  fun i block => done (h i block) fun _ => .bind (.emit rfl) fun _ => .pure _

theorem code_memberPlace (h : K.Code f target target') :
    K.Code f (memberPlace target) (memberPlace target') := fun i block => done (h i block) fun _ => .pure _

end Members

/-! ## Operators -/

theorem code_binaryCode (op : Tree.BinaryOperator) (hl : K.Code f₁ left left')
    (hr : K.Code f₂ right right') :
    K.Code (fun i => f₁ i ++ f₂ i) (binaryCode op left right) (binaryCode op left' right') :=
  fun i block => K.bind (hl i block) fun _ => done (hr i _) fun _ => .bind .applyBinary fun _ => .pure _

theorem code_unaryCode {op : Tree.UnaryOperator} {target target' : Option TargetCode}
    (ht : op = .delete → K.Code f (deleteCode e target) (deleteCode e' target'))
    (hc : op ≠ .delete → K.Code f c c') :
    K.Code f (unaryCode op e target c) (unaryCode op e' target' c') := by
  unfold unaryCode
  split
  · next hop => exact ht hop
  · next hop => exact fun i block => done (hc hop i block) fun _ => .bind .applyUnary fun _ => .pure _

theorem code_deleteCode (h : K.Code f target target') :
    K.Code f (deleteCode e (some target)) (deleteCode e' (some target')) :=
  fun i block => done (h i block) fun _ => .bind (.emit rfl) fun _ => .pure _

theorem code_updateCode (op : Tree.UpdateOperator) (prefixed : Bool) (h : K.Code f place place') :
    K.Code f (updateCode op prefixed place) (updateCode op prefixed place') :=
  fun i block => done (h i block) fun _ => .bind .readPlace fun _ => .bind .emitNumber fun _ =>
    .bind (.emit rfl) fun _ => .bind .writePlace fun _ => .bind (.emit rfl) fun _ => .pure _

theorem code_assignmentCode {op : Tree.AssignmentOperator} {loc : Option Location}
    (hfails : ∀ op', op = .logical op' → ∀ i,
      K.Fails (f₁ i ++ f₂ i) (.unsupported .logicalAssignment loc) (.unsupported .logicalAssignment loc))
    (hp : K.Code f₁ place place') (hr : K.Code f₂ right right') :
    K.Code (fun i => f₁ i ++ f₂ i) (assignmentCode op loc place right)
      (assignmentCode op loc place' right') := by
  cases op with
  | logical op => exact .failing (hfails op rfl)
  | assign =>
    exact fun i block => K.bind (hp i block) fun _ => done (hr i _) fun _ => .bind .writePlace fun _ =>
      .bind (.emit rfl) fun _ => .pure _
  | compound op =>
    exact fun i block => K.bind (hp i block) fun _ => step .readPlace fun _ => done (hr i _) fun _ =>
      .bind .applyBinary fun _ => .bind .writePlace fun _ => .bind (.emit rfl) fun _ => .pure _

/-! ## Branches and calls -/

theorem code_logicalCode (op : Tree.LogicalOperator) (hl : K.Code f₁ left left')
    (hr : K.Code f₂ right right') :
    K.Code (fun i => f₁ i ++ f₂ i) (logicalCode op left right) (logicalCode op left' right') :=
  fun i block => K.bind (hl i block) fun _ => step .newBlock fun _ => step .newBlock fun _ =>
    step .logicalBranch fun _ => done (hr i _) fun _ => .bind .jump fun _ => .bind (.emit rfl) fun _ =>
      .pure _

theorem code_conditionalCode (ht : K.Code f₁ test test') (hl : K.Code f₂ left left')
    (hr : K.Code f₃ right right') :
    K.Code (fun i => f₁ i ++ (f₂ i ++ f₃ i)) (conditionalCode test left right)
      (conditionalCode test' left' right') :=
  fun i block => K.bind (ht i block) fun _ => step .newBlock fun _ => step .newBlock fun _ =>
    step .newBlock fun _ => step (.perform rfl) fun _ => K.bind (hl i _) fun _ => step .jump fun _ =>
      done (hr i _) fun _ => .bind .jump fun _ => .bind (.emit rfl) fun _ => .pure _

theorem code_calleeCode_some (h : K.Code f target target') :
    K.Code f (calleeCode (some target) c) (calleeCode (some target') c') :=
  fun i block => done (h i block) fun _ => .bind (.emit rfl) fun _ => .pure _

theorem code_calleeCode_none (h : K.Code f c c') : K.Code f (calleeCode none c) (calleeCode none c') :=
  fun i block => done (h i block) fun _ => .bind (.emit rfl) fun _ => .pure _

theorem code_callCode {target target' : Option TargetCode}
    (hc : K.Code f₁ (calleeCode target c) (calleeCode target' c')) (ha : K.Codes f₂ args args') :
    K.Code (fun i => f₁ i ++ f₂ i) (callCode target c args) (callCode target' c' args') :=
  fun i block => K.bind (hc i block) fun _ => done (code_argumentsCode ha i _) fun _ =>
    .bind (.emit rfl) fun _ => .pure _

theorem code_constructCode (hc : K.Code f₁ c c') (ha : K.Codes f₂ args args') :
    K.Code (fun i => f₁ i ++ f₂ i) (constructCode c args) (constructCode c' args') :=
  fun i block => K.bind (hc i block) fun _ => done (code_argumentsCode ha i _) fun _ =>
    .bind (.emit rfl) fun _ => .pure _

/-! ## Templates -/

theorem nextText_error {loc : Option Location} {texts : List (Option String)}
    (h : nextText loc texts = .error error) : error = .unsupported .invalidEscape loc := by
  unfold nextText at h
  split at h <;> cases h
  rfl

theorem evalTemplate (hK : K.Lax) (loc : Option Location) (h : K.Codes f codes codes') (block : BlockId)
    (value : InstId) (texts : List (Option String)) :
    K.holds i (f i) (evalTemplate (K.ctx i) loc block value texts codes)
      (evalTemplate (K.ctx i) loc block value texts codes') := by
  induction h generalizing block value texts with
  | nil => exact K.plain (.pure _)
  | cons hcode _ ih =>
    refine K.bind (hcode i block) fun _ => ofExcept (fun e he => ?_) fun _ _ => step (.emit rfl) fun _ => ?_
    · rw [nextText_error he]
      exact hK ..
    · split
      · exact ih ..
      · exact step (.emit rfl) fun _ => step (.emit rfl) fun _ => ih ..

theorem code_templateCode (hK : K.Lax) (texts : List (Option String)) (loc : Option Location)
    (h : K.Codes f codes codes') :
    K.Code f (templateCode texts codes loc) (templateCode texts codes' loc) := by
  refine fun i block => ofExcept (fun e he => ?_) fun _ _ => step (.emit rfl) fun _ => evalTemplate hK loc h ..
  rw [nextText_error he]
  exact hK ..

end Calculus

end ScriptIr.Lower
