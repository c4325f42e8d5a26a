import ScriptIr.Proofs.Lower.Addresses
import ScriptIr.Proofs.Lower.Segments

/-!
# Contracts of expressions

What each kind of expression stands for meets the contract of an expression, given that its parts do.
The references of the whole are those of the parts in the order of evaluation.

* `readIdentifier_ok`, …, `templateCode_ok`: the kinds of expressions.
-/
namespace ScriptIr.Lower

open Code Layout ScriptIr.Tree List Scope

variable {M : Mode} {strict : Prop}
  {vs : List InstId} {i : Inst} {e : Error} {codes : List ExprCode} {p q : Layout}
  {f : Nat} {members : List (Except Error String × ExprCode)} {place : Place} {value : InstId}
  {c : Config M.strict} {ctx : Ctx} {env : Env} {b : BlockId} {R : Multiset Token}
  {texts : List (Option String)}

/-! ## Sequences of instructions -/

namespace Layout

variable {u v w : InstId}

theorem valued_nil : ∀ o ∈ ([] : List InstId), p.Valued f o := nofun

theorem valued_cons (hv : p.Valued f v) (hvs : ∀ o ∈ vs, p.Valued f o) :
    ∀ o ∈ v :: vs, p.Valued f o := forall_mem_cons.mpr ⟨hv, hvs⟩

theorem valued_one (hv : p.Valued f v) : ∀ o ∈ [v], p.Valued f o := valued_cons hv valued_nil

theorem valued_two (hv : p.Valued f v) (hw : p.Valued f w) : ∀ o ∈ [v, w], p.Valued f o :=
  valued_cons hv (valued_one hw)

theorem valued_three (hu : p.Valued f u) (hv : p.Valued f v) (hw : p.Valued f w) :
    ∀ o ∈ [u, v, w], p.Valued f o := valued_cons hu (valued_two hv hw)

end Layout

variable (name : String)

section Sequences

variable {k : ScopeId} {u v w : InstId}

theorem emitValue_sat (h : c.tokens = {.block ctx.func b k} + R) (hi : i.isPlain = true)
    (hv : i.hasValue = true) (ho : ∀ o ∈ i.operands, c.Valued ctx.func o) :
    Sat M (emit ctx b i) c fun v d => c.Yields ctx.func b k R v d :=
  (emit_sat h hi ho).mono fun _ _ he => he.yields hv

theorem emitNumber_sat (n : Nat) (h : c.tokens = {.block ctx.func b k} + R) :
    Sat M (emitNumber ctx b n) c fun v d => c.Yields ctx.func b k R v d :=
  emitValue_sat h rfl rfl valued_nil

section

variable (h : c.tokens = {.block ctx.func b k} + R)
include h

theorem loadGlobal_sat :
    Sat M (loadGlobal ctx b name) c fun v d => c.Yields ctx.func b k R v d := by
  unfold loadGlobal
  refine .bind (emitValue_sat h rfl rfl valued_nil) ?_
  intro address d hd
  exact hd.extend (emitValue_sat hd.tokens rfl rfl (valued_one hd.valued))

theorem getNamed_sat (hv : c.Valued ctx.func v) :
    Sat M (getNamed ctx b v name) c fun v d => c.Yields ctx.func b k R v d := by
  unfold getNamed
  refine .bind (emitValue_sat h rfl rfl valued_nil) ?_
  intro key d hd
  exact hd.extend (emitValue_sat hd.tokens rfl rfl (valued_two (hv.mono hd.le) hd.valued))

theorem emitArray_sat (hvs : ∀ v ∈ vs, c.Valued ctx.func v) :
    Sat M (emit ctx b (.array vs)) c fun v d => c.Yields ctx.func b k R v d :=
  emitValue_sat h rfl rfl (by rw [Inst.operands_array]; exact hvs)

theorem callWith_sat {args : List InstId}
    (hu : c.Valued ctx.func u) (hv : c.Valued ctx.func v)
    (hargs : ∀ w ∈ args, c.Valued ctx.func w) :
    Sat M (callWith ctx b u v args) c fun v d => c.Yields ctx.func b k R v d := by
  unfold callWith
  refine .bind (emitArray_sat h hargs) ?_
  intro array d hd
  exact hd.extend (emitValue_sat hd.tokens rfl rfl
    (valued_three (hu.mono hd.le) (hv.mono hd.le) hd.valued))

end

theorem applyBinary_sat (op : BinaryOperator) (h : c.tokens = {.block ctx.func b k} + R)
    (hv : c.Valued ctx.func v) (hw : c.Valued ctx.func w) :
    Sat M (applyBinary ctx b op v w) c fun v d => c.Yields ctx.func b k R v d := by
  unfold applyBinary
  split
  · exact emitValue_sat h rfl rfl (valued_two hv hw)
  · refine .bind (loadGlobal_sat "Math" h) ?_
    intro math d hd
    refine .bind (getNamed_sat "pow" hd.tokens hd.valued) ?_
    intro pow e he
    have hle := hd.le.trans he.le
    exact (hd.trans he).extend (callWith_sat he.tokens he.valued (hd.valued.mono he.le)
      (valued_two (hv.mono hle) (hw.mono hle)))

theorem applyUnary_sat (op : UnaryOperator) (h : c.tokens = {.block ctx.func b k} + R)
    (hv : c.Valued ctx.func v) :
    Sat M (applyUnary ctx b op v) c fun v d => c.Yields ctx.func b k R v d := by
  unfold applyUnary
  split
  · exact emitValue_sat h rfl rfl (valued_one hv)
  · exact emitValue_sat h rfl rfl (valued_one hv)
  · exact emitValue_sat h rfl rfl (valued_one hv)
  · exact emitValue_sat h rfl rfl (valued_one hv)
  · exact emitValue_sat h rfl rfl valued_nil
  · exact emitValue_sat h rfl rfl valued_nil
  · refine .bind (emitNumber_sat 0 h) ?_
    intro origin d hd
    exact hd.extend (emitValue_sat hd.tokens rfl rfl (valued_two (hv.mono hd.le) hd.valued))

end Sequences

/-! ## Simple kinds -/

theorem failing_ok (w : Walk) (h : M.allowed e) : ExprOk M (failing e) w :=
  fun _ _ _ _ _ _ _ => .throw h

theorem instCode_ok (hi : i.isPlain = true) (hv : i.hasValue = true) (ho : i.operands = []) :
    ExprOk M (instCode i) .skip := by
  intro c ctx env b R ht _
  unfold instCode
  refine .bind (emitValue_sat ht hi hv (by rw [ho]; exact valued_nil)) ?_
  intro v d hd
  exact .pure ⟨⟨hd.quiet.still.grows, hd.tokens⟩, hd.valued⟩

theorem readIdentifier_ok : ExprOk M (readIdentifier name) (.use name) := by
  intro c ctx env b R ht hat
  unfold readIdentifier
  refine .bind (identifierAddress_sat ht hat name false) ?_
  rintro address d ⟨hd, haddress⟩
  refine .bind (emitValue_sat hd.tokens rfl rfl (valued_one haddress)) ?_
  intro v e he
  exact .pure (hd.yields he)

theorem literalCode_ok (l : Literal) : ExprOk M (literalCode l) .skip := by
  have hfail : ∀ construct, ExprOk M (failing (.unsupported construct l.loc)) .skip := fun _ =>
    failing_ok _ M.allows
  unfold literalCode
  split
  · exact instCode_ok rfl rfl rfl
  · split
    · exact hfail _
    · split
      · exact instCode_ok rfl rfl rfl
      · exact instCode_ok rfl rfl rfl
      · exact instCode_ok rfl rfl rfl
      · exact instCode_ok rfl rfl rfl
      · exact hfail _

/-! ## Lists of expressions -/

/-- Expressions that meet their contracts, with the references of all of them in turn. -/
inductive ExprsOk (M : Mode) : List ExprCode → Walk → Prop where
  | nil : ExprsOk M [] .skip
  | cons {code : ExprCode} {codes : List ExprCode} {v w : Walk} :
      ExprOk M code v → ExprsOk M codes w → ExprsOk M (code :: codes) (v ++ w)

section Lists

variable {w : Walk}

theorem evalList_sat (h : ExprsOk M codes w) (ht : c.tokens = {ctx.here b} + R) (hat : c.At ctx env R) :
    Sat M (evalList ctx b codes) c fun r d =>
      c.Runs ctx env R w r.1 d ∧ (∀ v ∈ r.2, d.Valued ctx.func v) ∧ r.2.length = codes.length := by
  induction h generalizing c b with
  | nil =>
    exact .pure ⟨⟨(Config.Quiet.refl c).still.grows, ht⟩, valued_nil, rfl⟩
  | cons hcode _ ih =>
    unfold evalList
    refine .bind (hcode c ctx env b R ht hat) ?_
    rintro r d ⟨hd, hv⟩
    refine .bind (ih hd.tokens (hat.mono hd.le)) ?_
    rintro ⟨b', vs⟩ e ⟨he, hvs, hlen⟩
    refine .pure ⟨hd.trans he, valued_cons (hv.mono he.le) hvs, ?_⟩
    rw [length_cons, length_cons, hlen]

theorem argumentsCode_ok {args : List ExprCode} (h : ExprsOk M args w) :
    ExprOk M (argumentsCode args) w := by
  intro c ctx env b R ht hat
  unfold argumentsCode
  refine .bind (evalList_sat h ht hat) ?_
  rintro ⟨b', vs⟩ d ⟨hd, hvs, _⟩
  refine .bind (emitArray_sat hd.tokens hvs) ?_
  intro v e he
  exact .pure (hd.yields he)

theorem sequenceCode_ok (h : ExprsOk M codes w)
    (hfault : codes = [] → M.allowed (.internal .emptySequence)) :
    ExprOk M (sequenceCode codes) w := by
  intro c ctx env b R ht hat
  unfold sequenceCode
  refine .bind (evalList_sat h ht hat) ?_
  rintro ⟨b', vs⟩ d ⟨hd, hvs, hlen⟩
  cases hlast : vs.getLast? with
  | none =>
    have hnil : vs = [] := getLast?_eq_none_iff.mp hlast
    simp only [hlast]
    refine .throw (hfault (eq_nil_of_length_eq_zero ?_))
    rw [← hlen, hnil]
    rfl
  | some v =>
    simp only [hlast]
    exact .pure ⟨hd, hvs v (mem_of_getLast? hlast)⟩

end Lists

/-! ## Arrays -/

/-- Segments whose parts meet their contracts, with the references of all of them in turn. -/
inductive SegmentsOk (M : Mode) : List Segment → Walk → Prop where
  | nil : SegmentsOk M [] .skip
  | run {items : List ExprCode} {segments : List Segment} {v w : Walk} :
      ExprsOk M items v → SegmentsOk M segments w → SegmentsOk M (.run items :: segments) (v ++ w)
  | spread {code : ExprCode} {segments : List Segment} {v w : Walk} :
      ExprOk M code v → SegmentsOk M segments w → SegmentsOk M (.spread code :: segments) (v ++ w)

section Arrays

variable {segments : List Segment} {item code : ExprCode} {v w : Walk}

theorem SegmentsOk.addItem (hitem : ExprOk M item v) (h : SegmentsOk M segments w) :
    SegmentsOk M (addItem item segments) (v ++ w) := by
  have hone : ExprsOk M [item] v := Walk.append_skip v ▸ .cons hitem .nil
  cases h with
  | nil => exact .run hone .nil
  | run hitems h =>
    rw [← Walk.append_assoc]
    exact .run (.cons hitem hitems) h
  | spread hcode h => exact .run hone (.spread hcode h)

theorem spreadCode_ok (h : ExprOk M code v) : ExprOk M (Segment.spread code).code v := by
  intro c ctx env b R ht hat
  refine .bind (h c ctx env b R ht hat) ?_
  rintro r d ⟨hd, hv⟩
  refine .bind (loadGlobal_sat "Array" hd.tokens) ?_
  intro array e he
  refine .bind (getNamed_sat "from" he.tokens he.valued) ?_
  intro convert e' he'
  refine .bind (callWith_sat he'.tokens he'.valued (he.valued.mono he'.le)
    (valued_one (hv.mono (he.le.trans he'.le)))) ?_
  intro piece g hg
  exact .pure (hd.yields ((he.trans he').trans hg))

theorem SegmentsOk.exprsOk (h : SegmentsOk M segments w) : ExprsOk M (segments.map Segment.code) w := by
  induction h with
  | nil => exact .nil
  | run hitems _ ih => exact .cons (argumentsCode_ok hitems) ih
  | spread hcode _ ih => exact .cons (spreadCode_ok hcode) ih

theorem arrayCode_ok {elements : List Element} (h : SegmentsOk M (cut elements) w) :
    ExprOk M (arrayCode elements) w := by
  rw [arrayCode_eq]
  intro c ctx env b R ht hat
  refine .bind (evalList_sat h.exprsOk ht hat) ?_
  rintro ⟨b', vs⟩ d ⟨hd, hvs, _⟩
  cases vs with
  | nil =>
    refine .bind (emitArray_sat hd.tokens valued_nil) fun v e he => ?_
    exact .pure (hd.yields he)
  | cons first rest =>
    rw [forall_mem_cons] at hvs
    dsimp only [joinCode]
    unfold concatCode
    split
    · exact .pure ⟨hd, hvs.1⟩
    refine .bind (loadGlobal_sat "Array" hd.tokens) ?_
    intro array g hg
    refine .bind (getNamed_sat "prototype" hg.tokens hg.valued) ?_
    intro prototype g1 hg1
    refine .bind (getNamed_sat "concat" hg1.tokens hg1.valued) ?_
    intro concat g2 hg2
    have hyields := (hg.trans hg1).trans hg2
    refine .bind (callWith_sat hg2.tokens hg2.valued (hvs.1.mono hyields.le)
      fun v hv => (hvs.2 v hv).mono hyields.le) ?_
    intro v g3 hg3
    exact .pure (hd.yields (hyields.trans hg3))

end Arrays

/-! ## Objects -/

/-- Members that meet their contracts, with the references of all of them in turn. A name that cannot
be had is an allowed error. -/
inductive MembersOk (M : Mode) : List (Except Error String × ExprCode) → Walk → Prop where
  | nil : MembersOk M [] .skip
  | cons {name : Except Error String} {code : ExprCode} {members : List (Except Error String × ExprCode)}
      {v w : Walk} : (∀ e, name = .error e → M.allowed e) → ExprOk M code v →
      MembersOk M members w → MembersOk M ((name, code) :: members) (v ++ w)

section Objects

variable {w : Walk}

theorem evalMembers_sat (h : MembersOk M members w) (ht : c.tokens = {ctx.here b} + R)
    (hat : c.At ctx env R) :
    Sat M (evalMembers ctx b members) c fun r d =>
      c.Runs ctx env R w r.1 d ∧ ∀ e ∈ r.2, d.Valued ctx.func e.1 ∧ d.Valued ctx.func e.2 := by
  induction h generalizing c b with
  | nil => exact .pure ⟨⟨(Config.Quiet.refl c).still.grows, ht⟩, nofun⟩
  | cons hname hcode _ ih =>
    unfold evalMembers
    refine .bind (.ofExcept (P := fun _ d => d = c) (fun _ _ => rfl) hname) ?_
    rintro name _ rfl
    refine .bind (emitValue_sat ht rfl rfl valued_nil) ?_
    intro key d hd
    refine .bind (hcode d ctx env b R hd.tokens (hat.mono hd.le)) ?_
    rintro r d' ⟨hd', hv⟩
    refine .bind (ih hd'.tokens ((hat.mono hd.le).mono hd'.le)) ?_
    rintro ⟨b', props⟩ e ⟨he, hprops⟩
    refine .pure ⟨⟨hd.quiet.still.then (hd'.grows.trans he.grows), he.tokens⟩, ?_⟩
    refine forall_mem_cons.mpr ⟨⟨?_, hv.mono he.le⟩, hprops⟩
    exact hd.valued.mono (hd'.le.trans he.le)

theorem objectCode_ok (h : MembersOk M members w) : ExprOk M (objectCode members) w := by
  intro c ctx env b R ht hat
  unfold objectCode
  refine .bind (evalMembers_sat h ht hat) ?_
  rintro ⟨b', props⟩ d ⟨hd, hprops⟩
  refine .bind (emitValue_sat hd.tokens rfl rfl ?_) ?_
  · rw [Inst.operands_object]
    intro o ho
    obtain ⟨e, he, ho⟩ := mem_flatMap.mp ho
    exact valued_two (hprops e he).1 (hprops e he).2 o ho
  · intro v e he
    exact .pure (hd.yields he)

end Objects

/-! ## Members and places -/

/-- The contract of a member with the references of a walk. -/
def TargetOk (M : Mode) (code : TargetCode) (w : Walk) : Prop :=
  ∀ (c : Config M.strict) (ctx : Ctx) (env : Env) (b : BlockId) (R : Multiset Token),
    c.tokens = {ctx.here b} + R → c.At ctx env R →
    Sat M (code ctx b) c fun t d =>
      c.Runs ctx env R w t.block d ∧ d.Valued ctx.func t.object ∧ d.Valued ctx.func t.key

/-- A place whose parts can be used. -/
def Place.Valued (p : Layout) (f : Nat) : Place → Prop
  | .slot address => p.Valued f address
  | .member object key => p.Valued f object ∧ p.Valued f key

theorem Place.Valued.mono (h : place.Valued p f) (hpq : p.Extends strict q) : place.Valued q f := by
  cases place with
  | slot address => exact Valued.mono h hpq
  | member object key => exact ⟨h.1.mono hpq, h.2.mono hpq⟩

/-- The contract of the target of an assignment with the references of a walk. -/
def PlaceOk (M : Mode) (code : PlaceCode) (w : Walk) : Prop :=
  ∀ (c : Config M.strict) (ctx : Ctx) (env : Env) (b : BlockId) (R : Multiset Token),
    c.tokens = {ctx.here b} + R → c.At ctx env R →
    Sat M (code ctx b) c fun r d => c.Runs ctx env R w r.1 d ∧ r.2.Valued d.toLayout ctx.func

section Members

variable {v w : Walk} {target : TargetCode}

theorem memberTarget_ok {object property : Expression} {computed : Bool}
    {objectCode propertyCode : ExprCode} (ho : ExprOk M objectCode v)
    (hp : computed = true → ExprOk M propertyCode w)
    (hkey : computed = false → ∀ e, memberKey property = .error e → M.allowed e) :
    TargetOk M (memberTarget object property computed objectCode propertyCode)
      (v ++ if computed then w else .skip) := by
  intro c ctx env b R ht hat
  unfold memberTarget
  extract_lets rest
  split
  · exact .unsupported_bind ..
  · refine .bind (ho c ctx env b R ht hat) ?_
    rintro o d ⟨hd, hv⟩
    cases computed with
    | true =>
      refine .bind (hp rfl d ctx env o.block R hd.tokens (hat.mono hd.le)) ?_
      rintro k e ⟨he, hk⟩
      exact .pure ⟨hd.trans he, hv.mono he.le, hk⟩
    | false =>
      refine .bind (.ofExcept (P := fun _ e => e = d) (fun _ _ => rfl) (hkey rfl)) ?_
      rintro name _ rfl
      refine .bind (emitValue_sat hd.tokens rfl rfl valued_nil) ?_
      intro key e he
      refine .pure ⟨?_, hv.mono he.le, he.valued⟩
      rw [if_neg Bool.false_ne_true, Walk.append_skip]
      exact hd.quiet he.quiet he.tokens

theorem memberCode_ok (h : TargetOk M target w) : ExprOk M (memberCode target) w := by
  intro c ctx env b R ht hat
  unfold memberCode
  refine .bind (h c ctx env b R ht hat) ?_
  rintro t d ⟨hd, hobject, hkey⟩
  refine .bind (emitValue_sat hd.tokens rfl rfl (valued_two hobject hkey)) ?_
  intro v e he
  exact .pure (hd.yields he)

theorem identifierPlace_ok : PlaceOk M (identifierPlace name) (.use name) := by
  intro c ctx env b R ht hat
  unfold identifierPlace
  refine .bind (identifierAddress_sat ht hat name true) ?_
  rintro address d ⟨hd, haddress⟩
  exact .pure ⟨hd, haddress⟩

theorem memberPlace_ok (h : TargetOk M target w) : PlaceOk M (memberPlace target) w := by
  intro c ctx env b R ht hat
  unfold memberPlace
  refine .bind (h c ctx env b R ht hat) ?_
  rintro t d ⟨hd, hobject, hkey⟩
  exact .pure ⟨hd, hobject, hkey⟩

theorem readPlace_sat (h : c.tokens = {ctx.here b} + R) (hplace : place.Valued c.toLayout ctx.func) :
    Sat M (readPlace ctx b place) c fun v d => c.Yields ctx.func b ctx.scope R v d := by
  cases place with
  | slot address => exact emitValue_sat h rfl rfl (valued_one hplace)
  | member object key => exact emitValue_sat h rfl rfl (valued_two hplace.1 hplace.2)

theorem writePlace_sat (h : c.tokens = {ctx.here b} + R)
    (hplace : place.Valued c.toLayout ctx.func) (hvalue : c.Valued ctx.func value) :
    Sat M (writePlace ctx b place value) c fun _ d =>
      c.Quiet d ∧ d.tokens = {ctx.here b} + R := by
  cases place with
  | slot address => exact perform_sat h rfl (valued_two hplace hvalue)
  | member object key => exact perform_sat h rfl (valued_three hplace.1 hplace.2 hvalue)

end Members

/-! ## Operators -/

section Operators

variable {v w : Walk} {target : TargetCode} {left right operand : ExprCode}

theorem binaryCode_ok (op : BinaryOperator) (hl : ExprOk M left v) (hr : ExprOk M right w) :
    ExprOk M (binaryCode op left right) (v ++ w) := by
  intro c ctx env b R ht hat
  unfold binaryCode
  refine .bind (hl c ctx env b R ht hat) ?_
  rintro l d ⟨hd, hlv⟩
  refine .bind (hr d ctx env l.block R hd.tokens (hat.mono hd.le)) ?_
  rintro r e ⟨he, hrv⟩
  refine .bind (applyBinary_sat op he.tokens (hlv.mono he.le) hrv) ?_
  intro value g hg
  exact .pure ((hd.trans he).yields hg)

theorem deleteCode_ok {e : Expression} {target : Option TargetCode}
    (h : ∀ t, target = some t → TargetOk M t w) : ExprOk M (deleteCode e target) w := by
  unfold deleteCode
  split
  · next t =>
    intro c ctx env b R ht hat
    refine .bind (h t rfl c ctx env b R ht hat) ?_
    rintro t d ⟨hd, hobject, hkey⟩
    refine .bind (emitValue_sat hd.tokens rfl rfl (valued_two hobject hkey)) ?_
    intro value g hg
    exact .pure (hd.yields hg)
  · exact failing_ok _ M.allows

theorem unaryCode_ok {op : UnaryOperator} {e : Expression} {target : Option TargetCode}
    (htarget : ∀ t, target = some t → TargetOk M t w) (hoperand : ExprOk M operand w) :
    ExprOk M (unaryCode op e target operand) w := by
  unfold unaryCode
  split
  · exact deleteCode_ok htarget
  · intro c ctx env b R ht hat
    refine .bind (hoperand c ctx env b R ht hat) ?_
    rintro r d ⟨hd, hv⟩
    refine .bind (applyUnary_sat op hd.tokens hv) ?_
    intro value g hg
    exact .pure (hd.yields hg)

theorem updateCode_ok {place : PlaceCode} (op : UpdateOperator) (prefixed : Bool)
    (h : PlaceOk M place w) : ExprOk M (updateCode op prefixed place) w := by
  intro c ctx env b R ht hat
  unfold updateCode
  refine .bind (h c ctx env b R ht hat) ?_
  rintro ⟨b', place⟩ d ⟨hd, hplace⟩
  refine .bind (readPlace_sat hd.tokens hplace) ?_
  intro old e he
  refine .bind (emitNumber_sat 1 he.tokens) ?_
  intro one e1 he1
  refine .bind (emitValue_sat he1.tokens rfl rfl (valued_two (he.valued.mono he1.le) he1.valued)) ?_
  intro new e2 he2
  have hyields := (he.trans he1).trans he2
  refine .bind (writePlace_sat he2.tokens (hplace.mono hyields.le) he2.valued) ?_
  rintro _ e3 ⟨hq, ht'⟩
  have hnew := he2.valued.mono hq.le
  have hold := he.valued.mono ((he1.trans he2).le.trans hq.le)
  refine .bind (emitValue_sat ht' rfl rfl (valued_one (v := if prefixed then new else old) ?_)) ?_
  · split
    · exact hnew
    · exact hold
  · intro value g hg
    exact .pure ((hd.quiet (hyields.quiet.trans hq) ht').yields hg)

theorem assignmentCode_ok {place : PlaceCode} (op : AssignmentOperator) (loc : Option Location)
    (hplace : PlaceOk M place v) (hright : ExprOk M right w) :
    ExprOk M (assignmentCode op loc place right) (v ++ w) := by
  cases op with
  | logical op => exact failing_ok _ M.allows
  | assign =>
    intro c ctx env b R ht hat
    refine .bind (hplace c ctx env b R ht hat) ?_
    rintro ⟨b', place⟩ d ⟨hd, hp⟩
    refine .bind (hright d ctx env b' R hd.tokens (hat.mono hd.le)) ?_
    rintro r e ⟨he, hr⟩
    refine .bind (writePlace_sat he.tokens (hp.mono he.le) hr) ?_
    rintro _ g ⟨hq, ht'⟩
    refine .bind (emitValue_sat ht' rfl rfl (valued_one (hr.mono hq.le))) ?_
    intro value g' hg
    exact .pure (((hd.trans he).quiet hq ht').yields hg)
  | compound op =>
    intro c ctx env b R ht hat
    refine .bind (hplace c ctx env b R ht hat) ?_
    rintro ⟨b', place⟩ d ⟨hd, hp⟩
    refine .bind (readPlace_sat hd.tokens hp) ?_
    intro old d' hold
    have hd' := hd.quiet hold.quiet hold.tokens
    refine .bind (hright d' ctx env b' R hold.tokens (hat.mono hd'.le)) ?_
    rintro r e ⟨he, hr⟩
    refine .bind (applyBinary_sat op he.tokens (hold.valued.mono he.le) hr) ?_
    intro value e' he'
    refine .bind (writePlace_sat he'.tokens (hp.mono (hold.le.trans (he.le.trans he'.le))) he'.valued) ?_
    rintro _ g ⟨hq, ht'⟩
    refine .bind (emitValue_sat ht' rfl rfl (valued_one (he'.valued.mono hq.le))) ?_
    intro result g' hg
    exact .pure (((hd'.trans he).quiet (he'.quiet.trans hq) ht').yields hg)

end Operators

/-! ## Branches -/

section Branches

variable {u v w : Walk} {left right test consequent alternate : ExprCode}

theorem Config.At.newBlockIn_sat (hat : c.At ctx env R) (k : ScopeId) : Sat M (newBlock ctx) c fun b d =>
      c.Quiet d ∧ d.tokens = {.block ctx.func b k} + c.tokens ∧ d.HasBlock ctx.func b k := by
  have hpos : 0 < c.blockCount ctx.func := Nat.zero_lt_of_lt hat.room
  refine .mono (Lower.newBlock_sat k (State.lt_fnCount_of_blockCount hpos) (.inl hpos)) ?_
  rintro b d ⟨hq, ht, hb, _⟩
  exact ⟨hq, ht, hb⟩

theorem Config.At.newBlock_sat (hat : c.At ctx env R) : Sat M (newBlock ctx) c fun b d =>
      c.Quiet d ∧ d.tokens = {ctx.here b} + c.tokens ∧
        d.HasBlock ctx.func b ctx.scope := hat.newBlockIn_sat ctx.scope

theorem logicalBranch_sat {l : Lowered} {second following : BlockId} (op : LogicalOperator)
    (h : c.tokens = {ctx.here l.block} + R) (hl : c.Valued ctx.func l.value)
    (hsecond : c.HasBlock ctx.func second ctx.scope)
    (hfollowing : c.HasBlock ctx.func following ctx.scope) :
    Sat M (logicalBranch ctx op l second following) c fun _ d => c.Quiet d ∧ d.tokens = R := by
  cases op with
  | and => exact branch_sat h hl hsecond hfollowing
  | or => exact branch_sat h hl hfollowing hsecond
  | nullish =>
    refine .bind (emitValue_sat h rfl rfl valued_nil) ?_
    intro null d hd
    refine .bind (emitValue_sat hd.tokens rfl rfl (valued_two (hl.mono hd.le) hd.valued)) ?_
    intro missing e he
    have hyields := hd.trans he
    refine .mono (branch_sat he.tokens he.valued (hsecond.mono hyields.le) (hfollowing.mono hyields.le)) ?_
    rintro _ g ⟨hq, ht⟩
    exact ⟨hyields.quiet.trans hq, ht⟩

theorem logicalCode_ok (op : LogicalOperator) (hl : ExprOk M left v) (hr : ExprOk M right w) :
    ExprOk M (logicalCode op left right) (v ++ w) := by
  intro c ctx env b R ht hat
  unfold logicalCode
  refine .bind (hl c ctx env b R ht hat) ?_
  rintro l d ⟨hd, hlv⟩
  have hat0 := hat.mono hd.le
  refine .bind hat0.newBlock_sat ?_
  rintro second d1 ⟨hq1, ht1, hsecond⟩
  refine .bind (hat0.mono hq1.le).newBlock_sat ?_
  rintro following d2 ⟨hq2, ht2, hfollowing⟩
  have hq := hq1.trans hq2
  have hopen : d2.tokens = {ctx.here l.block} + ({ctx.here second} + ({ctx.here following} + R)) := by
    rw [ht2, ht1, hd.tokens]
    ac_rfl
  refine .bind (logicalBranch_sat op hopen (hlv.mono hq.le) (hsecond.mono hq2.le) hfollowing) ?_
  rintro _ d3 ⟨hq3, ht3⟩
  have hquiet := hq.trans hq3
  have hat3 := (hat0.mono hquiet.le).add (ctx.here following)
  refine .bind (hr d3 ctx env second _ ht3 hat3) ?_
  rintro r e ⟨he, hrv⟩
  refine .bind (jump_sat he.tokens ((hfollowing.mono hq3.le).mono he.le)) ?_
  rintro _ g ⟨hq4, ht4⟩
  refine .bind (emitPhi_sat ht4 ?_) ?_
  · have hle := hquiet.le.trans (he.le.trans hq4.le)
    refine forall_mem_cons.mpr ⟨⟨?_, hlv.mono hle⟩, forall_mem_singleton.mpr ⟨?_, ?_⟩⟩
    · exact (d.block_lt hd.tokens).trans_le (hle.blockCount _)
    · exact (e.block_lt he.tokens).trans_le (hq4.le.blockCount _)
    · exact hrv.mono hq4.le
  · intro value g' hg
    refine .pure ⟨⟨?_, hg.tokens⟩, hg.valued rfl⟩
    exact (hd.grows.still hquiet.still).trans (he.grows.still (hq4.trans hg.quiet).still)

theorem conditionalCode_ok (ht : ExprOk M test u) (ha : ExprOk M consequent v)
    (hb : ExprOk M alternate w) :
    ExprOk M (conditionalCode test consequent alternate) (u ++ (v ++ w)) := by
  intro c ctx env b R htok hat
  unfold conditionalCode
  refine .bind (ht c ctx env b R htok hat) ?_
  rintro t d ⟨hd, htv⟩
  have hat0 := hat.mono hd.le
  refine .bind hat0.newBlock_sat ?_
  rintro first d1 ⟨hq1, ht1, hfirst⟩
  refine .bind (hat0.mono hq1.le).newBlock_sat ?_
  rintro second d2 ⟨hq2, ht2, hsecond⟩
  refine .bind ((hat0.mono hq1.le).mono hq2.le).newBlock_sat ?_
  rintro join d3 ⟨hq3, ht3, hjoin⟩
  have hq := (hq1.trans hq2).trans hq3
  have hopen : d3.tokens = {ctx.here t.block} + ({ctx.here first} + ({ctx.here second} +
        ({ctx.here join} + R))) := by
    rw [ht3, ht2, ht1, hd.tokens]
    ac_rfl
  refine .bind (branch_sat hopen (htv.mono hq.le) ((hfirst.mono hq2.le).mono hq3.le)
    (hsecond.mono hq3.le)) ?_
  rintro _ d4 ⟨hq4, ht4⟩
  have hquiet := hq.trans hq4
  have hat4 := (hat0.mono hquiet.le).add (ctx.here join)
  refine .bind (ha d4 ctx env first _ ht4 (hat4.add _)) ?_
  rintro ra e ⟨he, hav⟩
  refine .bind (jump_sat he.tokens ((hjoin.mono hq4.le).mono he.le)) ?_
  rintro _ e1 ⟨hq5, ht5⟩
  refine .bind (hb e1 ctx env second _ ht5 ((hat4.mono he.le).mono hq5.le)) ?_
  rintro rb g ⟨hg, hbv⟩
  refine .bind (jump_sat hg.tokens ((((hjoin.mono hq4.le).mono he.le).mono hq5.le).mono hg.le)) ?_
  rintro _ g1 ⟨hq6, ht6⟩
  refine .bind (emitPhi_sat ht6 ?_) ?_
  · have hle := hq5.le.trans (hg.le.trans hq6.le)
    refine forall_mem_cons.mpr ⟨⟨?_, hav.mono hle⟩, forall_mem_singleton.mpr ⟨?_, ?_⟩⟩
    · exact (e.block_lt he.tokens).trans_le (hle.blockCount _)
    · exact (g.block_lt hg.tokens).trans_le (hq6.le.blockCount _)
    · exact hbv.mono hq6.le
  · intro value g2 hg2
    refine .pure ⟨⟨?_, hg2.tokens⟩, hg2.valued rfl⟩
    exact (hd.grows.still hquiet.still).trans
      ((he.grows.still hq5.still).trans (hg.grows.still (hq6.trans hg2.quiet).still))

end Branches

/-! ## Calls -/

section Calls

variable {v w : Walk} {callee : ExprCode} {args : List ExprCode}

theorem calleeCode_sat {target : Option TargetCode} (htarget : ∀ t, target = some t → TargetOk M t v)
    (hcallee : ExprOk M callee v) (ht : c.tokens = {ctx.here b} + R)
    (hat : c.At ctx env R) :
    Sat M (calleeCode target callee ctx b) c fun r d =>
      c.Runs ctx env R v r.1 d ∧ d.Valued ctx.func r.2.1 ∧ d.Valued ctx.func r.2.2 := by
  unfold calleeCode
  split
  · next t =>
    refine .bind (htarget t rfl c ctx env b R ht hat) ?_
    rintro t d ⟨hd, hobject, hkey⟩
    refine .bind (emitValue_sat hd.tokens rfl rfl (valued_two hobject hkey)) ?_
    intro method e he
    exact .pure ⟨hd.quiet he.quiet he.tokens, he.valued, hobject.mono he.le⟩
  · refine .bind (hcallee c ctx env b R ht hat) ?_
    rintro r d ⟨hd, hv⟩
    refine .bind (emitValue_sat hd.tokens rfl rfl valued_nil) ?_
    intro receiver e he
    exact .pure ⟨hd.quiet he.quiet he.tokens, hv.mono he.le, he.valued⟩

theorem callCode_ok {target : Option TargetCode} (htarget : ∀ t, target = some t → TargetOk M t v)
    (hcallee : ExprOk M callee v) (hargs : ExprsOk M args w) :
    ExprOk M (callCode target callee args) (v ++ w) := by
  intro c ctx env b R ht hat
  unfold callCode
  refine .bind (calleeCode_sat htarget hcallee ht hat) ?_
  rintro ⟨b', callee, receiver⟩ d ⟨hd, hcallee, hreceiver⟩
  refine .bind (argumentsCode_ok hargs d ctx env b' R hd.tokens (hat.mono hd.le)) ?_
  rintro a e ⟨he, hav⟩
  refine .bind (emitValue_sat he.tokens rfl rfl
    (valued_three (hcallee.mono he.le) (hreceiver.mono he.le) hav)) ?_
  intro value g hg
  exact .pure ((hd.trans he).yields hg)

theorem constructCode_ok (hcallee : ExprOk M callee v) (hargs : ExprsOk M args w) :
    ExprOk M (constructCode callee args) (v ++ w) := by
  intro c ctx env b R ht hat
  unfold constructCode
  refine .bind (hcallee c ctx env b R ht hat) ?_
  rintro r d ⟨hd, hcallee⟩
  refine .bind (argumentsCode_ok hargs d ctx env r.block R hd.tokens (hat.mono hd.le)) ?_
  rintro a e ⟨he, hav⟩
  refine .bind (emitValue_sat he.tokens rfl rfl (valued_two (hcallee.mono he.le) hav)) ?_
  intro value g hg
  exact .pure ((hd.trans he).yields hg)

end Calls

/-! ## Templates -/

theorem nextText_external (M : Mode) {loc : Option Location} (h : nextText loc texts = .error e) :
    M.allowed e := by
  unfold nextText at h
  split at h
  · cases h
  · cases h
    exact M.allows

theorem evalTemplate_sat {w : Walk} (h : ExprsOk M codes w) (loc : Option Location)
    (ht : c.tokens = {ctx.here b} + R) (hat : c.At ctx env R)
    (hvalue : c.Valued ctx.func value) :
    Sat M (evalTemplate ctx loc b value texts codes) c fun r d =>
      c.Runs ctx env R w r.block d ∧ d.Valued ctx.func r.value := by
  induction h generalizing c b value texts with
  | nil => exact .pure ⟨⟨(Config.Quiet.refl c).still.grows, ht⟩, hvalue⟩
  | cons hcode _ ih =>
    unfold evalTemplate
    refine .bind (hcode c ctx env b R ht hat) ?_
    rintro r d ⟨hd, hv⟩
    refine .bind (.ofExcept (P := fun _ e => e = d) (fun _ _ => rfl) fun _ => nextText_external M) ?_
    rintro ⟨text, texts'⟩ _ rfl
    refine .bind (emitValue_sat hd.tokens rfl rfl (valued_two (hvalue.mono hd.le) hv)) ?_
    intro sum e he
    have hat' := hat.mono (hd.le.trans he.le)
    have he' := hd.quiet he.quiet he.tokens
    split
    · refine .mono (ih he.tokens hat' he.valued) ?_
      rintro r' g ⟨hg, hgv⟩
      exact ⟨he'.trans hg, hgv⟩
    · refine .bind (emitValue_sat he.tokens rfl rfl valued_nil) ?_
      intro piece e1 he1
      refine .bind (emitValue_sat he1.tokens rfl rfl
        (valued_two (he.valued.mono he1.le) he1.valued)) ?_
      intro sum' e2 he2
      have hyields := he1.trans he2
      refine .mono (ih he2.tokens (hat'.mono hyields.le) he2.valued) ?_
      rintro r' g ⟨hg, hgv⟩
      exact ⟨(he'.quiet hyields.quiet he2.tokens).trans hg, hgv⟩

theorem templateCode_ok {w : Walk} (h : ExprsOk M codes w) (texts : List (Option String))
    (loc : Option Location) : ExprOk M (templateCode texts codes loc) w := by
  intro c ctx env b R ht hat
  unfold templateCode
  refine .bind (.ofExcept (P := fun _ e => e = c) (fun _ _ => rfl) fun _ => nextText_external M) ?_
  rintro ⟨text, texts'⟩ _ rfl
  refine .bind (emitValue_sat ht rfl rfl valued_nil) ?_
  intro value d hd
  refine .mono (evalTemplate_sat h loc hd.tokens (hat.mono hd.le) hd.valued) ?_
  rintro r e ⟨he, hv⟩
  exact ⟨⟨hd.quiet.still.then he.grows, he.tokens⟩, hv⟩

end ScriptIr.Lower
