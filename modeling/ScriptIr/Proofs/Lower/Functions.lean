import ScriptIr.Proofs.Lower.Frames
import ScriptIr.Proofs.Lower.Parameters
import ScriptIr.Proofs.Lower.Patterns

/-!
# Contracts of functions

A function takes its parameters, the list of all arguments and the rest parameter before the names of
its body. When the body has been lowered, the closure holds the slots of all names that the function
captures.

* `functionCode_sat`: a function of the module.
* `closureCode_ok`: the closure of a function.
-/
namespace ScriptIr

variable {names : List String}

namespace Tree

theorem Walk.declaring_congr {others : List String} (w : Walk) (ps : Positions)
    (h : ∀ name, name ∈ names ↔ name ∈ others) :
    Walk.declaring names w ps = Walk.declaring others w ps := by
  have hdeclare : ∀ (env : Env) (scope : Nat),
      env.declare names scope ps = env.declare others scope ps := by
    intro env scope
    funext name
    unfold Env.declare
    simp only [h]
  funext env scope
  unfold Walk.declaring
  rw [hdeclare]

end Tree

namespace Lower

open Code ScriptIr.Tree Layout List Scope

variable {M : Mode} {strict : Prop}
  {c : Config M.strict} {ctx : Ctx} {R : Multiset Token} {w : Walk} {ps : List Pattern}
  {rest : Option String} {d : Config strict} {g : Nat} {k : ScopeId} {env : Env} {body : BodyCode}
  {h : Header}

/-! ## Bodies -/

/-- The contract of a list of statements that declares some names, with the references of a walk. It
starts in a scope that takes names. -/
def ListOk (M : Mode) (code : StmtCode) (names : List String) (w : Walk) : Prop :=
  ∀ (c : Config M.strict) (ctx : Ctx) (env : Env) (b : BlockId) (ns : List String)
    (R : Multiset Token) (ps : Positions),
    c.tokens = {ctx.here b} + ({.scope ctx.scope (.naming ns)} + R) →
    c.Fresh ctx b env R ps →
    Sat M (code ctx b) c fun b' d =>
      c.Grows (env.declare (ns ++ names) ctx.scope ps) w d ∧
        d.tokens = {ctx.here b'} + ({.scope ctx.scope .running} + R)

/-- The contract of a function body that declares some names, with the references of a walk. It ends
by leaving the function. -/
def BodyOk (M : Mode) (code : BodyCode) (names : List String) (w : Walk) : Prop :=
  ∀ (c : Config M.strict) (ctx : Ctx) (env : Env) (b : BlockId) (ns : List String)
    (R : Multiset Token) (ps : Positions),
    c.tokens = {ctx.here b} + ({.scope ctx.scope (.naming ns)} + R) →
    c.Fresh ctx b env R ps → c.kind ctx.scope = .function →
    Sat M (code ctx b) c fun _ d =>
      c.Grows (env.declare (ns ++ names) ctx.scope ps) w d ∧ d.tokens = {.scope ctx.scope .running} + R

theorem returnUndefined_sat {b : BlockId} (h : c.tokens = {ctx.here b} + R)
    (hk : ctx.scope < c.scopeCount) (hkind : c.kind ctx.scope = .function) :
    Sat M (returnUndefined ctx b) c fun _ d => c.Quiet d ∧ d.tokens = R := by
  unfold returnUndefined
  refine .bind (emitValue_sat h rfl rfl valued_nil) ?_
  intro v d hd
  refine .mono (ret_sat hd.tokens hd.valued (hk.trans_le hd.le.size) ((hd.le.kind _ hk).trans hkind)) ?_
  rintro _ e ⟨hq, ht⟩
  exact ⟨hd.quiet.trans hq, ht⟩

theorem statementBody_ok {code : StmtCode} (h : ListOk M code names w) :
    BodyOk M (statementBody code) names w := by
  intro c ctx env b ns R ps ht hfresh hkind
  unfold statementBody
  refine .bind (h c ctx env b ns R ps ht hfresh) ?_
  rintro last d ⟨hgrows, ht'⟩
  refine .mono (returnUndefined_sat ht' (hfresh.scope.trans_le hgrows.le.size)
    ((hgrows.le.kind _ hfresh.scope).trans hkind)) ?_
  rintro _ e ⟨hq, ht''⟩
  exact ⟨hgrows.still hq.still, ht''⟩

theorem expressionBody_ok {code : ExprCode} (h : ExprOk M code w) :
    BodyOk M (expressionBody code) [] w := by
  intro c ctx env b ns R ps ht hfresh hkind
  obtain ⟨d, hstate, hq, ht', hat⟩ := Config.exists_settled (ht.trans (add_left_comm ..)) hfresh
  refine .of_same_state hstate ?_
  unfold expressionBody
  refine .bind (h d ctx _ b _ (ht'.trans (add_left_comm ..)) hat) ?_
  rintro r e ⟨he, hv⟩
  have hlt := hfresh.scope.trans_le (hq.le.trans he.le).size
  refine .mono (ret_sat he.tokens hv hlt (((hq.le.trans he.le).kind _ hfresh.scope).trans hkind)) ?_
  rintro _ g ⟨hq', ht''⟩
  rw [append_nil]
  exact ⟨hq.still.then (he.grows.still hq'.still), ht''⟩

/-! ## Headers -/

def Header.implicitNames (h : Header) : List String :=
  if h.kind = .function then ["arguments"] else []

theorem Parameters.boundNames (h : Parameters ps names rest) :
    ps.flatMap Pattern.boundNames = names ++ rest.toList := by
  induction h with
  | nil | rest => rfl
  | plain id _ ih =>
    rw [flatMap_cons, ih]
    rfl

/-- The plain names come first, so each stands at the position of its parameter. -/
theorem Parameters.positions (h : Parameters ps names rest) (name : String) :
    Tree.positions ps name = names.idxOf? name := by
  induction h with
  | nil | rest => rfl
  | plain id _ ih =>
    unfold Tree.positions at ih ⊢
    rw [findIdx?_cons, idxOf?_cons, ih]
    rfl

theorem parameterNames_external (M : Mode) {e : Error} (h : parameterNames ps = .error e) :
    M.allowed e := by
  fun_induction parameterNames ps with
  | case1 => cases h
  | case2 id params ih =>
    cases hps : parameterNames params with
    | error e' => rw [hps] at h; cases h; exact ih hps
    | ok r => rw [hps] at h; cases h
  | case3 => cases h
  | case4 | case5 | case6 => cases h; exact M.allows

theorem checkHeader_sat (h : Header) : Sat M (checkHeader h) c fun _ d => c = d := by
  unfold checkHeader
  extract_lets rest
  split
  · exact .unsupported_bind ..
  · show Sat M (if h.isAsync then unsupported .asyncFunction h.loc else pure ()) c _
    split
    · exact .unsupported ..
    · exact .pure rfl

section Headers

variable {b : BlockId} {ns : List String} {ps : Positions}

/-- What has entered the scope of a function besides the names `ns`. -/
structure Config.Headed (c : Config strict) (ctx : Ctx) (b : BlockId) (ns : List String)
    (R : Multiset Token) (d : Config strict) : Prop where
  still : c.Still d
  tokens : d.tokens = {ctx.here b} + ({.scope ctx.scope (.naming ns)} + R)

theorem declareArguments_sat (h : Header)
    (ht : c.tokens = {ctx.here b} + ({.scope ctx.scope (.naming ns)} + R))
    (hfresh : c.Fresh ctx b env R ps) :
    Sat M (declareArguments h ns ctx b) c fun _ d =>
      ∃ ns', c.Headed ctx b ns' R d ∧ (∀ n, n ∈ ns' ↔ n ∈ h.implicitNames ++ ns) ∧
        (d.scopes.get ctx.scope).rest = (c.scopes.get ctx.scope).rest := by
  unfold declareArguments
  split
  · next hcond =>
    obtain ⟨hkind, hnew⟩ := Bool.and_eq_true_iff.mp hcond
    have hname : "arguments" ∉ ns := by simpa using hnew
    refine .bind (emitAlloca_sat ht hfresh.scope hfresh.home fun _ hk => (hfresh.entered hk).2) ?_
    intro slot d hd
    refine .bind (emitValue_sat hd.tokens rfl rfl valued_nil) ?_
    intro arguments d1 hd1
    refine .bind (perform_sat hd1.tokens rfl
      (valued_two ((hd.valued rfl).mono hd1.le) hd1.valued)) ?_
    rintro _ d2 ⟨hq, ht2⟩
    have hquiet := (hd.quiet.trans hd1.quiet).trans hq
    have hslot := (hfresh.mono hquiet.le).slot_first ht2
    refine .discard (.mono (declareNew_sat false hslot hname) ?_)
    intro _ e he
    refine ⟨ns ++ ["arguments"], ⟨hquiet.still.trans he.still, ?_⟩, fun n => ?_, ?_⟩
    · rw [he.tokens]
      ac_rfl
    · unfold Header.implicitNames
      rw [if_pos (of_decide_eq_true hkind), mem_append, mem_append]
      exact or_comm
    · rw [he.rest, hquiet.scopes]
  · next hcond =>
    refine .pure ⟨ns, ⟨(Config.Quiet.refl c).still, ht⟩, fun n => ?_, rfl⟩
    unfold Header.implicitNames
    split
    · next hkind =>
      have hin : "arguments" ∈ ns := by simpa [hkind] using hcond
      rw [mem_append, mem_singleton]
      exact ⟨.inr, fun ho => ho.elim (fun he => he ▸ hin) id⟩
    · rfl

theorem declareRest_sat (skip : Nat) (name : String)
    (ht : c.tokens = {ctx.here b} + ({.scope ctx.scope (.naming ns)} + R))
    (hfresh : c.Fresh ctx b env R ps) (hkind : c.kind ctx.scope = .function)
    (hrest : (c.scopes.get ctx.scope).rest = none) :
    Sat M (declareRest ctx b skip name) c fun _ d => c.Headed ctx b (ns ++ [name]) R d := by
  unfold declareRest
  refine .bind (loadGlobal_sat "Array" ht) ?_
  intro array d1 hd1
  refine .bind (getNamed_sat "prototype" hd1.tokens hd1.valued) ?_
  intro prototype d2 hd2
  refine .bind (getNamed_sat "slice" hd2.tokens hd2.valued) ?_
  intro slice d3 hd3
  refine .bind (emitValue_sat hd3.tokens rfl rfl valued_nil) ?_
  intro arguments d4 hd4
  refine .bind (emitNumber_sat skip hd4.tokens) ?_
  intro start d5 hd5
  refine .bind (callWith_sat hd5.tokens (hd3.valued.mono (hd4.trans hd5).le)
    (hd4.valued.mono hd5.le) (valued_one hd5.valued)) ?_
  intro rest d6 hd6
  have hyields := ((((hd1.trans hd2).trans hd3).trans hd4).trans hd5).trans hd6
  have hfresh6 := hfresh.mono hyields.le
  refine .bind (emitAlloca_sat hd6.tokens hfresh6.scope hfresh6.home fun _ hk => (hfresh6.entered hk).2) ?_
  intro slot d7 hd7
  refine .bind (perform_sat hd7.tokens rfl
    (valued_two (hd7.valued rfl) (hd6.valued.mono hd7.quiet.le))) ?_
  rintro _ d8 ⟨hq, ht8⟩
  have hquiet := (hyields.quiet.trans hd7.quiet).trans hq
  have hslot := (hfresh.mono hquiet.le).slot_first ht8
  refine .mono (setRest_sat hslot ((hquiet.le.kind _ hfresh.scope).trans hkind)
    (by rw [hquiet.scopes]; exact hrest)) ?_
  rintro _ e ⟨hstill, ht'⟩
  exact ⟨hquiet.still.trans hstill, by rw [ht']; ac_rfl⟩

end Headers

/-! ## Functions -/

/-- A function whose body has been lowered, and which no closure holds yet. -/
structure Config.Lowered (c : Config strict) (outer : ScopeId) (k : ScopeId) (id : FuncId)
    (d : Config strict) : Prop where
  tokens : d.tokens = {.scope k .running} + c.tokens
  kind : d.kind k = .function
  parent : d.parent? k = some outer
  fn : ∃ F, d.fn? (d.home k) = some F ∧ F.id = id

theorem Config.Opened.lt {c : Config strict} {parent : Option ScopeId} {kind : Scope.Kind}
    {ps : Positions} (h : c.Opened parent kind g k d ps) : k < d.scopeCount := by
  rw [h.scope, h.count]
  exact Nat.lt_succ_self _

theorem Config.Opened.fresh {c e : Config strict} {ps : Positions}
    (hd : c.Opened (some ctx.scope) .function g k d ps) (hat : c.At ctx env R) (hle : d ≤ e)
    (hroom : 0 < e.blockCount g)
    (hparams : ∀ name i, ps name = some i → e.own? k name = some (.parameter i)) :
    e.Fresh ⟨g, k⟩ b env R ps := by
  have hlt := hd.lt
  have hparent : e.parent? k = some ctx.scope :=
    (hle.parent k hlt).trans (by unfold Layout.parent?; rw [hd.get])
  have hkind : e.kind k = .function := (hle.kind k hlt).trans (by unfold Layout.kind; rw [hd.get])
  have hat' := hat.mono (hd.le.trans hle)
  refine ⟨hlt.trans_le hle.size, (hle.home k hlt).trans hd.home,
    (hle.positions k hlt).trans hd.positions, hparams, .inr ⟨ctx.scope, hparent, hat'.env,
      hat'.running⟩, ?_, fun hk => by rw [hkind] at hk; cases hk⟩
  rw [Scope.Arena.scopesToFunction_function hkind]
  exact hroom

section

variable (hbody : BodyOk M body names w)
include hbody

/-- The body of a function whose parameters have been declared. -/
theorem functionBody_sat {c1 c2 d : Config M.strict} {outer : ScopeId}
    {F : Code.Function} {entry : BlockId} {ns : List String} {ps : Positions} (hc1 : c.Quiet c1)
    (hF : c1.fn? g = some F) (hc2 : c1.Opened (some outer) .function g k c2 ps) (hd : c2.Still d)
    (ht : d.tokens = {.block g entry k} + ({.scope k (.naming ns)} + c.tokens))
    (hfresh : d.Fresh ⟨g, k⟩ entry env c.tokens ps) :
    Sat M (do body ⟨g, k⟩ entry; return (F.id, ← capturedNames k)) d fun r e =>
      c.Grows env (.declaring (ns ++ names) w ps) e ∧ c.Lowered outer k r.1 e ∧
        r.2 = (e.scopes.captures k).map (·.name) := by
  have hkind : c2.kind k = .function := by unfold Layout.kind; rw [hc2.get]
  have hparent : c2.parent? k = some outer := by unfold Layout.parent?; rw [hc2.get]
  have hscope : k = c.scopeCount := hc2.scope.trans hc1.still.count
  refine .bind (hbody d ⟨g, k⟩ env entry ns c.tokens ps ht hfresh ((hd.le.kind k hc2.lt).trans hkind)) ?_
  rintro _ e ⟨hgrows, hte⟩
  have hle := hd.le.trans hgrows.le
  obtain ⟨G, hG, hid⟩ := (hc2.le.trans hle).fn g F hF
  refine .scopes_bind (.pure ⟨?_, ⟨hte, (hle.kind k hc2.lt).trans hkind,
    (hle.parent k hc2.lt).trans hparent, G, ?_, hid⟩, rfl⟩)
  · refine .declaring (hc1.le.trans (hc2.le.trans hd.le)) ?_ ?_ (hscope ▸ hgrows)
    · rw [hd.uses, hc2.uses, hc1.uses]
    · rw [hd.count, hc2.count, hc1.still.count]
  · rw [hle.home k hc2.lt, hc2.home]
    exact hG

theorem functionCode_sat (hat : c.At ctx env c.tokens) : Sat M (functionCode h body ctx.scope) c fun r d =>
      ∃ k, c.Grows env (.declaring
            (h.implicitNames ++ (h.params.flatMap Pattern.boundNames ++ names)) w
            (positions h.params)) d ∧
        c.Lowered ctx.scope k r.1 d ∧ r.2 = (d.scopes.captures k).map (·.name) := by
  unfold functionCode
  refine .bind (checkHeader_sat h) ?_
  rintro _ _ rfl
  refine .bind (.ofExcept (P := fun r d => c = d ∧ parameterNames h.params = .ok r)
    (fun _ hr => ⟨rfl, hr⟩) fun _ => parameterNames_external M) ?_
  rintro ⟨params, rest⟩ _ ⟨rfl, hparams⟩
  refine .get_bind (.bind (newFunction_sat h.name params.length) ?_)
  rintro g c1 ⟨hq1, ht1, hg, F, hF, hid⟩
  refine .bind (newScope_sat hg.lt (fun outer ho => ?_) (fun hk => by cases hk) (fun _ => hg)
    (positions h.params)) ?_
  · cases ho
    exact hat.scope.trans_le hq1.le.size
  intro k c2 hc2
  have hkind2 : c2.kind k = .function := by unfold Layout.kind; rw [hc2.get]
  have hps := parameters_of_names hparams
  have hpositions : ∀ name, c2.positions k name = params.idxOf? name := fun name => by
    rw [hc2.positions, hps.positions]
  refine .bind (setParams_sat params hc2.tokens hkind2 fun hnodup i name hi => ?_) ?_
  · obtain ⟨hlt, rfl⟩ := List.getElem?_eq_some_iff.mp hi
    rw [hpositions]
    exact List.findIdx?_eq_some_iff_findIdx_eq.mpr ⟨hlt, hnodup.idxOf_getElem i hlt⟩
  rintro _ c3 ⟨hc3, hslots⟩
  refine .bind (newBlock_sat k ((hc2.le.trans hc3.still.le).fnCount hg.lt)
    (.inr ⟨?_, (hc3.still.le.kind k hc2.lt).trans hkind2⟩)) ?_
  · exact hc2.lt.trans_le hc3.still.le.size
  rintro entry c4 ⟨hq4, ht4, _, hroom⟩
  rw [hc3.tokens, ht1] at ht4
  have hstill4 := hc3.still.trans hq4.still
  have hrest4 : (c4.scopes.get k).rest = none := by rw [hq4.scopes, hc3.rest, hc2.get]
  have hfresh4 : c4.Fresh ⟨g, k⟩ entry env c.tokens (positions h.params) := by
    refine hc2.fresh (hat.mono hq1.le) hstill4.le (Nat.zero_lt_of_lt hroom) fun name i hi => ?_
    rw [hps.positions] at hi
    obtain ⟨hlt, hname, _⟩ := List.idxOf?_eq_some_iff.mp hi
    exact hq4.le.own k name _ (hslots i name (List.getElem?_eq_some_iff.mpr ⟨hlt, hname⟩))
  refine .bind (declareArguments_sat h ht4 hfresh4) ?_
  rintro _ c5 ⟨ns, hc5, hns, hrest5⟩
  -- The body follows the last of the declarations, whichever it is.
  have hfinish : ∀ (d : Config M.strict) (ns' : List String), c4.Headed ⟨g, k⟩ entry ns' c.tokens d →
      (∀ n, n ∈ ns' ↔ n ∈ h.implicitNames ++ h.params.flatMap Pattern.boundNames) →
      Sat M (do body ⟨g, k⟩ entry; return (c.module.nextId, ← capturedNames k)) d fun r e =>
        ∃ k, c.Grows env (.declaring
              (h.implicitNames ++ (h.params.flatMap Pattern.boundNames ++ names)) w
              (positions h.params)) e ∧
          c.Lowered ctx.scope k r.1 e ∧ r.2 = (e.scopes.captures k).map (·.name) := by
    intro d ns' hd hns'
    rw [← hid]
    refine .mono (functionBody_sat hbody hq1 hF hc2 (hstill4.trans hd.still) hd.tokens
      (hfresh4.mono hd.still.le)) ?_
    rintro r e ⟨hgrows, hlowered, hcaptured⟩
    refine ⟨k, ?_, hlowered, hcaptured⟩
    rw [← Walk.declaring_congr w _ (fun n => ?_)]
    · exact hgrows
    · simp only [List.mem_append, hns', or_assoc]
  cases rest with
  | none =>
    refine hfinish c5 ns hc5 fun n => ?_
    rw [hns, hps.boundNames, Option.toList_none, List.append_nil]
  | some name =>
    have hstill5 := hstill4.trans hc5.still
    refine .bind (declareRest_sat params.length name hc5.tokens (hfresh4.mono hc5.still.le)
      ((hstill5.le.kind k hc2.lt).trans hkind2) (hrest5.trans hrest4)) ?_
    intro _ d hd
    refine hfinish d _ ⟨hc5.still.trans hd.still, hd.tokens⟩ fun n => ?_
    simp only [List.mem_append, hns, hps.boundNames, Option.toList_some, or_assoc]

/-! ## Closures -/

theorem closureCode_ok : ExprOk M (closureCode h body) (.declaring
      (h.implicitNames ++ (h.params.flatMap Pattern.boundNames ++ names)) w
      (positions h.params)) := by
  intro c ctx env b R ht hat
  unfold closureCode
  refine .bind (functionCode_sat hbody (ht ▸ hat.add _)) ?_
  rintro ⟨id, captures⟩ d ⟨k, hgrows, hlowered, rfl⟩
  obtain ⟨F, hF, rfl⟩ := hlowered.fn
  have htd : d.tokens = {ctx.here b} + ({.scope k .running} + R) := by
    rw [hlowered.tokens, ht]
    ac_rfl
  have hatd := hat.mono hgrows.le
  refine .bind (capturedAddresses_sat htd (hatd.add _) (Config.known_captures hlowered.parent)) ?_
  rintro captured e ⟨hq, hte, hvalued, hdenotes⟩
  extract_lets inst
  have hk : k < d.scopeCount := d.tokensOk.scope k .running (by simp [htd])
  obtain ⟨G, hG, hid⟩ := hq.le.fn _ F hF
  have hinst : inst = .func G.id captured ∨ inst = .arrow G.id captured := by
    rw [hid]
    unfold inst
    cases h.kind with
    | function => exact .inl rfl
    | arrow => exact .inr rfl
  rw [← hq.captures k] at hdenotes
  refine .bind (makeClosure_sat hte (hatd.mono hq.le) ((hq.le.kind k hk).trans hlowered.kind)
    ((hq.le.parent k hk).trans hlowered.parent) (hq.le.home k hk ▸ hG) hinst hvalued hdenotes) ?_
  intro v g hg
  exact .pure ⟨⟨hgrows.still (hq.trans hg.quiet).still, hg.tokens⟩, hg.valued⟩

end

end Lower

end ScriptIr
