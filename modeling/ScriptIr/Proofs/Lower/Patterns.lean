import ScriptIr.Lower.Pattern
import ScriptIr.Proofs.Lower.Expressions

/-!
# Contracts of declarations and patterns

Announcing names gives each of them a slot while their scope takes names. Binding stores a value in the
slot of a name; a name that was not announced gets its slot then.

* `announceNames_sat`, `announce_sat`: the names of a declaration enter a scope.
* `BindOk`, `bindName_ok`, `bindArray_ok`, `bindObject_ok`, `bindDefault_ok`: patterns.
* `BindersOk`, `declarationCode_ok`: declarations.
-/
namespace ScriptIr.Lower

open Code ScriptIr.Tree List

variable {M : Mode} {elements : List ElementBind} {members : List (Except Error String × BindCode)}
  {names : List String} {w : Walk} {default : ExprCode} {c : Config M.strict} {ctx : Ctx}
  {env : Env} {b : BlockId} {R : Multiset Token} {binders : List Binder}

/-! ## Announcing -/

variable (d : Declaration)

section Announcing

variable {ns : List String} {ps : Positions}

theorem announceNames_sat (constant : Bool) (names : List String) (h : c.tokens =
      {ctx.here b} + ({.scope ctx.scope (.naming ns)} + R))
    (hfresh : c.Fresh ctx b env R ps) :
    Sat M (announceNames ctx b constant names) c fun _ d =>
      c.Still d ∧ d.tokens = {ctx.here b} + ({.scope ctx.scope (.naming (ns ++ names))} + R) ∧
        ∀ name ∈ names, d.HasLocal ctx.scope name := by
  induction names generalizing c ns with
  | nil =>
    refine .pure ⟨(Config.Quiet.refl c).still, ?_, nofun⟩
    rw [append_nil]
    exact h
  | cons name names ih =>
    unfold announceNames
    refine .bind (emitAlloca_sat h hfresh.scope hfresh.home fun _ hk => (hfresh.entered hk).2) ?_
    intro v d hd
    have hfresh' := hfresh.mono hd.quiet.le
    refine .bind (forwardDeclare_sat constant (hfresh'.slot_first hd.tokens)) ?_
    rintro _ e ⟨he, hlocal⟩
    have hnext : e.tokens = {ctx.here b} + ({.scope ctx.scope (.naming (ns ++ [name]))} + R) := by
      rw [he.tokens]
      ac_rfl
    refine .mono (ih hnext (hfresh'.mono he.still.le)) ?_
    rintro _ g ⟨hstill, ht, hlocals⟩
    refine ⟨(hd.quiet.still.trans he.still).trans hstill, ?_, ?_⟩
    · rw [ht, append_assoc]
      rfl
    · exact forall_mem_cons.mpr ⟨hstill.le.hasLocal _ _ hlocal, hlocals⟩

theorem checkBlockWide_sat : Sat M (checkBlockWide d) c fun _ e => e = c := by
  unfold checkBlockWide
  split
  · exact .unsupported ..
  · exact .pure rfl

theorem announce_sat (h : c.tokens = {ctx.here b} + ({.scope ctx.scope (.naming ns)} + R))
    (hfresh : c.Fresh ctx b env R ps) :
    Sat M (announce ctx b d) c fun _ e =>
      c.Still e ∧ e.tokens = {ctx.here b} + ({.scope ctx.scope (.naming (ns ++ d.boundNames))} + R) ∧
        ∀ name ∈ d.boundNames, e.HasLocal ctx.scope name := by
  unfold announce
  refine .bind (checkBlockWide_sat d) ?_
  rintro _ _ rfl
  exact announceNames_sat _ _ h hfresh

end Announcing

/-! ## Patterns -/

def BindOk (M : Mode) (code : BindCode) (names : List String) (w : Walk) : Prop :=
  ∀ (c : Config M.strict) (ctx : Ctx) (env : Env) (b : BlockId) (R : Multiset Token)
    (value : InstId) (constant : Bool),
    c.tokens = {ctx.here b} + R → c.At ctx env R → c.Valued ctx.func value →
    (M.strict → ∀ name ∈ names, c.HasLocal ctx.scope name) →
    Sat M (code ctx b value constant) c fun b' d => c.Runs ctx env R w b' d

theorem bindFailing_ok (construct : Construct) (loc : Option Location) (names : List String)
    (w : Walk) : BindOk M (bindFailing construct loc) names w :=
  fun _ _ _ _ _ _ _ _ _ _ _ => .unsupported ..

/-- A name is declared in the slot it was announced with, or in a new one. -/
theorem bindName_ok (name : String) : BindOk M (bindName name) [name] .skip := by
  intro c ctx env b R value constant ht hat hvalue hlocal
  unfold bindName
  refine .scopes_bind ?_
  by_cases hl : c.scopes.hasLocal ctx.scope name = true
  · rw [if_pos hl]
    refine .pure_bind (.bind (declareAnnounced_sat constant hat.scope hl) ?_)
    rintro slot d ⟨hstill, ht', hown⟩
    have hslot : d.Valued ctx.func slot := (hat.mono hstill.le).home ▸ Config.valued_cell hown
    refine .bind (perform_sat (ht'.trans ht) rfl (Layout.valued_two hslot (hvalue.mono hstill.le))) ?_
    rintro _ e ⟨hq, ht''⟩
    exact .pure ⟨(hstill.trans hq.still).grows, ht''⟩
  · have hloose : ¬M.strict := fun hs => hl (hlocal hs name (mem_singleton_self name))
    rw [if_neg hl]
    have halloca : Sat M (some <$> emit ctx b .alloca) c fun given d => ∃ v, given = some v ∧
        c.Emitted ctx.func b ctx.scope ({.slot ctx.func v ctx.scope} + R) .alloca v d :=
      .map (.mono (emitAlloca_sat ht hat.scope hat.home fun hs => absurd hs hloose)
        fun v d hd => ⟨v, rfl, hd⟩)
    refine .bind halloca ?_
    rintro _ d ⟨v, rfl, hd⟩
    have hat' := hat.mono hd.quiet.le
    have hslot : d.tokens = {.slot (d.home ctx.scope) v ctx.scope} + ({ctx.here b} + R) := by
      rw [hd.tokens, hat'.home]
      ac_rfl
    have hnew : (d.scopes.get ctx.scope).locals.has name = false := by
      rw [hd.quiet.scopes]
      exact Bool.eq_false_iff.mpr hl
    refine .bind (declareLate_sat constant hloose hslot hat'.scope
      (by rw [hat'.env]; exact Option.some_ne_none env) hnew) ?_
    rintro slot e ⟨hstill, ht', hown⟩
    have hvalued : e.Valued ctx.func slot := (hat'.mono hstill.le).home ▸ Config.valued_cell hown
    refine .bind (perform_sat ht' rfl
      (Layout.valued_two hvalued (hvalue.mono (hd.quiet.le.trans hstill.le)))) ?_
    rintro _ g ⟨hq, ht''⟩
    exact .pure ⟨((hd.quiet.still.trans hstill).trans hq.still).grows, ht''⟩

/-- Elements that meet their contracts, with the names and references of all of them in turn. -/
inductive ElementBindsOk (M : Mode) : List ElementBind → List String → Walk → Prop where
  | nil : ElementBindsOk M [] [] .skip
  | hole {elements : List ElementBind} {names : List String} {w : Walk} :
      ElementBindsOk M elements names w → ElementBindsOk M (.hole :: elements) names w
  | rest (loc : Option Location) (elements : List ElementBind) (names : List String)
      (w : Walk) : ElementBindsOk M (.rest loc :: elements) names w
  | item {bind : BindCode} {elements : List ElementBind} {ns names : List String}
      {v w : Walk} : BindOk M bind ns v → ElementBindsOk M elements names w →
      ElementBindsOk M (.item bind :: elements) (ns ++ names) (v ++ w)

/-- Members that meet their contracts, with the names and references of all of them in turn. -/
inductive MemberBindsOk (M : Mode) :
    List (Except Error String × BindCode) → List String → Walk → Prop where
  | nil : MemberBindsOk M [] [] .skip
  | cons {name : Except Error String} {bind : BindCode}
      {members : List (Except Error String × BindCode)} {ns names : List String} {v w : Walk} :
      (∀ e, name = .error e → M.allowed e) → BindOk M bind ns v → MemberBindsOk M members names w →
      MemberBindsOk M ((name, bind) :: members) (ns ++ names) (v ++ w)

section Parts

variable {value : InstId}

theorem bindElements_sat (h : ElementBindsOk M elements names w) (constant : Bool) (index : Nat)
    (ht : c.tokens = {ctx.here b} + R) (hat : c.At ctx env R)
    (hvalue : c.Valued ctx.func value) (hlocal : M.strict → ∀ name ∈ names, c.HasLocal ctx.scope name) :
    Sat M (bindElements ctx value constant b index elements) c fun b' d =>
      c.Runs ctx env R w b' d := by
  induction h generalizing c b index with
  | nil => exact .pure ⟨(Config.Quiet.refl c).still.grows, ht⟩
  | hole _ ih =>
    unfold bindElements
    exact ih (index + 1) ht hat hvalue hlocal
  | rest =>
    unfold bindElements
    exact .unsupported ..
  | item hbind _ ih =>
    unfold bindElements
    refine .bind (emitNumber_sat index ht) ?_
    intro key d hd
    refine .bind (emitValue_sat hd.tokens rfl rfl (Layout.valued_two (hvalue.mono hd.le) hd.valued)) ?_
    intro item d1 hd1
    have hyields := hd.trans hd1
    refine .bind (hbind d1 ctx env b R item constant hd1.tokens (hat.mono hyields.le) hd1.valued
      fun hs n hn => hyields.le.hasLocal _ _ (hlocal hs n (mem_append_left _ hn))) ?_
    intro b' e he
    have hle := hyields.le.trans he.le
    refine .mono (ih (index + 1) he.tokens (hat.mono hle) (hvalue.mono hle)
      fun hs n hn => hle.hasLocal _ _ (hlocal hs n (mem_append_right _ hn))) ?_
    intro b'' g hg
    exact ⟨hyields.quiet.still.then (he.grows.trans hg.grows), hg.tokens⟩

theorem bindMembers_sat (h : MemberBindsOk M members names w) (constant : Bool)
    (ht : c.tokens = {ctx.here b} + R) (hat : c.At ctx env R)
    (hvalue : c.Valued ctx.func value) (hlocal : M.strict → ∀ name ∈ names, c.HasLocal ctx.scope name) :
    Sat M (bindMembers ctx value constant b members) c fun b' d => c.Runs ctx env R w b' d := by
  induction h generalizing c b with
  | nil => exact .pure ⟨(Config.Quiet.refl c).still.grows, ht⟩
  | cons hname hbind _ ih =>
    unfold bindMembers
    refine .bind (.ofExcept (P := fun _ d => d = c) (fun _ _ => rfl) hname) ?_
    rintro name _ rfl
    refine .bind (getNamed_sat name ht hvalue) ?_
    intro item d hd
    refine .bind (hbind d ctx env b R item constant hd.tokens (hat.mono hd.le) hd.valued
      fun hs n hn => hd.le.hasLocal _ _ (hlocal hs n (mem_append_left _ hn))) ?_
    intro b' e he
    have hle := hd.le.trans he.le
    refine .mono (ih he.tokens (hat.mono hle) (hvalue.mono hle)
      fun hs n hn => hle.hasLocal _ _ (hlocal hs n (mem_append_right _ hn))) ?_
    intro b'' g hg
    exact ⟨hd.quiet.still.then (he.grows.trans hg.grows), hg.tokens⟩

end Parts

theorem bindArray_ok (h : ElementBindsOk M elements names w) : BindOk M (bindArray elements) names w :=
  fun _ _ _ _ _ _ constant ht hat hvalue hlocal =>
    bindElements_sat h constant 0 ht hat hvalue hlocal

theorem bindObject_ok (h : MemberBindsOk M members names w) : BindOk M (bindObject members) names w :=
  fun _ _ _ _ _ _ constant ht hat hvalue hlocal => bindMembers_sat h constant ht hat hvalue hlocal

/-! ## Defaults -/

theorem defaultCode_sat (h : ExprOk M default w) {value : InstId}
    (ht : c.tokens = {ctx.here b} + R) (hat : c.At ctx env R)
    (hvalue : c.Valued ctx.func value) :
    Sat M (defaultCode default ctx b value) c fun r d =>
      c.Runs ctx env R w r.block d ∧ d.Valued ctx.func r.value := by
  unfold defaultCode
  refine .bind hat.newBlock_sat ?_
  rintro fallback d1 ⟨hq1, ht1, hfallback⟩
  refine .bind (hat.mono hq1.le).newBlock_sat ?_
  rintro join d2 ⟨hq2, ht2, hjoin⟩
  have hq := hq1.trans hq2
  have hopen : d2.tokens = {ctx.here b} + ({ctx.here fallback} + ({ctx.here join} + R)) := by
    rw [ht2, ht1, ht]
    ac_rfl
  refine .bind (emitValue_sat hopen rfl rfl Layout.valued_nil) ?_
  intro undefined d3 hd3
  refine .bind (emitValue_sat hd3.tokens rfl rfl
    (Layout.valued_two (hvalue.mono (hq.le.trans hd3.le)) hd3.valued)) ?_
  intro missing d4 hd4
  have hyields := hd3.trans hd4
  refine .bind (branch_sat hd4.tokens hd4.valued ((hfallback.mono hq2.le).mono hyields.le)
    (hjoin.mono hyields.le)) ?_
  rintro _ d5 ⟨hq5, ht5⟩
  have hquiet := (hq.trans hyields.quiet).trans hq5
  refine .bind (h d5 ctx env fallback _ ht5 ((hat.mono hquiet.le).add _)) ?_
  rintro r e ⟨he, hr⟩
  refine .bind (jump_sat he.tokens (((hjoin.mono hyields.le).mono hq5.le).mono he.le)) ?_
  rintro _ g ⟨hq6, ht6⟩
  refine .bind (emitPhi_sat ht6 ?_) ?_
  · have hle := hquiet.le.trans (he.le.trans hq6.le)
    refine forall_mem_cons.mpr ⟨⟨?_, hvalue.mono hle⟩, forall_mem_singleton.mpr ⟨?_, ?_⟩⟩
    · exact (c.block_lt ht).trans_le (hle.blockCount _)
    · exact (e.block_lt he.tokens).trans_le (hq6.le.blockCount _)
    · exact hr.mono hq6.le
  · intro chosen g1 hg1
    refine .pure ⟨⟨?_, hg1.tokens⟩, hg1.valued rfl⟩
    exact hquiet.still.then (he.grows.still (hq6.trans hg1.quiet).still)

theorem bindDefault_ok {target : BindCode} {v : Walk} (ht : BindOk M target names v)
    (hd : ExprOk M default w) : BindOk M (bindDefault target default) names (w ++ v) := by
  intro c ctx env b R value constant htok hat hvalue hlocal
  unfold bindDefault
  refine .bind (defaultCode_sat hd htok hat hvalue) ?_
  rintro r d ⟨hr, hrv⟩
  refine .mono (ht d ctx env r.block R r.value constant hr.tokens (hat.mono hr.le) hrv
    fun hs n hn => hr.le.hasLocal _ _ (hlocal hs n hn)) ?_
  intro b' e he
  exact hr.trans he

/-! ## Declarations -/

theorem initCode_none_ok : ExprOk M (initCode none) .skip := instCode_ok rfl rfl rfl

/-- Bindings that meet their contracts, with the names and references of all of them in turn. -/
inductive BindersOk (M : Mode) : List Binder → List String → Walk → Prop where
  | nil : BindersOk M [] [] .skip
  | cons {binder : Binder} {binders : List Binder} {ns names : List String} {u v w : Walk} :
      ExprOk M (initCode binder.init) u → BindOk M binder.bind ns v → BindersOk M binders names w →
      BindersOk M (binder :: binders) (ns ++ names) (u ++ v ++ w)

theorem bindAll_sat (h : BindersOk M binders names w) (constant : Bool)
    (ht : c.tokens = {ctx.here b} + R) (hat : c.At ctx env R)
    (hlocal : M.strict → ∀ name ∈ names, c.HasLocal ctx.scope name) :
    Sat M (bindAll ctx constant b binders) c fun b' d => c.Runs ctx env R w b' d := by
  induction h generalizing c b with
  | nil => exact .pure ⟨(Config.Quiet.refl c).still.grows, ht⟩
  | cons hinit hbind _ ih =>
    unfold bindAll
    refine .bind (hinit c ctx env b R ht hat) ?_
    rintro r d ⟨hd, hv⟩
    refine .bind (hbind d ctx env r.block R r.value constant hd.tokens (hat.mono hd.le) hv
      fun hs n hn => hd.le.hasLocal _ _ (hlocal hs n (mem_append_left _ hn))) ?_
    intro b' e he
    have hle := hd.le.trans he.le
    refine .mono (ih he.tokens (hat.mono hle)
      fun hs n hn => hle.hasLocal _ _ (hlocal hs n (mem_append_right _ hn))) ?_
    intro b'' g hg
    exact (hd.trans he).trans hg

theorem declarationCode_ok (h : BindersOk M binders names w) :
    StmtOk M (declarationCode d binders) names w := by
  intro c ctx env b R ht hat hlocal
  unfold declarationCode
  refine .bind (checkBlockWide_sat d) ?_
  rintro _ _ rfl
  exact bindAll_sat h _ ht hat hlocal

end ScriptIr.Lower
