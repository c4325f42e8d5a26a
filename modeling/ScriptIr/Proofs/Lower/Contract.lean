import ScriptIr.Proofs.Lower.Config

/-!
# Contracts of lowering

What a computation that emits code does to a configuration: if it succeeds it ends in a configuration
as its contract says, and if it fails it fails with an error that the contract allows. Contracts of the
parts of a computation add up to one of the whole.

* `Config.Grows`: a configuration in which more has been built, with the references lowered meanwhile.
-/
namespace ScriptIr.Lower

open Code ScriptIr.Tree Scope

variable {x : Emit α} {f : α → Emit β} {ctx : Ctx}

/-- What is asked of a lowering: whether names may enter a scope at any time or, if `strict` is set,
only at its start, and the errors that may be the outcome. Errors in the program may always be. -/
structure Mode where
  strict : Prop
  allowed : Error → Prop
  external : ∀ e, (∀ fault, e ≠ .internal fault) → allowed e

/-- Errors that are no faults are allowed. -/
theorem Mode.allows (M : Mode) {e : Error}
    (h : ∀ fault, e ≠ .internal fault := by intro _ h; cases h) : M.allowed e :=
  M.external e h

/-- The computation ends in a configuration as `Q` says, or with an allowed error. -/
def Sat (M : Mode) (x : Emit α) (c : Config M.strict) (Q : α → Config M.strict → Prop) : Prop :=
  match x c.toState with
  | .ok a s => ∃ d : Config M.strict, d.toState = s ∧ Q a d
  | .error e _ => M.allowed e

namespace Sat

variable {M : Mode} {c : Config M.strict} {P : α → Config M.strict → Prop}
  {Q : β → Config M.strict → Prop}

variable {P' : α → Config M.strict → Prop} {a : α} {s : State} {e : Error}

theorem bind (hx : Sat M x c P) (hf : ∀ a d, P a d → Sat M (f a) d Q) : Sat M (x >>= f) c Q := by
  have hrun : (x >>= f) c.toState = match x c.toState with
    | .ok a s => f a s
    | .error e s => .error e s := by
    show EStateM.bind x f c.toState = _
    unfold EStateM.bind
    cases x c.toState <;> rfl
  unfold Sat at hx ⊢
  rw [hrun]
  cases hx' : x c.toState with
  | error e s => rw [hx'] at hx; exact hx
  | ok a s =>
    rw [hx'] at hx
    obtain ⟨d, rfl, hd⟩ := hx
    exact hf a d hd

theorem mono (hx : Sat M x c P) (h : ∀ a d, P a d → P' a d) : Sat M x c P' := by
  unfold Sat at hx ⊢
  cases hrun : x c.toState with
  | error e s => rw [hrun] at hx; exact hx
  | ok a s =>
    rw [hrun] at hx
    obtain ⟨d, hs, hd⟩ := hx
    exact ⟨d, hs, h a d hd⟩

theorem of_ok (h : Sat M x c P) (hrun : x c.toState = .ok a s) :
    ∃ d : Config M.strict, d.toState = s ∧ P a d := by
  unfold Sat at h
  rwa [hrun] at h

theorem of_error (h : Sat M x c P) (hrun : x c.toState = .error e s) : M.allowed e := by
  unfold Sat at h
  rwa [hrun] at h

theorem pure (h : P a c) : Sat M (Pure.pure a) c P := ⟨c, rfl, h⟩

theorem pure_bind (h : Sat M (f a) c Q) : Sat M (Pure.pure a >>= f) c Q := h

/-- The purpose of parts of the code can be settled at any moment. -/
theorem of_same_state {d : Config M.strict} (hd : d.toState = c.toState) (h : Sat M x d P) :
    Sat M x c P := by
  unfold Sat at h ⊢
  rw [← hd]
  exact h

theorem settle (hx : Sat M x c P)
    (h : ∀ a d, P a d → ∃ e : Config M.strict, e.toState = d.toState ∧ P' a e) : Sat M x c P' := by
  unfold Sat at hx ⊢
  cases hrun : x c.toState with
  | error e s => rw [hrun] at hx; exact hx
  | ok a s =>
    rw [hrun] at hx
    obtain ⟨d, hs, hd⟩ := hx
    obtain ⟨e, he, hP⟩ := h a d hd
    exact ⟨e, he.trans hs, hP⟩

theorem map {f : α → β} (h : Sat M x c fun a => Q (f a)) : Sat M (f <$> x) c Q := by
  have hrun : (f <$> x) c.toState = match x c.toState with
    | .ok a s => .ok (f a) s
    | .error e s => .error e s := by
    show EStateM.map f x c.toState = _
    unfold EStateM.map
    cases x c.toState <;> rfl
  unfold Sat at h ⊢
  rw [hrun]
  cases hx : x c.toState with
  | error e s => rw [hx] at h; exact h
  | ok a s => rw [hx] at h; exact h

theorem discard {Q : Unit → Config M.strict → Prop} (h : Sat M x c fun _ => Q ()) :
    Sat M (Functor.discard x) c Q := map (f := fun _ => ()) h

theorem throw (h : M.allowed e) : Sat M (MonadExcept.throw e : Emit α) c P := h

/-- Nothing runs after a failure. -/
theorem throw_bind (h : M.allowed e) : Sat M (MonadExcept.throw e >>= f) c Q := h

theorem unsupported (construct : Construct) (loc : Option Location) :
    Sat M (Lower.unsupported construct loc : Emit α) c P :=
  M.allows

theorem unsupported_bind (construct : Construct) (loc : Option Location) (f : α → Emit β) :
    Sat M (Lower.unsupported construct loc >>= f) c Q :=
  M.allows

theorem ofExcept {x : Except Error α} (hok : ∀ a, x = .ok a → P a c)
    (herr : ∀ e, x = .error e → M.allowed e) : Sat M (MonadExcept.ofExcept x) c P := by
  cases hx : x with
  | ok a => exact ⟨c, rfl, hok a hx⟩
  | error e => exact herr e hx

theorem scopes_bind {read : Scope.Arena → α} (h : Sat M (f (read c.scopes)) c Q) :
    Sat M (Lower.scopes read >>= f) c Q := h

theorem instAt?_bind {v : InstId} {f : Option Inst → Emit β} (h : Sat M (f (c.inst? ctx.func v)) c Q) :
    Sat M (instAt? ctx v >>= f) c Q := h

theorem get_bind {f : State → Emit β} (h : Sat M (f c.toState) c Q) : Sat M (MonadState.get >>= f) c Q := h

end Sat

/-! ## Growth -/

instance {strict : Prop} : Preorder (Config strict) where
  le c d := c.toLayout.Extends strict d.toLayout
  le_refl c := .refl c.toLayout
  le_trans _ _ _ h h' := h.trans h'

namespace Config

variable {strict : Prop} {c d e : Config strict} {env : Env} {v w : Walk}
  {ps : Positions} {R S : Multiset Token} {b a : BlockId} {k : ScopeId}

/-- Growth of the code alone, which opens no frame. -/
structure Quiet (c d : Config strict) : Prop where
  le : c ≤ d
  scopes : d.scopes = c.scopes
  uses : d.uses = c.uses
  frame : d.frame = c.frame

theorem Quiet.refl (c : Config strict) : c.Quiet c := ⟨le_refl c, rfl, rfl, rfl⟩

theorem Quiet.trans (h : c.Quiet d) (h' : d.Quiet e) : c.Quiet e :=
  ⟨h.le.trans h'.le, h'.scopes.trans h.scopes, h'.uses.trans h.uses, h'.frame.trans h.frame⟩

/-- Growth that opens no scope and uses no name. -/
structure Still (c d : Config strict) : Prop where
  le : c ≤ d
  uses : d.uses = c.uses
  count : d.scopeCount = c.scopeCount

theorem Still.trans (h : c.Still d) (h' : d.Still e) : c.Still e :=
  ⟨h.le.trans h'.le, h'.uses.trans h.uses, h'.count.trans h.count⟩

theorem Quiet.still (h : c.Quiet d) : c.Still d :=
  ⟨h.le, h.uses, by unfold Layout.scopeCount; rw [h.scopes]⟩

/-- Between two configurations code is lowered that uses the names of a walk. -/
structure Grows (env : Env) (w : Walk) (c d : Config strict) : Prop where
  le : c ≤ d
  trace : strict → ∃ uses, d.uses.toList = c.uses.toList ++ uses ∧ d.scopeCount = (w env c.scopeCount).2 ∧
    List.Forall₂ d.toLayout.Resolves uses (w env c.scopeCount).1

theorem Still.grows (h : c.Still d) : c.Grows env .skip d :=
  ⟨h.le, fun _ => ⟨[], by rw [h.uses, List.append_nil], h.count, .nil⟩⟩

theorem Grows.trans (h : c.Grows env v d) (h' : d.Grows env w e) : c.Grows env (v ++ w) e := by
  refine ⟨h.le.trans h'.le, fun hs => ?_⟩
  obtain ⟨us, hus, hcount, hall⟩ := h.trace hs
  obtain ⟨us', hus', hcount', hall'⟩ := h'.trace hs
  rw [hcount] at hcount' hall'
  refine ⟨us ++ us', by rw [hus', hus, List.append_assoc], hcount', ?_⟩
  exact List.rel_append (hall.imp fun u r hu => hu.mono h'.le hs) hall'

theorem Grows.still (h : c.Grows env w d) (h' : d.Still e) : c.Grows env w e := by
  have := h.trans h'.grows
  rwa [Walk.append_skip] at this

theorem Still.then (h : c.Still d) (h' : d.Grows env w e) : c.Grows env w e :=
  h.grows.trans h'

/-- Growth by a part of the program in a scope of its own. -/
theorem Grows.declaring {names : List String} (hle : c ≤ d) (huses : d.uses = c.uses)
    (hcount : d.scopeCount = c.scopeCount + 1) (h : d.Grows (env.declare names c.scopeCount ps) w e) :
    c.Grows env (.declaring names w ps) e := by
  refine ⟨hle.trans h.le, fun hs => ?_⟩
  obtain ⟨us, hus, hn, hall⟩ := h.trace hs
  rw [hcount] at hn hall
  exact ⟨us, by rw [hus, huses], hn, hall⟩

/-! ## Places -/

/-- A place in a scope that has all its names. The tokens `R` keep the scope and those around it. -/
structure At (c : Config strict) (ctx : Ctx) (env : Env) (R : Multiset Token) : Prop where
  scope : ctx.scope < c.scopeCount
  home : c.home ctx.scope = ctx.func
  running : ∀ k ∈ c.scopes.chain ctx.scope, .scope k .running ∈ R
  env : c.env ctx.scope = some env
  room : c.scopes.scopesToFunction ctx.scope < c.blockCount ctx.func

theorem At.mono (h : c.At ctx env R) (hcd : c ≤ d) : d.At ctx env R where
  scope := h.scope.trans_le hcd.size
  home := (hcd.home _ h.scope).trans h.home
  running := by rw [hcd.chain h.scope]; exact h.running
  env := hcd.env _ _ h.env
  room := by
    rw [hcd.scopesToFunction h.scope]
    exact h.room.trans_le (hcd.blockCount _)

theorem At.weaken (h : c.At ctx env R) (hRS : R ⊆ S) : c.At ctx env S :=
  { h with running := fun k hk => hRS (h.running k hk) }

theorem At.add (t : Token) (h : c.At ctx env R) :
    c.At ctx env ({t} + R) := h.weaken fun _ hx => mem_add_singleton.mpr (.inr hx)

/-- A place in a scope that has its parameters and still takes other names, in the block that opens the
frame of the scope; `env` is what names mean around it. -/
structure Fresh (c : Config strict) (ctx : Ctx) (b : BlockId) (env : Env) (R : Multiset Token)
    (ps : Positions := fun _ => none) : Prop where
  scope : ctx.scope < c.scopeCount
  home : c.home ctx.scope = ctx.func
  positions : c.positions ctx.scope = ps
  params : ∀ name i, ps name = some i → c.own? ctx.scope name = some (.parameter i)
  outer : (c.parent? ctx.scope = none ∧ env = fun _ => none) ∨
    ∃ outer, c.parent? ctx.scope = some outer ∧ c.env outer = some env ∧
      ∀ k ∈ c.scopes.chain outer, .scope k .running ∈ R
  room : c.scopes.scopesToFunction ctx.scope < c.blockCount ctx.func
  entered : c.kind ctx.scope = .block →
    b < c.blockCount ctx.func ∧ c.parent? ctx.scope = some (c.entry ctx.func b)

theorem Fresh.mono (h : c.Fresh ctx b env R ps) (hcd : c ≤ d) : d.Fresh ctx b env R ps where
  scope := h.scope.trans_le hcd.size
  home := (hcd.home _ h.scope).trans h.home
  positions := (hcd.positions _ h.scope).trans h.positions
  params name i hi := hcd.own _ _ _ (h.params name i hi)
  outer := by
    rcases h.outer with ⟨hroot, henv⟩ | ⟨outer, hp, henv, hall⟩
    · exact .inl ⟨(hcd.parent _ h.scope).trans hroot, henv⟩
    · have hlt : outer < c.scopeCount :=
        Nat.lt_trans (c.arenaOk.sound.parent_lt _ _ hp) h.scope
      exact .inr ⟨outer, (hcd.parent _ h.scope).trans hp, hcd.env _ _ henv,
        by rw [hcd.chain hlt]; exact hall⟩
  room := by
    rw [hcd.scopesToFunction h.scope]
    exact h.room.trans_le (hcd.blockCount _)
  entered hk := by
    obtain ⟨hb, hp⟩ := h.entered ((hcd.kind _ h.scope).symm.trans hk)
    rw [hcd.parent _ h.scope, hcd.entry _ _ hb]
    exact ⟨hb.trans_le (hcd.blockCount _), hp⟩

/-- The slot in a fresh scope is given its name next. -/
theorem Fresh.slot_first (h : c.Fresh ctx b env R ps) {v : InstId}
    (ht : c.tokens = {ctx.here b} + ({.slot ctx.func v ctx.scope} + (S + R))) :
    c.tokens = {.slot (c.home ctx.scope) v ctx.scope} + (S + ({ctx.here b} + R)) := by
  rw [ht, h.home]
  ac_rfl

theorem Fresh.weaken (h : c.Fresh ctx b env R ps) (hRS : R ⊆ S) : c.Fresh ctx b env S ps :=
  { h with outer := h.outer.imp_right fun ⟨outer, hp, henv, hall⟩ =>
      ⟨outer, hp, henv, fun k hk => hRS (hall k hk)⟩ }

theorem Fresh.add (t : Token) (h : c.Fresh ctx b env R ps) : c.Fresh ctx b env ({t} + R) ps :=
  h.weaken fun _ hx => mem_add_singleton.mpr (.inr hx)

/-- Control goes on in block `b` of the same scope after the code of a part of the program. -/
structure Runs (c : Config strict) (ctx : Ctx) (env : Env) (R : Multiset Token) (w : Walk)
    (b : BlockId) (d : Config strict) : Prop where
  grows : c.Grows env w d
  tokens : d.tokens = {ctx.here b} + R

theorem Runs.le (h : c.Runs ctx env R w b d) : c ≤ d := h.grows.le

theorem Runs.trans (h : c.Runs ctx env R v a d) (h' : d.Runs ctx env R w b e) :
    c.Runs ctx env R (v ++ w) b e :=
  ⟨h.grows.trans h'.grows, h'.tokens⟩

theorem Runs.quiet (h : c.Runs ctx env R w a d) (hq : d.Quiet e)
    (ht : e.tokens = {ctx.here b} + R) : c.Runs ctx env R w b e :=
  ⟨h.grows.still hq.still, ht⟩

/-- One value more, computed at the end of the block where control is. -/
structure Yields (c : Config strict) (f : Nat) (b : BlockId) (k : ScopeId) (R : Multiset Token)
    (v : InstId) (d : Config strict) : Prop where
  quiet : c.Quiet d
  tokens : d.tokens = {.block f b k} + R
  valued : d.Valued f v

theorem Yields.le {f : Nat} {v : InstId} (h : c.Yields f b k R v d) : c ≤ d := h.quiet.le

theorem Yields.trans {f : Nat} {v w : InstId} (h : c.Yields f b k R v d) (h' : d.Yields f b k S w e) :
    c.Yields f b k S w e :=
  ⟨h.quiet.trans h'.quiet, h'.tokens, h'.valued⟩

/-- What comes after a value comes after all that was there before it. -/
theorem Yields.extend {M : Mode} {c d : Config M.strict} {f : Nat} {v : InstId}
    (h : c.Yields f b k R v d) {x : Emit InstId} (hx : Sat M x d fun w e => d.Yields f b k S w e) :
    Sat M x d fun w e => c.Yields f b k S w e :=
  hx.mono fun _ _ he => h.trans he

theorem Runs.yields {v : InstId} (h : c.Runs ctx env R w b d) (h' : d.Yields ctx.func b ctx.scope R v e) :
    c.Runs ctx env R w b e ∧ e.Valued ctx.func v :=
  ⟨⟨h.grows.still h'.quiet.still, h'.tokens⟩, h'.valued⟩

end Config

/-- The contract of an expression with the references of a walk. -/
def ExprOk (M : Mode) (code : ExprCode) (w : Walk) : Prop :=
  ∀ (c : Config M.strict) (ctx : Ctx) (env : Env) (b : BlockId) (R : Multiset Token),
    c.tokens = {ctx.here b} + R → c.At ctx env R →
    Sat M (code ctx b) c fun r d =>
      c.Runs ctx env R w r.block d ∧ d.Valued ctx.func r.value

/-- The contract of a statement with the references of a walk. The names that it binds have been
announced. -/
def StmtOk (M : Mode) (code : StmtCode) (names : List String) (w : Walk) : Prop :=
  ∀ (c : Config M.strict) (ctx : Ctx) (env : Env) (b : BlockId) (R : Multiset Token),
    c.tokens = {ctx.here b} + R → c.At ctx env R →
    (M.strict → ∀ name ∈ names, c.HasLocal ctx.scope name) →
    Sat M (code ctx b) c fun b' d => c.Runs ctx env R w b' d

end ScriptIr.Lower
