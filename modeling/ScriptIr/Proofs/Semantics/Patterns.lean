import ScriptIr.Proofs.Semantics.Branches
import ScriptIr.Proofs.Semantics.Names

/-!
# What patterns do

The code of a pattern takes a value apart and puts its parts in the slots of the pattern's names,
which have been announced.

* `bindName_does`: what declaring a name and storing its value does.
* `BindDoes`: what it means for the code of a pattern to bind the parts of a value.
* `declarationCode_does`: what a declaration does.
-/
namespace ScriptIr.Run

open Code Lower ScriptIr.Tree

variable {names : List String} {fs : List Callable}

def BindDoes {V σ : Type} (S : Setting V σ) (B : FunctionSpec)
    (code : BindCode) (names : List String) (ev : Nat → V → StateM σ Unit) (fs : List Callable) :
    Prop :=
  ∀ ctx b n value constant, Does S B ctx b n (.register value) names (code ctx b value constant) id
    (fun _ => .any Unit V) (ev n) fs

variable {V σ : Type} {S : Setting V σ} {B : FunctionSpec} {ι : Type}
  {ctx : Ctx} {b : BlockId} {n : Nat} {K : Context ι V}

/-! ## Names -/

def settle (ctx : Ctx) (b : BlockId) (name : String) (constant : Bool) : Emit InstId := do
  let announced ← scopes (·.hasLocal ctx.scope name)
  let given ← if announced then pure none else some <$> emit ctx b .alloca
  naming (Scope.Naming.declare ctx.scope name given constant)

variable (name : String)

theorem bindName_eq (ctx : Ctx) (b : BlockId) (value : InstId) (constant : Bool) :
    bindName name ctx b value constant = (do
      let slot ← settle ctx b name constant
      perform ctx b (.store slot value)
      return b) := by
  simp only [bindName, settle, bind_assoc]
  congr
  funext announced
  cases announced <;> simp only [Bool.false_eq_true, if_false, if_true, bind_assoc]

theorem declareAnnounced_does (constant : Bool) :
    Does S B ctx b n K [] (naming (Scope.Naming.declare ctx.scope name none constant))
      (fun _ => b) Context.register (fun _ => S.address name) [] := by
  intro s slot t hready hrun
  obtain ⟨hentered, _, _, hown⟩ := declare_ok hready.scope hrun
  have hsame := hentered.same (hown rfl) B ctx.func b
  have hlen : t.len ctx.func b = s.len ctx.func b := by
    unfold State.len State.block? State.fn?
    rw [hentered.module]
  refine ⟨hsame.weaken False.elim, .inl rfl, Nat.lt_of_lt_of_le hready.block hsame.blockCount,
    fun _ => "", ?_⟩
  intro caps A F _ _ i prev regs w _ hsees
  obtain ⟨hlt, a, ha, haddr⟩ := hsees.cell name slot (hown rfl)
  rw [haddr, hlen]
  exact ⟨prev, regs, .refl _, fun _ _ => rfl, Nat.lt_of_lt_of_le hlt hsame.instCount, ha⟩

theorem settle_does (constant : Bool) :
    Does S B ctx b n K [name] (settle ctx b name constant) (fun _ => b) Context.register
      (fun _ => S.address name) [] := by
  intro s slot t hready hrun
  obtain ⟨announced, u, hread, hrun⟩ := run_bind hrun
  cases hread
  dsimp only at hrun
  by_cases hlocal : s.scopes.hasLocal ctx.scope name = true
  · rw [if_pos hlocal] at hrun
    obtain ⟨hgrows, hnext, hlt, names, hruns⟩ :=
      declareAnnounced_does (K := K) name constant s slot t hready hrun
    exact ⟨hgrows.weaken fun h => absurd (announced_nil _ _) h, hnext, hlt, names,
      fun caps A F hw _ => hruns caps A F hw (announced_nil _ _)⟩
  · have hnot : ¬Announced s ctx.scope [name] := fun h => hlocal (h name List.mem_cons_self)
    rw [if_neg hlocal] at hrun
    obtain ⟨given, s1, hgiven, hrun⟩ := run_bind hrun
    obtain ⟨v, hemit, rfl⟩ := run_map hgiven
    obtain ⟨g1, _, a1, _⟩ := (Since.refl (B := B) hready True).emit hemit (.inl rfl) hready.block
    have hscope : ctx.scope < s1.scopes.scopes.size :=
      Nat.lt_of_lt_of_le hready.scope g1.grows.scopes.size
    have hentered := (declare_ok hscope hrun).1.grown B ctx.func b
    have g2 := g1.andThen hentered id
    exact ⟨g2.grows.weaken fun _ => hnot, .inl rfl,
      Nat.lt_of_lt_of_le hready.block g2.grows.blockCount, fun _ => "",
      fun _ _ _ _ hann => absurd hann hnot⟩

theorem bindName_does : BindDoes S B (bindName name) [name] (fun _ v => S.assign name v) [] := by
  intro ctx b n value constant
  rw [bindName_eq]
  refine .bindLast (settle_does name constant) fun slot => .result (.perform ?_) (fun _ => rfl)
    fun _ _ _ _ h => h
  intro p m regs h A prev v
  simp [effect?, h.1.2, h.2.2]

theorem bindFailing_does (construct : Construct) (loc : Option Location) (names : List String)
    (ev : Nat → V → StateM σ Unit) (fs : List Callable) :
    BindDoes S B (bindFailing construct loc) names ev fs := fun _ _ _ _ _ => .throw

/-! ## Arrays -/

/-- The code of the elements of an array pattern binds them, the first at a position. Elements that
cannot be lowered may do anything. -/
inductive ElementBindsDoes (S : Setting V σ) (B : FunctionSpec) :
    List ElementBind → List String → (Nat → Nat → V → StateM σ Unit) → List Callable → Prop
    where
  | nil : ElementBindsDoes S B [] [] (fun _ _ _ => pure ()) []
  | hole {es names evs gs} : ElementBindsDoes S B es names evs gs →
    ElementBindsDoes S B (.hole :: es) names (fun n index v => evs n (index + 1) v) gs
  | rest {loc es names evs gs} : ElementBindsDoes S B (.rest loc :: es) names evs gs
  | item {code es names names' ev evs fs gs} : BindDoes S B code names ev fs →
    ElementBindsDoes S B es names' evs gs →
    ElementBindsDoes S B (.item code :: es) (names ++ names') (fun n index v => do
        let item ← S.perform (.getItem v (← S.number index))
        ev n item
        evs (n + fs.length) (index + 1) v) (fs ++ gs)

theorem bindElements_does {es : List Lower.ElementBind} {evs : Nat → Nat → V → StateM σ Unit}
    (h : ElementBindsDoes S B es names evs fs) (ctx : Ctx) (b : BlockId) (n : Nat) (value : InstId)
    (constant : Bool) (index : Nat) :
    Does S B ctx b n (.register value) names (Lower.bindElements ctx value constant b index es) id
      (fun _ => .any Unit V) (fun v => evs n index v) fs := by
  induction h generalizing b n index with
  | nil => exact .pure rfl fun _ _ _ _ => trivial
  | hole _ ih => exact ih b n (index + 1)
  | rest => exact .throw
  | item hcode _ ih =>
    refine .bindFirst (emitNumber_does index) fun key => .bindFirst (.act ?_) fun item =>
      .bind ((hcode ctx b n item constant).lift (.last _ _)) fun block => ?_
    · intro p m regs h A prev v
      simp [effect?, h.1.2, h.2.2]
    · exact (ih block _ _).lift fun _ _ _ h => h.2.2.2

/-! ## Objects -/

/-- The code of the members of an object pattern binds them. Members that cannot be lowered may do
anything. -/
inductive MemberBindsDoes (S : Setting V σ) (B : FunctionSpec) :
    List (Except Error String × BindCode) → List String → (Nat → V → StateM σ Unit) →
    List Callable → Prop where
  | nil : MemberBindsDoes S B [] [] (fun _ _ => pure ()) []
  | failing {e code ms names evs gs} : MemberBindsDoes S B ((.error e, code) :: ms) names evs gs
  | cons {name text code ms names names' ev evs fs gs} : (∀ x, name = .ok x → x = text) →
    BindDoes S B code names ev fs → MemberBindsDoes S B ms names' evs gs →
    MemberBindsDoes S B ((name, code) :: ms) (names ++ names') (fun n v => do
        let item ← S.getNamed v text
        ev n item
        evs (n + fs.length) v) (fs ++ gs)

theorem bindMembers_does {ms : List (Except Error String × BindCode)} {evs : Nat → V → StateM σ Unit}
    (h : MemberBindsDoes S B ms names evs fs) (ctx : Ctx) (b : BlockId) (n : Nat) (value : InstId)
    (constant : Bool) :
    Does S B ctx b n (.register value) names (Lower.bindMembers ctx value constant b ms) id
      (fun _ => .any Unit V) (evs n) fs := by
  induction h generalizing b n with
  | nil => exact .pure rfl fun _ _ _ _ => trivial
  | failing => exact .throw_bind
  | cons hname hcode _ ih =>
    refine .ofExcept_bind fun x hx => ?_
    cases hname x hx
    refine .bindFirst (getNamed_does (fun _ _ _ h => h) _) fun item =>
      .bind ((hcode ctx b n item constant).lift (.last _ _)) fun block => ?_
    exact (ih block _).lift fun _ _ _ h => h.2.2

/-! ## Defaults -/

theorem bindDefault_does {target : BindCode} {default : ExprCode} {evp : Nat → V → StateM σ Unit}
    {eve : Nat → StateM σ V} {gs : List Callable} (he : ExprDoes S B default eve fs)
    (hp : BindDoes S B target names evp gs) :
    BindDoes S B (bindDefault target default) names (fun n v => do
        let missing ← S.perform (.binary .strictEqual v (← S.perform .undefined))
        let v ← if ← S.decide missing then eve n else pure v
        evp (n + fs.length) v) (fs ++ gs) := by
  intro ctx b n value constant
  have hdoes : Does S B ctx b n (.register value) names (bindDefault target default ctx b value
      constant) id (fun _ => .any Unit V)
      (fun v => (do
        let missing ← S.perform (.binary .strictEqual v (← S.perform .undefined))
        if ← S.decide missing then eve n else return v) >>= fun v => evp (n + fs.length) v)
      (fs ++ gs) :=
    .bindAfter (defaultCode_does he fun _ _ _ h => h) fun r =>
      (hp ctx r.block (n + fs.length) r.value constant).lift (.last _ _)
  refine hdoes.congr fun v _ _ _ => ?_
  simp only [bind_assoc]
  refine bind_congr fun _ => bind_congr fun _ => bind_congr fun missing => ?_
  cases missing <;> rfl

/-! ## Declarations -/

/-- The code of the bindings of a declaration evaluates and binds in turn. -/
inductive BindersDoes (S : Setting V σ) (B : FunctionSpec) :
    List Binder → List String → (Nat → StateM σ Unit) → List Callable → Prop where
  | nil : BindersDoes S B [] [] (fun _ => pure ()) []
  | cons {binder binders names names' ev evp evs fs gs hs} :
    ExprDoes S B (initCode binder.init) ev fs → BindDoes S B binder.bind names evp gs →
    BindersDoes S B binders names' evs hs →
    BindersDoes S B (binder :: binders) (names ++ names') (fun n => do
        let v ← ev n
        evp (n + fs.length) v
        evs (n + fs.length + gs.length)) (fs ++ (gs ++ hs))

theorem bindAll_does {binders : List Binder} {ev : Nat → StateM σ Unit}
    (h : BindersDoes S B binders names ev fs) (ctx : Ctx) (b : BlockId) (n : Nat) (constant : Bool) :
    Does S B ctx b n (.any Unit V) names (bindAll ctx constant b binders) id
      (fun _ => .any Unit V) (fun _ => ev n) fs := by
  induction h generalizing b n with
  | nil => exact .pure rfl fun _ _ _ _ => trivial
  | @cons binder _ _ _ _ _ _ fs gs hs hinit hbind _ ih =>
    refine .bindAfter (hinit ctx b n) fun r =>
      .bind ((hbind ctx r.block (n + fs.length) r.value constant).lift (.last _ _)) fun block => ?_
    exact (ih block _).part

theorem declarationCode_does (d : Tree.Declaration) {binders : List Binder}
    {ev : Nat → StateM σ Unit} (h : BindersDoes S B binders names ev fs) (ctx : Ctx) (b : BlockId)
    (n : Nat) :
    Does S B ctx b n (.any Unit V) names (declarationCode d binders ctx b) id
      (fun _ => .any Unit V) (fun _ => ev n) fs := by
  unfold declarationCode checkBlockWide
  split
  · exact .throw_bind
  · exact bindAll_does h ctx b n d.isConstant

end ScriptIr.Run
