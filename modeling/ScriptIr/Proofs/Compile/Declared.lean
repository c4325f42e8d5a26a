import ScriptIr.Proofs.Closures.Making
import ScriptIr.Proofs.Lower.Trees

/-!
# Names that statements declare

A statement that opens a frame declares nothing in the scope in which it stands. A declaration declares
the names of its patterns there, in the slots in which they were announced; those that were not
announced receive a slot on the spot. The members of a list of statements are announced. What stands
in a branch without braces is not, and leaks into the scope around it.

* `sparing`: code declares nothing in the scopes before its own.
-/
namespace ScriptIr

open Code List

variable {constant : Bool} {block last : BlockId} {given : Option InstId} {name : String}
  {ctx : Ctx} {value : InstId} {i : Inst}

/-- The names that a statement declares where it stands, and whether they are constants. -/
def Tree.Statement.leaked : Tree.Statement → List (String × Bool)
  | .declaration d => d.boundNames.map (·, d.isConstant)
  | .ifElse _ a none => a.leaked
  | .ifElse _ a (some b) => a.leaked ++ b.leaked
  | _ => []

/-- Those of them that no list of statements announces. -/
def Tree.Statement.stray : Tree.Statement → List (String × Bool)
  | .declaration _ => []
  | s => s.leaked

/-- The name of a function that a list makes before its other members run. -/
def Tree.Statement.hoisted : Tree.Statement → List (String × Bool)
  | .function f => f.id.toList.map fun id => (id.name, false)
  | _ => []

/-- The names that a list announces for one of its members. -/
def Tree.Statement.announced : Tree.Statement → List (String × Bool)
  | .declaration d => d.boundNames.map (·, d.isConstant)
  | s => s.hoisted

namespace Scope

variable {t u v : Table Declaration} {ms ns : List (String × Bool)} {name : String} {e : Declaration}
  {forward : Bool}

/-- Names enter a table, as constants or not. If they are only announced, each is new. If they are
declared, each is new or has been announced, and keeps the slot that it was announced with. -/
inductive Enters (forward : Bool) : Table Declaration → List (String × Bool) → Table Declaration → Prop where
  | nil (t : Table Declaration) : Enters forward t [] t
  | cons {t u : Table Declaration} {name : String} {constant : Bool} {ns : List (String × Bool)}
      (slot : InstId) : (∀ e, t.find? name = some e → forward = false ∧ e.forward ∧ slot = e.slot) →
      Enters forward (t.put name ⟨slot, forward, constant⟩) ns u →
      Enters forward t ((name, constant) :: ns) u

abbrev Declares := Enters false

namespace Enters

theorem trans (h : Enters forward t ms u) (h' : Enters forward u ns v) : Enters forward t (ms ++ ns) v := by
  induction h with
  | nil => exact h'
  | cons slot hslot _ ih => exact .cons slot hslot (ih h')

section

variable (h : Enters forward t ns u)
include h

theorem has_iff : u.has name = true ↔ t.has name = true ∨ name ∈ ns.map (·.1) := by
  induction h with
  | nil => simp
  | @cons t u declared constant ns slot _ _ ih =>
    rw [ih, Table.has_eq_isSome, Table.has_eq_isSome, Table.find?_put]
    by_cases hname : name = declared
    · simp [hname]
    · simp [hname]

theorem find? (he : t.find? name = some e) : u.find? name = some e ∨
      forward = false ∧ e.forward ∧ ∃ constant, u.find? name = some ⟨e.slot, false, constant⟩ := by
  induction h generalizing e with
  | nil => exact .inl he
  | @cons t u declared constant ns slot hslot _ ih =>
    have hput := Table.find?_put t declared ⟨slot, forward, constant⟩ name
    by_cases hname : name = declared
    · subst hname
      obtain ⟨rfl, hforward, rfl⟩ := hslot e he
      rw [if_pos rfl] at hput
      rcases ih hput with hkept | ⟨-, hfalse, -⟩
      · exact .inr ⟨rfl, hforward, constant, hkept⟩
      · cases hfalse
    · rw [if_neg hname, he] at hput
      exact ih hput

/-- A name that entered is there, in the slot that it had if it had one. -/
theorem find?_of_mem (hmem : (name, constant) ∈ ns) :
    ∃ slot, u.find? name = some ⟨slot, forward, constant⟩ ∧ ∀ e, t.find? name = some e → slot = e.slot := by
  induction h with
  | nil => cases hmem
  | @cons t u declared constant' ns slot hslot hrest ih =>
    have hput := Table.find?_put t declared ⟨slot, forward, constant'⟩ name
    rcases mem_cons.mp hmem with heq | hmem
    · cases heq
      rw [if_pos rfl] at hput
      refine ⟨slot, (hrest.find? hput).resolve_right ?_, fun e he => (hslot e he).2.2⟩
      rintro ⟨rfl, hfalse, -⟩
      cases hfalse
    · obtain ⟨slot', hfind, hkeeps⟩ := ih hmem
      refine ⟨slot', hfind, fun e he => ?_⟩
      by_cases hname : name = declared
      · subst hname
        rw [if_pos rfl] at hput
        exact (hkeeps _ hput).trans (hslot e he).2.2
      · rw [if_neg hname] at hput
        exact hkeeps e (hput.trans he)

theorem find?_of_not_mem (hmem : name ∉ ns.map (·.1)) : u.find? name = t.find? name := by
  induction h with
  | nil => rfl
  | cons slot _ _ ih =>
    rw [map_cons, mem_cons, not_or] at hmem
    rw [ih hmem.2, Table.find?_put, if_neg hmem.1]

end

end Enters

end Scope

namespace Lower

/-! ## Code declares nothing in older scopes -/

/-- Code that declares nothing in the scopes below `low`. -/
def Sparing (low : Nat) (x : Emit α) : Prop :=
  ∀ s a t, low ≤ s.scopes.scopes.size → x s = .ok a t → s.scopes.Spares low t.scopes

namespace Sparing

variable {low : Nat} {x : Emit α} {g : α → Emit β}

theorem of_scopes (h : ∀ s a t, x s = .ok a t → t.scopes = s.scopes) : Sparing low x := by
  intro s a t _ hx
  rw [h s a t hx]
  exact .refl low _

theorem throw (e : Error) : Sparing low (MonadExcept.throw e : Emit α) := nofun

theorem bind (hx : Sparing low x) (hg : ∀ a, Sparing low (g a)) : Sparing low (x >>= g) := by
  intro s b u hs h
  obtain ⟨a, t, hxs, hgt⟩ := run_bind h
  have hfirst := hx s a t hs hxs
  exact hfirst.trans (hg a t b u (hs.trans hfirst.size) hgt)

theorem patch (ctx : Ctx) (v : InstId) (inst : Inst) : Sparing low (patch ctx v inst) :=
  of_scopes fun _ _ _ h => by cases h; rfl

theorem emit (ctx : Ctx) (block : BlockId) (inst : Inst) : Sparing low (emit ctx block inst) :=
  of_scopes fun _ _ _ h => by cases h; rfl

end Sparing

def sparing : Judgement where
  holds _ low _ x := Sparing low x
  pure _ _ _ := .of_scopes fun _ _ _ h => by cases h; rfl
  throw _ _ _ e := .throw e
  bind hx hg := hx.bind hg
  naming _ _ x hx s a t hs h := by
    unfold naming at h
    split at h
    next hrun => cases h; exact hx _ _ _ hs hrun
    next => cases h
  opening hg s a t hs h := by
    obtain ⟨scope, u, hnew, h⟩ := run_bind h
    cases hnew
    exact .trans (.push hs _ _) (hg _ _ hs _ a t (hs.trans (by simp)) h)
  record _ _ _ := .of_scopes fun _ _ _ h => by cases h; rfl
  newBlock _ _ := .of_scopes fun _ _ _ h => by cases h; rfl
  emit ctx block inst _ _ := .emit ctx block inst
  completeFrame ctx push size captured rest _ hrest := by
    refine Sparing.bind (.of_scopes fun _ _ _ h => by cases h; rfl) fun inst => ?_
    dsimp only
    split
    · exact (Sparing.patch ctx push _).bind fun _ => hrest
    · exact .throw _
  completePhi ctx block x incoming _ hx :=
    (Sparing.emit ctx block _).bind fun id => (hx id).bind fun a =>
      (Sparing.patch ctx id _).bind fun _ => .of_scopes fun _ _ _ h => by cases h; rfl

theorem Sparing.perform {low : Nat} (ctx : Ctx) (block : BlockId) (inst : Inst) :
    Sparing low (perform ctx block inst) := .bind (.emit ctx block inst) fun _ => sparing.pure 0 _ _

theorem sparing_closes : sparing.Closes :=
  Judgement.closes_of_ungraded (fun h => h) (.of_scopes fun _ _ _ h => by cases h; rfl)
    (fun _ _ => .of_scopes fun _ _ _ h => by cases h; rfl) .emit

/-! ## What statements declare -/

variable {k : Scope.ScopeId} {ms ns : List (String × Bool)} {x : Emit α} {g : α → Emit β} {s t : State}
  {forward : Bool}

/-- A name is declared, in the slot that it was announced with or in a new one. A store into that slot is
the only new code apart from the instruction that makes the slot. -/
def Stores (ctx : Ctx) (block : BlockId) (name : String) (value : InstId) (constant : Bool) (s t : State) :
    Prop :=
  ∃ slot, (t.scopes = s.scopes.modify ctx.scope fun scope =>
      { scope with locals := scope.locals.put name ⟨slot, false, constant⟩ }) ∧
    ((∃ e, (s.scopes.get ctx.scope).locals.find? name = some e ∧ e.forward ∧ slot = e.slot ∧
        t.module = (s.push ctx.func block (.store slot value)).module) ∨
      (s.scopes.get ctx.scope).locals.find? name = none ∧ slot = s.instCount ctx.func ∧
        t.module = ((s.push ctx.func block .alloca).push ctx.func block (.store slot value)).module)

theorem declared_stores (h : (do
      let slot ← naming (Scope.Naming.declare ctx.scope name given constant)
      perform ctx block (.store slot value)
      return block) s = .ok last t) :
    ∃ slot, (t.scopes = s.scopes.modify ctx.scope fun scope =>
        { scope with locals := scope.locals.put name ⟨slot, false, constant⟩ }) ∧
      t.module = (s.push ctx.func block (.store slot value)).module ∧
      match (s.scopes.get ctx.scope).locals.find? name with
      | some e => e.forward ∧ slot = given.getD e.slot
      | none => given = some slot := by
  obtain ⟨slot, u, hdeclare, h⟩ := run_bind h
  cases h
  unfold naming at hdeclare
  split at hdeclare
  next hrun =>
    cases hdeclare
    exact ⟨slot, (Scope.Naming.declare_eq_ok hrun).1, rfl, (Scope.Naming.declare_eq_ok hrun).2⟩
  next => cases hdeclare

theorem bindName_stores
    (h : bindName name ctx block value constant s = .ok last t) :
    Stores ctx block name value constant s t := by
  obtain ⟨announced, s, hread, h⟩ := run_bind h
  cases hread
  dsimp only at h
  have hlocal : s.scopes.hasLocal ctx.scope name = ((s.scopes.get ctx.scope).locals.find? name).isSome :=
    Scope.Table.has_eq_isSome ..
  cases hfind : (s.scopes.get ctx.scope).locals.find? name with
  | some e =>
    rw [if_pos (by rw [hlocal, hfind]; rfl)] at h
    obtain ⟨slot, hscopes, hmodule, hslot⟩ := declared_stores h
    rw [hfind] at hslot
    exact ⟨slot, hscopes, .inl ⟨e, hfind, hslot.1, hslot.2, hmodule⟩⟩
  | none =>
    rw [if_neg (by simp [hlocal, hfind])] at h
    obtain ⟨given, u, halloca, h⟩ := run_bind h
    cases halloca
    obtain ⟨slot, hscopes, hmodule, hslot⟩ := declared_stores h
    dsimp only at hslot
    rw [hfind] at hslot
    cases hslot
    exact ⟨_, hscopes, .inr ⟨hfind, rfl, hmodule⟩⟩

/-- If a computation succeeds, it declares the given names in scope `k`, or only announces them. -/
def Binds (k : Scope.ScopeId) (ns : List (String × Bool)) (x : Emit α) (s : State)
    (forward : Bool := false) : Prop :=
  ∀ a t, x s = .ok a t → k < s.scopes.scopes.size → s.scopes.scopes.size ≤ t.scopes.scopes.size ∧
      Scope.Enters forward (s.scopes.get k).locals ns (t.scopes.get k).locals

namespace Binds

theorem of_sparing (h : Sparing (k + 1) x) : Binds k [] x s forward := by
  intro a t hx hk
  have hs := h s a t hk hx
  refine ⟨hs.size, ?_⟩
  rw [hs.locals k (Nat.lt_succ_self k)]
  exact .nil _

theorem bind (hx : Binds k ms x s forward) (hg : ∀ a t, Binds k ns (g a) t forward) :
    Binds k (ms ++ ns) (x >>= g) s forward := by
  intro b u h hk
  obtain ⟨a, t, hxs, hgt⟩ := run_bind h
  obtain ⟨hsize, hfirst⟩ := hx a t hxs hk
  obtain ⟨hsize', hsecond⟩ := hg a t b u hgt (hk.trans_le hsize)
  exact ⟨hsize.trans hsize', hfirst.trans hsecond⟩

theorem before (hx : Sparing (k + 1) x) (hg : ∀ a t, Binds k ns (g a) t forward) :
    Binds k ns (x >>= g) s forward :=
  (of_sparing hx).bind hg

theorem after (hx : Binds k ns x s) (hg : ∀ a, Sparing (k + 1) (g a)) : Binds k ns (x >>= g) s := by
  have := hx.bind fun a _ => of_sparing (hg a)
  rwa [append_nil] at this

theorem declare
    (hgiven : ∀ e, (s.scopes.get k).locals.find? name = some e → given = none) :
    Binds k [(name, constant)] (naming (Scope.Naming.declare k name given constant)) s := by
  intro slot t h hk
  unfold naming at h
  split at h
  next hrun =>
    cases h
    obtain ⟨rfl, hslot⟩ := Scope.Naming.declare_eq_ok hrun
    refine ⟨by simp, .cons slot (fun e he => ?_) ?_⟩
    · rw [he, hgiven e he] at hslot
      exact ⟨rfl, hslot⟩
    · rw [Scope.Arena.get_modify_same hk]
      exact .nil _
  next => cases h

theorem bindName (name : String) (ctx : Ctx) (block : BlockId) (value : InstId) (constant : Bool)
    (s : State) : Binds ctx.scope [(name, constant)] (bindName name ctx block value constant) s := by
  intro b t h hk
  obtain ⟨slot, hscopes, hslot⟩ := bindName_stores h
  rw [hscopes]
  refine ⟨by simp, .cons slot (fun e he => ?_) ?_⟩
  · rcases hslot with ⟨e', he', hforward, hslot, -⟩ | ⟨hnone, -⟩
    · cases he'.symm.trans he
      exact ⟨rfl, hforward, hslot⟩
    · cases hnone.symm.trans he
  · rw [Scope.Arena.get_modify_same hk]
    exact .nil _

end Binds

open ScriptIr.Tree

theorem sparing_expression (e : Expression) (ctx : Ctx) (block : BlockId) {low : Nat} :
    Sparing low (expression e ctx block) :=
  Judgement.placed (Judgement.code_expression (J := ⟨_, sparing_closes⟩) e) ctx block

mutual

def patternDefaults : Pattern → List Expression
  | .array ps => elementDefaults ps
  | .object ms => memberDefaults ms
  | .withDefault p e => e :: patternDefaults p
  | _ => []

def elementDefaults : List (Option Pattern) → List Expression
  | [] => []
  | none :: ps => elementDefaults ps
  | some p :: ps => patternDefaults p ++ elementDefaults ps

def memberDefaults : List PatternMember → List Expression
  | [] => []
  | .property _ p _ _ :: ms => patternDefaults p ++ memberDefaults ms
  | .rest .. :: ms => memberDefaults ms

end

/-- Names are bound in order, and defaults are lowered in order. All other instructions in between store
nothing. -/
inductive Bound (ctx : Ctx) (constant : Bool) : List Expression → List String → State → State → Prop where
  | done (s : State) : Bound ctx constant [] [] s s
  | block {es : List Expression} {ns : List String} {s t : State}
    (rest : Bound ctx constant es ns (s.addBlock ctx.func) t) : Bound ctx constant es ns s t
  | inst {es : List Expression} {ns : List String} {s t : State} (b : BlockId) {i : Inst}
    (hi : ∀ slot v, i ≠ .store slot v) (rest : Bound ctx constant es ns (s.push ctx.func b i) t) :
    Bound ctx constant es ns s t
  | default {e : Expression} {es : List Expression} {ns : List String} {b : BlockId} {r : Lowered}
    {s t u : State} (h : expression e ctx b s = .ok r t) (rest : Bound ctx constant es ns t u) :
    Bound ctx constant (e :: es) ns s u
  | name {x : String} {es : List Expression} {ns : List String} {b c : BlockId} {v : InstId}
    {s t u : State} (h : bindName x ctx b v constant s = .ok c t) (rest : Bound ctx constant es ns t u) :
    Bound ctx constant es (x :: ns) s u

/-- Code that binds the names of a pattern and evaluates its defaults `es`. -/
def Binding (ctx : Ctx) (constant : Bool) (es : List Expression) (names : List String) (x : Emit α) : Prop :=
  ∀ s a t, x s = .ok a t → Bound ctx constant es names s t

section Binding

variable {ctx : Ctx} {constant : Bool} {es es' : List Expression} {names more : List String} {u : State}

theorem Bound.trans (h : Bound ctx constant es names s t) (h' : Bound ctx constant es' more t u) :
    Bound ctx constant (es ++ es') (names ++ more) s u := by
  induction h with
  | done => exact h'
  | block _ ih => exact .block (ih h')
  | inst b hi _ ih => exact .inst b hi (ih h')
  | default h _ ih => exact .default h (ih h')
  | name h _ ih => exact .name h (ih h')

theorem Bound.enters (h : Bound ctx constant es names s t) (hk : ctx.scope < s.scopes.scopes.size) :
    s.scopes.scopes.size ≤ t.scopes.scopes.size ∧ Scope.Declares (s.scopes.get ctx.scope).locals
      (names.map (·, constant)) (t.scopes.get ctx.scope).locals := by
  induction h with
  | done s => exact ⟨le_rfl, .nil _⟩
  | block _ ih => exact ih hk
  | inst b _ _ ih => exact ih hk
  | default h _ ih =>
    have hspares := @sparing_expression _ ctx _ (ctx.scope + 1) _ _ _ hk h
    obtain ⟨hsize, hrest⟩ := ih (hk.trans_le hspares.size)
    rw [hspares.locals _ (Nat.lt_succ_self _)] at hrest
    exact ⟨hspares.size.trans hsize, hrest⟩
  | name h _ ih =>
    obtain ⟨hsize, hfirst⟩ := Binds.bindName _ ctx _ _ constant _ _ _ h hk
    obtain ⟨hsize', hrest⟩ := ih (hk.trans_le hsize)
    exact ⟨hsize.trans hsize', hfirst.trans hrest⟩

namespace Binding

theorem pure (a : α) : Binding ctx constant [] [] (Pure.pure a) := fun s _ _ h => by cases h; exact .done s

theorem bind (hx : Binding ctx constant es names x) (hg : ∀ a, Binding ctx constant es' more (g a)) :
    Binding ctx constant (es ++ es') (names ++ more) (x >>= g) := by
  intro s b u h
  obtain ⟨a, t, hxs, hgt⟩ := run_bind h
  exact (hx s a t hxs).trans (hg a t b u hgt)

theorem step (hx : Binding ctx constant [] [] x) (hg : ∀ a, Binding ctx constant es names (g a))
    : Binding ctx constant es names (x >>= g) := hx.bind hg

theorem newBlock : Binding ctx constant [] [] (newBlock ctx) := fun _ _ _ h => by
  cases h
  exact .block (.done _)

theorem emit (block : BlockId) (hi : ∀ slot v, i ≠ .store slot v) :
    Binding ctx constant [] [] (emit ctx block i) := fun _ _ _ h => by
  cases h
  exact .inst block hi (.done _)

theorem perform (block : BlockId) (hi : ∀ slot v, i ≠ .store slot v) :
    Binding ctx constant [] [] (perform ctx block i) := step (emit block hi) fun _ => pure _

theorem defaultCode (e : Expression) (block : BlockId) (value : InstId) :
    Binding ctx constant [e] [] (defaultCode (expression e) ctx block value) := by
  have hlast (r : Lowered) (join : BlockId) : Binding ctx constant [] [] (do
      Lower.perform ctx r.block (.jump join)
      return (⟨join, ← Lower.emit ctx join (.phi [(block, value), (r.block, r.value)])⟩ : Lowered)) :=
    step (perform _ nofun) fun _ => step (emit _ nofun) fun _ => pure _
  exact step newBlock fun _ => step newBlock fun join => step (emit _ nofun) fun _ =>
    step (emit _ nofun) fun _ =>
    step (perform _ nofun) fun _ s b u h => by
      obtain ⟨r, t, hrun, h⟩ := run_bind h
      exact .default hrun (hlast r join t b u h)

end Binding

end Binding

mutual

theorem binding_pattern (p : Pattern) (ctx : Ctx) (block : BlockId) (value : InstId) (constant : Bool) :
    Binding ctx constant (patternDefaults p) p.boundNames (pattern p ctx block value constant) := by
  cases p with
  | identifier id => exact fun s _ _ h => .name h (.done _)
  | array ps => exact binding_patternElements ps ctx value constant block 0
  | object ms => exact binding_patternMembers ms ctx value constant block
  | withDefault p e => exact (Binding.defaultCode e block value).bind fun _ => binding_pattern p ctx _ _ _
  | rest p loc | member loc => exact nofun

theorem binding_patternElements (ps : List (Option Pattern)) (ctx : Ctx) (value : InstId) (constant : Bool)
    (block : BlockId) (index : Nat) :
    Binding ctx constant (elementDefaults ps) (elementNames ps)
      (bindElements ctx value constant block index (patternElements ps)) := by
  match ps with
  | [] => exact .pure _
  | none :: ps => exact binding_patternElements ps ctx value constant block (index + 1)
  | some p :: ps =>
    have hp := binding_pattern p ctx
    have hitem : Binding ctx constant (patternDefaults p ++ elementDefaults ps)
      (p.boundNames ++ elementNames ps)
        (bindElements ctx value constant block index (.item (pattern p) :: patternElements ps)) :=
      .step (.emit _ nofun) fun _ => .step (.emit _ nofun) fun _ => .bind (hp _ _ _) fun _ =>
        binding_patternElements ps ctx value constant _ _
    cases p with
    | rest p loc => exact nofun
    | _ => exact hitem

theorem binding_patternMembers (ms : List PatternMember) (ctx : Ctx) (value : InstId) (constant : Bool)
    (block : BlockId) :
    Binding ctx constant (memberDefaults ms) (memberNames ms)
      (bindMembers ctx value constant block (patternMembers ms)) := by
  match ms with
  | [] => exact .pure _
  | .property key p computed loc :: ms =>
    show Binding _ _ _ _ (ofExcept (patternKey key computed loc) >>= _)
    cases patternKey key computed loc with
    | error e => exact nofun
    | ok name =>
      exact .step (.pure name) fun name => .step (.step (.emit _ nofun) fun _ => .emit _ nofun) fun _ =>
        .bind (binding_pattern p ctx _ _ _) fun _ => binding_patternMembers ms ctx value constant _
  | .rest p loc :: ms => exact nofun

end

theorem binds_pattern (p : Pattern) (ctx : Ctx) (block : BlockId) (value : InstId) (constant : Bool)
    (s : State) :
    Binds ctx.scope (p.boundNames.map (·, constant)) (pattern p ctx block value constant) s :=
  fun a t h => (binding_pattern p ctx block value constant s a t h).enters

theorem binds_bindAll (ds : List Declarator) (ctx : Ctx) (constant : Bool) (block : BlockId) (s : State) :
    Binds ctx.scope ((ds.flatMap (·.target.boundNames)).map (·, constant))
      (bindAll ctx constant block (binders ds)) s := by
  induction ds generalizing block s with
  | nil => exact .of_sparing (sparing.pure 0 _ _)
  | cons d ds ih =>
    obtain ⟨p, init⟩ := d
    have hinit := Calculus.code_initCode (Judgement.optional_expression (J := ⟨_, sparing_closes⟩) init)
    rw [flatMap_cons, map_append]
    exact .before (Judgement.placed hinit ctx block) fun _ _ =>
      .bind (binds_pattern p ctx _ _ _ _) fun _ => ih _

theorem binds_statement (s : Statement) (ctx : Ctx) (block : BlockId) (σ : State) :
    Binds ctx.scope s.leaked (statement s ctx block) σ := by
  have hspare : s.declares = false → Sparing (ctx.scope + 1) (statement s ctx block) := fun hs =>
    Judgement.placed (Judgement.code_statement (J := ⟨_, sparing_closes⟩) s) ctx block fun h => absurd h (by simp [hs])
  cases s with
  | declaration d =>
    obtain ⟨kind, ds, loc⟩ := d
    exact .before (Judgement.checkBlockWide (J := sparing) (f := 0) _) fun _ => binds_bindAll ds ctx _ _
  | ifElse t a b =>
    have hnew : Sparing (ctx.scope + 1) (newBlock ctx) := sparing.newBlock ctx
    have hdone {last following : BlockId} : Sparing (ctx.scope + 1) (do
        perform ctx last (.jump following)
        return following) := .bind (.perform _ _ _) fun _ => sparing.pure 0 _ _
    match b with
    | none =>
      exact .before (sparing_expression t ctx block) fun _ _ => .before hnew fun _ _ =>
        .before hnew fun _ _ => .before (.perform _ _ _) fun _ _ =>
          .after (binds_statement a ctx _ _) fun _ => hdone
    | some b =>
      exact .before (sparing_expression t ctx block) fun _ _ => .before hnew fun _ _ =>
        .before hnew fun _ _ => .before hnew fun _ _ =>
          .before (.perform _ _ _) fun _ _ => .bind (binds_statement a ctx _ _) fun _ _ =>
            .before (.perform _ _ _) fun _ _ => .after (binds_statement b ctx _ _) fun _ => hdone
  | _ => exact .of_sparing (hspare rfl)

/-! ## Members of lists -/

theorem binds_announceNames (names : List String) (ctx : Ctx) (block : BlockId) (constant : Bool) (s : State) :
    Binds ctx.scope (names.map (·, constant)) (announceNames ctx block constant names) s true := by
  induction names generalizing s with
  | nil => exact .of_sparing (sparing.pure 0 _ _)
  | cons name names ih =>
    have hforward (slot : InstId) (s : State) : Binds ctx.scope [(name, constant)]
        (naming (Scope.Naming.forwardDeclare ctx.scope name slot constant)) s true := by
      intro a t h hk
      unfold naming at h
      rw [Scope.Naming.forwardDeclare_eq] at h
      cases howns : (s.scopes.get ctx.scope).owns name with
      | true => rw [howns] at h; cases h
      | false =>
        rw [howns] at h
        cases h
        refine ⟨by simp, .cons slot (fun e he => ?_) ?_⟩
        · simp [Scope.owns, Scope.Table.has_eq_isSome, he] at howns
        · rw [Scope.Arena.get_modify_same hk]
          exact .nil _
    exact .before (.emit _ _ _) fun slot _ => (hforward slot _).bind fun _ _ => ih _

theorem binds_announce (d : Declaration) (ctx : Ctx) (block : BlockId) (s : State) :
    Binds ctx.scope (d.boundNames.map (·, d.isConstant)) (announce ctx block d) s true :=
  .before (Judgement.checkBlockWide (J := sparing) (f := 0) d) fun _ => binds_announceNames _ ctx block _

variable (ss : List Statement)

theorem binds_announceItems (ctx : Ctx) (block : BlockId) (s : State) :
    Binds ctx.scope (ss.flatMap Statement.announced) (announceItems ctx block (items ss)) s true := by
  induction ss generalizing s with
  | nil => exact .of_sparing (sparing.pure 0 _ _)
  | cons m ss ih =>
    rw [flatMap_cons]
    refine Binds.bind ?_ fun _ _ => ih _
    cases m with
    | declaration d => exact binds_announce d ctx block s
    | function f =>
      obtain ⟨id, params, body, generator, isAsync, loc⟩ := f
      cases id with
      | none => exact nofun
      | some id => exact binds_announceNames [id.name] ctx block false s
    | _ => exact .of_sparing (sparing.pure 0 _ _)

theorem binds_hoisted (ctx : Ctx) (block : BlockId) (s : State) :
    Binds ctx.scope (ss.flatMap Statement.hoisted)
      (runAll ctx block ((items ss).filterMap Item.hoisted?)) s := by
  induction ss generalizing block s with
  | nil => exact .of_sparing (sparing.pure 0 _ _)
  | cons m ss ih =>
    cases m with
    | function f =>
      have hclosure : Sparing (ctx.scope + 1) (function f ctx block) :=
        Judgement.placed (Judgement.code_function (J := ⟨_, sparing_closes⟩) f) ctx block
      have hdeclare (name : String) (s : State) : Binds ctx.scope [(name, false)] (do
          let r ← function f ctx block
          let slot ← naming (Scope.Naming.declare ctx.scope name none false)
          perform ctx r.block (.store slot r.value)
          return r.block) s :=
        .before hclosure fun _ _ => .after (.declare fun _ _ => rfl) fun _ =>
          .bind (.perform _ _ _) fun _ => sparing.pure 0 _ _
      rw [flatMap_cons]
      refine Binds.bind ?_ fun _ _ => ih _ _
      obtain ⟨id, params, body, generator, isAsync, loc⟩ := f
      cases id with
      | none => intro _ _ h; cases h
      | some id => exact hdeclare id.name s
    | _ => exact ih block s

theorem binds_inPlace (ctx : Ctx) (block : BlockId) (s : State) :
    Binds ctx.scope (ss.flatMap Statement.leaked)
      (runAll ctx block ((items ss).filterMap Item.inPlace?)) s := by
  induction ss generalizing block s with
  | nil => exact .of_sparing (sparing.pure 0 _ _)
  | cons m ss ih =>
    have hm := binds_statement m ctx block s
    cases m with
    | function f => exact ih block s
    | _ => exact hm.bind fun _ _ => ih _ _

/-- What a list of statements does before the members after `before` run in place. -/
def beforeMember (before rest : List Statement) : StmtCode := fun ctx block => do
  announceItems ctx block (items (before ++ rest))
  let block ← runAll ctx block ((items (before ++ rest)).filterMap Item.hoisted?)
  runAll ctx block ((items before).filterMap Item.inPlace?)

theorem beforeMember_enters {before rest : List Statement}
    (h : beforeMember before rest ctx block s = .ok last t) (hk : ctx.scope < s.scopes.scopes.size) :
    ∃ u, announceItems ctx block (items (before ++ rest)) s = .ok () u ∧
      s.scopes.scopes.size ≤ t.scopes.scopes.size ∧
      Scope.Enters true (s.scopes.get ctx.scope).locals ((before ++ rest).flatMap Statement.announced)
        (u.scopes.get ctx.scope).locals ∧
      Scope.Declares (u.scopes.get ctx.scope).locals
        ((before ++ rest).flatMap Statement.hoisted ++ before.flatMap Statement.leaked)
        (t.scopes.get ctx.scope).locals := by
  obtain ⟨_, u, hannounce, h⟩ := run_bind h
  obtain ⟨hsize, hannounced⟩ := binds_announceItems _ ctx block s _ u hannounce hk
  obtain ⟨hsize', hdeclared⟩ := ((binds_hoisted (before ++ rest) ctx block u).bind fun _ _ =>
    binds_inPlace before ctx _ _) _ t h (hk.trans_le hsize)
  exact ⟨u, hannounce, hsize.trans hsize', hannounced, hdeclared⟩

theorem acquires_beforeMember (before rest : List Statement) (ctx : Ctx) (block : BlockId) (s : State)
    (last : BlockId) (t : State) (h : beforeMember before rest ctx block s = .ok last t)
    (hk : ctx.scope < s.scopes.scopes.size) :
    s.scopes.scopes.size ≤ t.scopes.scopes.size ∧
      ∀ name, s.scopes.hasLocal ctx.scope name ∨ name ∈ declaredNames (before ++ rest) →
        t.scopes.hasLocal ctx.scope name := by
  obtain ⟨u, -, hsize, hannounced, hdeclared⟩ := beforeMember_enters h hk
  have hnames : ((before ++ rest).flatMap Statement.announced).map (·.1) = declaredNames (before ++ rest) := by
    rw [map_flatMap]
    refine flatMap_congr fun s _ => ?_
    cases s with
    | declaration d => exact (map_map ..).trans (map_id _)
    | function f =>
      cases hid : f.id <;> simp [Statement.announced, Statement.hoisted, Statement.declaredNames, hid]
    | _ => rfl
  exact ⟨hsize, fun name hname => hdeclared.has_iff.2 (.inl (hannounced.has_iff.2 (hnames ▸ hname)))⟩

/-- After a statement its scope has the names that it had and those that the statement leaks, and no
others. What it had stays as it is, except that an announced name may have become a real one, in the
same slot. Of a member of a list only what is not announced leaks: the names of declarations that
stand in a branch without braces. -/
theorem statement_declares_leaked (s : Statement) (ctx : Ctx) (block last : BlockId) (σ τ : State)
    (hscope : ctx.scope < σ.scopes.scopes.size) (hrun : statement s ctx block σ = .ok last τ) :
    (∀ name, τ.scopes.hasLocal ctx.scope name ↔
      σ.scopes.hasLocal ctx.scope name ∨ name ∈ s.leaked.map (·.1)) ∧
    (∀ name d, (σ.scopes.get ctx.scope).locals.find? name = some d →
      (τ.scopes.get ctx.scope).locals.find? name = some d ∨ d.forward ∧ ∃ constant,
        (τ.scopes.get ctx.scope).locals.find? name = some ⟨d.slot, false, constant⟩) ∧
    (∀ before after first ρ, ctx.scope < ρ.scopes.scopes.size →
      beforeMember before (s :: after) ctx first ρ = .ok block σ →
      ∀ name, τ.scopes.hasLocal ctx.scope name ↔
        σ.scopes.hasLocal ctx.scope name ∨ name ∈ s.stray.map (·.1)) := by
  obtain ⟨-, hdeclares⟩ := binds_statement s ctx block σ last τ hrun hscope
  refine ⟨fun name => hdeclares.has_iff, fun name d hd => (hdeclares.find? hd).imp_right And.right, ?_⟩
  intro before after first ρ hρ hbefore name
  have hnames := (acquires_beforeMember before (s :: after) ctx first ρ block σ hbefore hρ).2
  cases s with
  | declaration d =>
    refine hdeclares.has_iff.trans ⟨fun h => .inl (h.elim id fun hd => hnames name (.inr ?_)), ?_⟩
    · have hbound : name ∈ d.boundNames := by simpa [Statement.leaked] using hd
      exact List.mem_flatMap.2 ⟨.declaration d, by simp, hbound⟩
    · exact fun h => .inl (h.resolve_right List.not_mem_nil)
  | _ => exact hdeclares.has_iff

def declares (name : String) : Statement :=
  .declaration (.mk .blockWide [.mk (.identifier { name }) (some (.this none))] none)

def leakingBranch : Statement := .ifElse (.this none) (declares "b") none

def freshFunction : State :=
  { module := ((Code.Module.empty "m" 0).newFunc "f" 0).2.modify 0 fun f => f.newBlock.2
    scopes := (Scope.Arena.empty.push none .function).2 }

/-- The second member of `let a = this; if (this) let b = this;`. -/
theorem statement_declares_leaked_branch :
    ∃ block σ last τ, beforeMember [declares "a"] [leakingBranch] ⟨0, 0⟩ 0 freshFunction = .ok block σ ∧
      statement leakingBranch ⟨0, 0⟩ block σ = .ok last τ ∧ σ.scopes.hasLocal 0 "b" = false ∧
      ∀ name, τ.scopes.hasLocal 0 name ↔ σ.scopes.hasLocal 0 name ∨ name ∈ ["b"] := by
  have hrun : (match beforeMember [declares "a"] [leakingBranch] ⟨0, 0⟩ 0 freshFunction with
      | .ok block σ =>
        match statement leakingBranch ⟨0, 0⟩ block σ with
        | .ok .. => !σ.scopes.hasLocal 0 "b"
        | .error .. => false
      | .error .. => false) = true := by decide +kernel
  split at hrun
  · next block σ hbefore =>
    split at hrun
    · next last τ hlast =>
      have hσ := (acquires_beforeMember _ _ ⟨0, 0⟩ 0 freshFunction block σ hbefore Nat.zero_lt_one).1
      exact ⟨block, σ, last, τ, hbefore, hlast, by simpa using hrun,
        (statement_declares_leaked leakingBranch ⟨0, 0⟩ block last σ τ (Nat.zero_lt_one.trans_le hσ)
          hlast).2.2 [declares "a"] [] 0 freshFunction Nat.zero_lt_one hbefore⟩
    · cases hrun
  · cases hrun

/-- A declaration in a branch without braces is not rejected: the scope around the branch has its name
from then on. -/
theorem branch_declares_around :
    ∃ last τ, statement leakingBranch ⟨0, 0⟩ 0 freshFunction = .ok last τ ∧
      freshFunction.scopes.hasLocal 0 "b" = false ∧ τ.scopes.hasLocal 0 "b" = true := by
  have hrun : (match statement leakingBranch ⟨0, 0⟩ 0 freshFunction with
      | .ok _ τ => !freshFunction.scopes.hasLocal 0 "b" && τ.scopes.hasLocal 0 "b"
      | .error .. => false) = true := by decide +kernel
  split at hrun
  · next last τ hlast => exact ⟨last, τ, hlast, by simpa using hrun⟩
  · cases hrun

end Lower

end ScriptIr
