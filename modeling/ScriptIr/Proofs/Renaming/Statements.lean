import ScriptIr.Proofs.Uniform.Statements
import ScriptIr.Proofs.Lower.Statements
import ScriptIr.Proofs.Renaming.Commuting
import ScriptIr.Proofs.Renaming.Trees

/-!
# Code under a renaming

What a node stands for is put together from what its parts stand for, and so is its image. Names enter
a scope under their new names, after which the scope sees them. What stands in the scope is then alike
under both names.

* `commutes_announceNames`: what a scope sees after names are announced in it.
* `alike_closureCode`: functions.
* `alike_listCode`, `alike_blockCode`: lists of statements.
* `alike_forCode`, `alike_forEachCode`: loops whose head declares names.
-/
namespace ScriptIr.Lower

open Code List
open Scope (Arena ScopeId Naming)
open ScriptIr.Tree

variable {L : Lasting} {k : ScopeId} {seen seen' : String → Prop} {P : Arena → Prop} {c c' : ExprCode}
  {binders : List Binder} {ctx : Ctx}

/-! ## Scopes that see names -/

def Lasting.Sights (L : Lasting) (k : ScopeId) (seen : String → Prop) : Prop :=
  ∀ a, L.holds a → (Lasting.seeing k seen).holds a

def adding (seen : String → Prop) (names : List String) : String → Prop := fun name =>
  seen name ∨ name ∈ names

theorem Lasting.Sights.and (h : L.Sights k seen) (names : List String) :
    (L.and (.seeing k (· ∈ names))).Sights k (adding seen names) := fun a ha =>
  ⟨ha.2.1, fun name hname => hname.elim ((h a ha.1).2 name) (ha.2.2 name)⟩

theorem Lasting.Sights.nil (h : L.Sights k seen) : ∀ a, L.holds a → (L.and (.seeing k (· ∈ []))).holds a :=
  fun a ha => ⟨ha, (h a ha).1, fun _ hn => (not_mem_nil hn).elim⟩

theorem Lasting.Sights.mono (h : L.Sights k seen) (hsub : ∀ name, seen' name → seen name) :
    L.Sights k seen' := fun a ha =>
  ⟨(h a ha).1, fun name hname => (h a ha).2 name (hsub name hname)⟩

theorem Lasting.Sights.inner (h : L.Sights k seen) (a : Arena) (ha : L.holds a) (name : String)
    (hname : seen name) : ∃ p, some k = some p ∧ a.Sees p name :=
  ⟨k, rfl, (h a ha).2 name hname⟩

/-- Computations and their images, wherever the scope sees the names. -/
def renames (r : String → String) (seen : String → Prop) : Calculus where
  Site := { p : Lasting × Ctx // p.1.Sights p.2.scope seen }
  Grade := Empty
  ctx i := i.1.2
  holds i _ x x' := Steady r i.1.1.holds x x'
  Fails _ e e' := e' = e.rename r
  plain h := steady_plain h
  bind hx hg := hx.bind hg
  throw h := steady_throw h
  fails_append h _ := h

def renames.site (r : String → String) (ctx : Ctx) (hs : L.Sights ctx.scope seen) : (renames r seen).Site :=
  ⟨(L, ctx), hs⟩

theorem lax_renames (r : String → String) (seen : String → Prop) : (renames r seen).Lax :=
  fun _ _ _ => rfl

/-- A code and its image, wherever the scope sees the names. -/
abbrev AlikeSeeing (r : String → String) (seen : String → Prop) (c c' : Ctx → BlockId → Emit α) : Prop :=
  (renames r seen).Code (fun _ => []) c c'

/-- A code that a node may have, and its image. -/
abbrev OptionAlike (r : String → String) (seen : String → Prop) (c c' : Option (Ctx → BlockId → Emit α)) :
    Prop :=
  (renames r seen).Perhaps (renames r seen).Code (fun _ => []) c c'

/-- A pattern and its image. -/
abbrev BindAlike (r : String → String) (seen : String → Prop) (b b' : BindCode) : Prop :=
  (renames r seen).Bind (fun _ => []) b b'

section

variable {r : String → String} {c c' : Ctx → BlockId → Emit α}

theorem AlikeSeeing.steady (h : AlikeSeeing r seen c c') (ctx : Ctx) (hs : L.Sights ctx.scope seen)
    (block : BlockId) :
    Steady r L.holds (c ctx block) (c' ctx block) := h ⟨(L, ctx), hs⟩ block

theorem AlikeSeeing.mono (h : AlikeSeeing r seen c c') (hsub : ∀ name, seen name → seen' name) :
    AlikeSeeing r seen' c c' := fun i => h ⟨i.1, i.2.mono hsub⟩

theorem BindAlike.mono {b b' : BindCode} (h : BindAlike r seen b b')
    (hsub : ∀ name, seen name → seen' name) : BindAlike r seen' b b' := fun i => h ⟨i.1, i.2.mono hsub⟩

theorem OptionAlike.mono {f : (renames r seen).Site → List Empty} {c c' : Option (Ctx → BlockId → Emit α)}
    (h : (renames r seen).Perhaps (renames r seen).Code f c c')
    (hsub : ∀ name, seen name → seen' name) : OptionAlike r seen' c c' := by
  cases h with
  | none => exact .none
  | some h => exact .some fun i => h ⟨i.1, i.2.mono hsub⟩

end

variable {r : Equiv.Perm String} {binders' : List Binder} {body body' : BodyCode} {inner : String → Prop}
  {items items' : List Item} {b b' : StmtCode} {names : List String}

/-! ## Names -/

section

variable {name : String} (hname : ¬ seen name → r name = name)
include hname

/-- A name that the scope may not see is left alone. -/
theorem alike_identifierAddress (write : Bool) (hs : L.Sights ctx.scope seen) (block : BlockId) :
    Steady r L.holds (identifierAddress ctx block name write)
      (identifierAddress ctx block (r name) write) :=
  steady_identifierAddress ctx block name write fun a ha hsees =>
    hname fun hseen => hsees ((hs a ha).2 name hseen)

theorem alike_readIdentifier : AlikeSeeing r seen (readIdentifier name) (readIdentifier (r name)) :=
  fun i block => (alike_identifierAddress hname false i.2 block).bind fun _ =>
    (steady_emit ..).bind fun _ => steady_pure _

theorem alike_identifierPlace : AlikeSeeing r seen (identifierPlace name) (identifierPlace (r name)) :=
  fun i block => (alike_identifierAddress hname true i.2 block).bind fun _ => steady_pure _

end

/-! ## Declarations -/

/-- Putting one name into a scope, which sees it from then on. -/
theorem commutes_enterOne {x x' : Naming α} {name : String} (hP : ∀ a, P a → L.holds a)
    (h : ∀ a, P a → Naming.Renames r a x x')
    (hpost : ∀ a b res, P a → x a = .ok res b → b.Sees k name) :
    Commutes r P id (naming x) (naming x') fun _ => (L.and (.seeing k (· ∈ [name]))).holds := by
  refine ((commutes_naming (Q := fun _ b => b.Sees k name) h hpost).frame L hP).mono fun _ a h =>
    ⟨h.2, h.1.lt_size, fun other hother => ?_⟩
  rw [mem_singleton.1 hother]
  exact h.1

theorem commutes_announceNames (hs : L.Sights ctx.scope seen) (block : BlockId) (constant : Bool)
    (names : List String) :
    Commutes r L.holds id (announceNames ctx block constant names)
      (announceNames ctx block constant (names.map r))
      fun _ => (L.and (.seeing ctx.scope (· ∈ names))).holds := by
  induction names generalizing L seen with
  | nil => exact commutes_pure () hs.nil
  | cons name names ih =>
    refine Commutes.bind (steady_emit ctx block .alloca) fun slot => ?_
    refine Commutes.bind (commutes_enterOne (fun _ h => h)
      (fun a _ => Naming.renames_forwardDeclare r a ctx.scope name slot constant)
      fun a b res ha hrun => Naming.sees_of_forwardDeclare (hs a ha).1 hrun) fun _ => ?_
    refine (ih (hs.and [name])).mono fun _ a h => ⟨h.1.1, h.2.1, fun other hother => ?_⟩
    rcases mem_cons.1 hother with rfl | hother
    · exact h.1.2.2 _ (mem_singleton.2 rfl)
    · exact h.2.2 other hother

variable (d : Declaration)

theorem steady_checkBlockWide : Steady r P (checkBlockWide d) (checkBlockWide (d.rename r)) := by
  unfold checkBlockWide
  rw [Declaration.kind_rename, Declaration.loc_rename]
  split
  · exact steady_unsupported ..
  · exact steady_pure ()

theorem commutes_announce (hs : L.Sights ctx.scope seen) (block : BlockId) (d : Declaration) :
    Commutes r L.holds id (announce ctx block d) (announce ctx block (d.rename r))
      fun _ => (L.and (.seeing ctx.scope (· ∈ d.boundNames))).holds := by
  unfold announce
  rw [Declaration.isConstant_rename, Declaration.boundNames_rename]
  exact Commutes.bind (steady_checkBlockWide d) fun _ => commutes_announceNames hs block _ _

theorem bindAlike_name (name : String) : BindAlike r seen (bindName name) (bindName (r name)) := by
  rintro ⟨⟨L, ctx⟩, hs⟩ block value constant
  have hstore (given : Option InstId) : Steady r L.holds (do
        let slot ← naming (Naming.declare ctx.scope name given constant)
        perform ctx block (.store slot value)
        return block)
      (do
        let slot ← naming (Naming.declare ctx.scope (r name) given constant)
        perform ctx block (.store slot value)
        return block) :=
    (steady_naming fun a _ => Naming.renames_declare r a ..).bind fun _ =>
      .step (.perform rfl) fun _ => steady_pure _
  refine Steady.bind (steady_scopes fun a => Arena.hasLocal_rename r a ctx.scope name) fun announced => ?_
  dsimp only
  split
  · exact (steady_pure none).bind hstore
  · exact ((steady_emit ..).bind fun _ => steady_pure _ : Steady r L.holds
      (some <$> emit ctx block .alloca) (some <$> emit ctx block .alloca)).bind hstore

theorem bindAlike_failing (construct : Construct) (loc : Option Location) :
    BindAlike r seen (bindFailing construct loc) (bindFailing construct loc) := fun _ _ _ _ =>
  steady_unsupported _ _

theorem alike_declarationCode (h : (renames r seen).Binders (fun _ => []) binders binders') :
    AlikeSeeing r seen (declarationCode d binders) (declarationCode (d.rename r) binders') := by
  intro i block
  unfold declarationCode
  refine Steady.bind (steady_checkBlockWide d) fun _ => ?_
  rw [Declaration.isConstant_rename]
  exact Calculus.bindAll h _

/-! ## Functions -/

theorem parameterNames_rename (ps : List Pattern) : parameterNames (Tree.renamePatterns r ps)
      = (parameterNames ps).map fun p => (p.1.map r, p.2.map r) := by
  fun_induction parameterNames ps with
  | case1 => rfl
  | case2 id params ih =>
    rw [Tree.renamePatterns, Pattern.rename, parameterNames, ih]
    cases parameterNames params <;> rfl
  | case3 id loc => rfl
  | case4 p loc hp =>
    cases p with
    | identifier id => exact absurd rfl (hp id)
    | _ => rfl
  | case5 p e ps => rfl
  | case6 p ps hid hrest hrest' hdefault =>
    cases p with
    | identifier id => exact absurd rfl (hid id)
    | withDefault p e => exact absurd rfl (hdefault p e)
    | rest p loc =>
      cases ps with
      | nil => exact absurd rfl (hrest' p loc rfl)
      | cons q qs => cases p <;> rfl
    | _ => rfl

theorem parameterNames_nameless {ps : List Pattern} {error : Error}
    (h : parameterNames ps = .error error) : error.rename r = error := by
  fun_induction parameterNames ps generalizing error with
  | case2 id params ih =>
    cases hps : parameterNames params with
    | ok p => rw [hps] at h; cases h
    | error e =>
      rw [hps] at h
      cases h
      exact ih hps
  | case1 | case3 => cases h
  | case4 | case5 | case6 => cases h; rfl

/-- The function with other names of parameters. -/
def Header.rename (r : String → String) (h : Header) : Header :=
  { h with params := Tree.renamePatterns r h.params }

theorem commutes_parameterNames (ps : List Pattern) :
    Commutes r P (fun p => (p.1.map r, p.2.map r)) (ofExcept (parameterNames ps))
      (ofExcept (parameterNames (Tree.renamePatterns r ps)))
      fun p a => P a ∧ parameterNames ps = .ok p := by
  rw [parameterNames_rename]
  cases hps : parameterNames ps with
  | ok p => exact commutes_pure _ fun _ hs => ⟨hs, rfl⟩
  | error e =>
    have he := parameterNames_nameless (r := r) hps
    exact commutes_throw he.symm

def Lasting.restless (L : Lasting) (k : ScopeId) : Arena → Prop := fun a =>
  L.holds a ∧ (a.get k).rest = none

/-- A computation on the scopes after which some names are seen and which keeps the rest parameter. -/
theorem commutes_entering {x x' : Naming α} (names : String → Prop) (hs : L.Sights k seen)
    (h : ∀ a, Naming.Renames r a x x')
    (hpost : ∀ a b res, k < a.scopes.size → x a = .ok res b → (∀ name, names name → b.Sees k name) ∧
      (b.get k).rest = (a.get k).rest) :
    Commutes r (L.restless k) id (naming x) (naming x') fun _ => (L.and (.seeing k names)).restless k := by
  have hnaming := commutes_naming (P := L.restless k)
    (Q := fun _ b => (∀ name, names name → b.Sees k name) ∧ (b.get k).rest = none) (fun a _ => h a)
    fun a b res ha hrun => by
      have := hpost a b res (hs a ha.1).1 hrun
      exact ⟨this.1, this.2.trans ha.2⟩
  exact (hnaming.frame L fun _ h => h.1).mono fun _ a h =>
    ⟨⟨h.2, (hs a h.2).1, h.1.1⟩, h.1.2⟩

theorem contains_map_arguments (harg : r "arguments" = "arguments") (names : List String) :
    (names.map r).contains "arguments" = names.contains "arguments" := by
  rw [Bool.eq_iff_iff, contains_iff_mem, contains_iff_mem]
  constructor
  · intro h
    obtain ⟨name, hname, heq⟩ := mem_map.1 h
    rwa [← r.injective (heq.trans harg.symm)]
  · exact fun h => mem_map.2 ⟨_, h, harg⟩

theorem commutes_declareArguments (ctx : Ctx) (harg : r "arguments" = "arguments") (h : Header)
    (names : List String) (hs : L.Sights ctx.scope (adding seen names)) (entry : BlockId) :
    Commutes r (L.restless ctx.scope) id (declareArguments h names ctx entry)
      (declareArguments (h.rename r) (names.map r) ctx entry)
      fun _ => (L.and (.seeing ctx.scope (· ∈ h.implicitNames))).restless ctx.scope := by
  have hkind : (h.rename r).kind = h.kind := rfl
  unfold declareArguments
  rw [hkind, contains_map_arguments harg]
  split
  next hcond =>
    refine Commutes.bind (steady_emit ..) fun slot => ?_
    refine Commutes.bind (steady_emit ..) fun arguments => ?_
    refine Commutes.bind (steady_plain (.perform rfl)) fun _ => ?_
    have hdeclare := commutes_entering (r := r) (· ∈ h.implicitNames) hs
      (x := Naming.declare ctx.scope "arguments" (some slot) false)
      (fun a => by simpa [harg] using
        Naming.renames_declare r a ctx.scope "arguments" (some slot) false)
      fun a b res hk hrun => by
        have hpost := Naming.declare_post hk hrun
        refine ⟨fun name hname => ?_, hpost.2⟩
        obtain rfl : name = "arguments" := by
          unfold Header.implicitNames at hname
          split at hname
          · exact mem_singleton.1 hname
          · cases hname
        exact hpost.1
    exact Commutes.bind hdeclare fun _ => steady_pure ()
  next hcond =>
    refine (steady_pure ()).mono fun _ a ha => ⟨⟨ha.1, (hs a ha.1).1, ?_⟩, ha.2⟩
    intro name hname
    unfold Header.implicitNames at hname
    split at hname
    next hfunction =>
      obtain rfl := mem_singleton.1 hname
      refine (hs a ha.1).2 _ (.inr ?_)
      simpa [hfunction] using hcond
    · cases hname

theorem commutes_declareRest (ctx : Ctx) (hs : L.Sights ctx.scope seen) (entry : BlockId) (skip : Nat)
    (name : String) :
    Commutes r (L.restless ctx.scope) id (declareRest ctx entry skip name)
      (declareRest ctx entry skip (r name))
      fun _ => (L.and (.seeing ctx.scope (· ∈ [name]))).holds := by
  unfold declareRest
  refine Commutes.bind (steady_plain .loadGlobal) fun _ => ?_
  refine Commutes.bind (steady_plain .getNamed) fun _ => ?_
  refine Commutes.bind (steady_plain .getNamed) fun _ => ?_
  refine Commutes.bind (steady_emit ..) fun _ => ?_
  refine Commutes.bind (steady_emit ..) fun _ => ?_
  refine Commutes.bind (steady_plain .callWith) fun _ => ?_
  refine Commutes.bind (steady_emit ..) fun slot => ?_
  refine Commutes.bind (steady_plain (.perform rfl)) fun _ => ?_
  exact commutes_enterOne (fun _ h => h.1) (fun a ha => Naming.renames_setRest r ha.2 name slot)
    fun a b res ha hrun => Naming.sees_of_setRest (hs a ha.1).1 ha.2 hrun

theorem steady_checkHeader (h : Header) : Steady r P (checkHeader h) (checkHeader (h.rename r)) := by
  have hasync : Steady r P (if h.isAsync then unsupported .asyncFunction h.loc else pure ())
      (if h.isAsync then unsupported .asyncFunction h.loc else pure () : Emit Unit) := by
    split
    · exact steady_unsupported ..
    · exact steady_pure ()
  show Steady r P (checkHeader h) (checkHeader h)
  unfold checkHeader
  dsimp only
  split
  · exact (steady_unsupported ..).bind fun _ => hasync
  · exact hasync

theorem commutes_functionCode (harg : r "arguments" = "arguments") (h : Header) {parent : ScopeId}
    (hs : L.Sights parent seen)
    (hbody : AlikeSeeing r (adding seen (h.implicitNames ++ h.params.flatMap Pattern.boundNames))
      body body') :
    Commutes r L.holds (fun p => (p.1, p.2.map r)) (functionCode h body parent)
      (functionCode (h.rename r) body' parent) fun _ => L.holds := by
  unfold functionCode
  refine Commutes.bind (steady_checkHeader h) fun _ => ?_
  refine Commutes.bind (commutes_parameterNames h.params) fun p => ?_
  obtain ⟨names, rest⟩ := p
  by_cases hparams : parameterNames h.params = .ok (names, rest)
  case neg =>
    exact ⟨fun s hs => absurd hs.2 hparams, fun s hs => absurd hs.2 hparams,
      fun s t a hs _ => absurd hs.2 hparams⟩
  refine Commutes.imp (P := L.holds) ?_ (fun _ h => h.1) fun _ _ h => h
  refine Commutes.bind commutes_get fun s => ?_
  have hname : (h.rename r).name = h.name := rfl
  rw [hname, length_map]
  refine Commutes.bind (steady_newFunction ..) fun func => ?_
  refine Commutes.bind (commutes_newScope (some parent) .function seen hs.inner) fun scope => ?_
  have hs1 : (L.and (.seeing scope seen)).Sights scope seen := fun _ ha => ha.2
  refine Commutes.bind (commutes_entering (· ∈ names) hs1
    (fun a => Naming.renames_setParams r scope names a)
    fun a b res hk hrun => Naming.setParamsFrom_post names hk hrun) fun _ => ?_
  have hs2 := hs1.and names
  refine Commutes.bind (steady_newBlock _) fun entry => ?_
  refine Commutes.bind (commutes_declareArguments ⟨func, scope⟩ harg h names hs2 entry) fun _ => ?_
  have hs3 := Lasting.Sights.and (k := scope) hs2 h.implicitNames
  have hbound := (parameters_of_names hparams).boundNames
  -- The body runs under whatever holds after the prelude, with or without a rest parameter.
  have hfinish (L' : Lasting)
      (hs' : L'.Sights scope (adding seen (h.implicitNames ++ h.params.flatMap Pattern.boundNames)))
      (hL : ∀ a, L'.holds a → L.holds a) :
      Commutes r L'.holds (fun p => (p.1, p.2.map r))
        (do body ⟨func, scope⟩ entry; return (s.module.nextId, ← capturedNames scope))
        (do body' ⟨func, scope⟩ entry; return (s.module.nextId, ← capturedNames scope))
        fun _ => L.holds := by
    refine Commutes.bind (hbody.steady ⟨func, scope⟩ hs' entry) fun _ => ?_
    refine Commutes.bind (commutes_capturedNames scope) fun captured => ?_
    exact commutes_pure _ hL
  cases rest with
  | none =>
    refine (hfinish _ (hs3.mono fun name hname => ?_) fun _ ha => ha.1.1.1).imp (fun _ h => h.1)
      fun _ _ h => h
    simp only [adding, hbound, Option.toList_none, append_nil, mem_append] at hname ⊢
    tauto
  | some rest =>
    refine Commutes.bind (commutes_declareRest ⟨func, scope⟩ hs3 entry names.length rest) fun _ => ?_
    refine hfinish _ (Lasting.Sights.mono (Lasting.Sights.and (k := scope) hs3 [rest]) fun name hname => ?_)
      fun _ ha => ha.1.1.1.1
    simp only [adding, hbound, Option.toList_some, mem_append] at hname ⊢
    tauto

theorem alike_closureCode (harg : r "arguments" = "arguments") (h : Header)
    (hbody : AlikeSeeing r (adding seen (h.implicitNames ++ h.params.flatMap Pattern.boundNames))
      body body') :
    AlikeSeeing r seen (closureCode h body) (closureCode (h.rename r) body') := by
  rintro ⟨⟨L, ctx⟩, hs⟩ block
  refine Commutes.bind (commutes_functionCode harg h hs hbody) fun p => ?_
  exact (steady_capturedAddresses ctx block p.2).bind fun _ => (steady_emit ..).bind fun _ => steady_pure _

/-! ## Lists of statements -/

/-- A member of a list and its image. -/
inductive ItemAlike (r : String → String) (seen : String → Prop) : Item → Item → Prop where
  | declaration (d : Declaration) {c c' : StmtCode} (h : AlikeSeeing r seen c c') :
    ItemAlike r seen (.declaration d c) (.declaration (d.rename r) c')
  | function (f : Tree.Function) {c c' : ExprCode} (h : AlikeSeeing r seen c c') :
    ItemAlike r seen (.function f c) (.function (f.rename r) c')
  | statement {c c' : StmtCode} (h : AlikeSeeing r seen c c') :
    ItemAlike r seen (.statement c) (.statement c')

theorem commutes_functionName (f : Tree.Function) :
    Commutes r P r (functionName f) (functionName (f.rename r))
      fun name a => P a ∧ (Item.function f default).declared = [name] := by
  have hdeclared : (Item.function f default).declared = (f.id.map (·.name)).toList := rfl
  unfold functionName
  rw [hdeclared, Tree.Function.id_rename, Tree.Function.loc_rename]
  cases f.id with
  | none => exact commutes_throw rfl
  | some id =>
    exact commutes_pure _ fun _ hs => ⟨hs, rfl⟩

theorem commutes_announceItem {item item' : Item} (h : ItemAlike r inner item item')
    (hs : L.Sights ctx.scope seen) (block : BlockId) :
    Commutes r L.holds id (announceItem ctx block item) (announceItem ctx block item')
      fun _ => (L.and (.seeing ctx.scope (· ∈ item.declared))).holds := by
  cases h with
  | declaration d _ => exact commutes_announce hs block d
  | @function f c c' _ =>
    refine Commutes.bind (commutes_functionName f) fun name => ?_
    by_cases hname : (Item.function f default).declared = [name]
    case neg =>
      exact ⟨fun s hs => absurd hs.2 hname, fun s hs => absurd hs.2 hname,
        fun s t a hs _ => absurd hs.2 hname⟩
    have hdeclared : (Item.function f c).declared = [name] := hname
    rw [hdeclared]
    exact (commutes_announceNames hs block false [name]).imp (fun _ h => h.1) fun _ _ h => h
  | statement _ =>
    exact commutes_pure () hs.nil

theorem commutes_announceItems (h : Forall₂ (ItemAlike r inner) items items')
    (hs : L.Sights ctx.scope seen) (block : BlockId) :
    Commutes r L.holds id (announceItems ctx block items) (announceItems ctx block items')
      fun _ => (L.and (.seeing ctx.scope (· ∈ items.flatMap Item.declared))).holds := by
  induction h generalizing L seen with
  | nil => exact commutes_pure () hs.nil
  | @cons item item' items items' hitem _ ih =>
    refine Commutes.bind (commutes_announceItem hitem hs block) fun _ => ?_
    refine (ih (hs.and item.declared)).mono fun _ a h => ⟨h.1.1, h.2.1, fun name hname => ?_⟩
    rw [flatMap_cons, mem_append] at hname
    exact hname.elim (h.1.2.2 name) (h.2.2 name)

theorem alike_functionDeclarationCode (f : Tree.Function) (h : AlikeSeeing r seen c c') :
    AlikeSeeing r seen (functionDeclarationCode f c) (functionDeclarationCode (f.rename r) c') := by
  rintro ⟨⟨L, ctx⟩, hs⟩ block
  refine Steady.after ((commutes_functionName f).mono fun _ _ h => h.1) fun name => ?_
  exact (h.steady _ hs block).bind fun _ => (steady_naming fun a _ => Naming.renames_declare r a ..).bind
    fun _ => .step (.perform rfl) fun _ => steady_pure _

theorem hoisted_alike (h : Forall₂ (ItemAlike r seen) items items') :
    (renames r seen).Listed (renames r seen).Code (fun _ => []) (items.filterMap Item.hoisted?)
      (items'.filterMap Item.hoisted?) := by
  induction h with
  | nil => exact .nil
  | cons hitem _ ih =>
    cases hitem with
    | declaration d _ => exact ih
    | function f hc => exact .cons (alike_functionDeclarationCode f hc) ih
    | statement _ => exact ih

theorem inPlace_alike (h : Forall₂ (ItemAlike r seen) items items') :
    (renames r seen).Listed (renames r seen).Code (fun _ => []) (items.filterMap Item.inPlace?)
      (items'.filterMap Item.inPlace?) := by
  induction h with
  | nil => exact .nil
  | cons hitem _ ih =>
    cases hitem with
    | declaration d hc => exact .cons hc ih
    | function f _ => exact ih
    | statement hc => exact .cons hc ih

theorem alike_listCode
    (h : Forall₂ (ItemAlike r (adding seen (items.flatMap Item.declared))) items items') :
    AlikeSeeing r seen (listCode items) (listCode items') := by
  rintro ⟨⟨L, ctx⟩, hs⟩ block
  refine Steady.after (commutes_announceItems h hs block) fun _ => ?_
  let i := renames.site r ctx (hs.and (items.flatMap Item.declared))
  exact Steady.bind (Calculus.runAll (i := i) (hoisted_alike h)) fun _ =>
    Calculus.runAll (i := i) (inPlace_alike h)

theorem commutes_innerScope (hs : L.Sights ctx.scope seen) (kind : Scope.Kind) :
    Commutes r L.holds id (newScope (some ctx.scope) kind) (newScope (some ctx.scope) kind)
      fun k => (L.and (.seeing k seen)).holds :=
  (commutes_newScope (some ctx.scope) kind seen hs.inner).mono fun _ _ h => h.1

theorem sights_inner : (L.and (.seeing k seen)).Sights k seen := fun _ ha => ha.2

theorem alike_blockCode
    (h : Forall₂ (ItemAlike r (adding seen (items.flatMap Item.declared))) items items') :
    AlikeSeeing r seen (blockCode items) (blockCode items') := by
  rintro ⟨⟨L, ctx⟩, hs⟩ block
  refine Steady.after (commutes_innerScope hs .block) fun scope => ?_
  exact .step .openFrame fun frame => .step .jump fun _ =>
    ((alike_listCode h).steady (ctx.withScope scope) sights_inner _).bind fun _ =>
      (steady_closeFrame ..).bind fun _ => .step .popScopes fun _ => steady_pure _

/-! ## Other statements -/

theorem alike_returnCode {c c' : Option ExprCode} (h : OptionAlike r seen c c') :
    AlikeSeeing r seen (returnCode c) (returnCode c') := fun i block =>
  Steady.bind (Calculus.code_initCode h i block) fun _ =>
    (steady_scopes fun a => Arena.scopesToFunction_rename r a i.1.2.scope).bind fun _ =>
      .step .popScopes fun _ => .step (.perform rfl) fun _ => steady_newBlock _

theorem alike_jumpCode (label : Option Tree.Identifier) (loc : Option Location) (labeled : Construct)
    {missing : Error} {find : Arena → ScopeId → Option (BlockId × Nat)}
    (hmissing : missing.rename r = missing) (hfind : ∀ a k, find (Arena.rename r a) k = find a k) :
    AlikeSeeing r seen (jumpCode label loc labeled missing find)
      (jumpCode label loc labeled missing find) := by
  rintro ⟨⟨L, ctx⟩, hs⟩ block
  unfold jumpCode
  dsimp only
  split
  on_goal 1 => refine (steady_unsupported ..).bind fun _ => ?_
  -- a label that is refused changes nothing about the jump
  all_goals
    refine Steady.bind (steady_scopes fun a => hfind a ctx.scope) fun found => ?_
    cases found with
    | none => exact steady_throw hmissing.symm
    | some found => exact .step .popScopes fun _ => .step .jump fun _ => steady_newBlock ctx

/-! ## Loops -/

variable (scope : ScopeId)

theorem steady_setBreakTarget (target : BlockId) :
    Steady r L.holds (modifyScopes (·.setBreakTarget scope target))
      (modifyScopes (·.setBreakTarget scope target)) :=
  steady_modifyScopes (fun a => Arena.modify_rename r a scope fun _ => rfl) fun a =>
    Arena.retains_modify a scope _ (fun _ => rfl) fun _ h => h

theorem steady_setContinueTarget (target : BlockId) :
    Steady r L.holds (modifyScopes (·.setContinueTarget scope target))
      (modifyScopes (·.setContinueTarget scope target)) :=
  steady_modifyScopes (fun a => Arena.modify_rename r a scope fun _ => rfl) fun a =>
    Arena.retains_modify a scope _ (fun _ => rfl) fun _ h => h

theorem steady_setTargets (onBreak onContinue : BlockId) :
    Steady r L.holds (setTargets scope onBreak onContinue) (setTargets scope onBreak onContinue) :=
  ((steady_setBreakTarget scope onBreak).bind fun _ => steady_setContinueTarget scope onContinue :)

theorem steady_closeLoop (frame : Frame) (exit : BlockId) :
    Steady r L.holds (closeLoop ctx frame exit) (closeLoop ctx frame exit) :=
  (steady_closeFrame ..).bind fun _ => .step .popScopes fun _ => steady_pure _

theorem alike_loopCode {next : BlockId → BlockId → BlockId} {rounds rounds' : RoundsCode}
    (h : ∀ (L : Lasting) (ctx inner : Ctx), L.Sights inner.scope seen → ∀ start first second exit,
      Steady r L.holds (rounds ctx inner start first second exit)
        (rounds' ctx inner start first second exit)) :
    AlikeSeeing r seen (loopCode next rounds) (loopCode next rounds') := by
  rintro ⟨⟨L, ctx⟩, hs⟩ block
  refine Steady.after (commutes_innerScope hs .block) fun scope => ?_
  exact .step .newBlock fun exit => .step .openFrame fun frame => .step .newBlock fun first =>
    .step .newBlock fun second => (steady_setTargets ..).bind fun _ => .step .jump fun _ =>
      (h _ ctx (ctx.withScope scope) sights_inner ..).bind fun _ => steady_closeLoop ..

theorem alike_whileCode {t t' : ExprCode} (ht : AlikeSeeing r seen t t') (hb : AlikeSeeing r seen b b') :
    AlikeSeeing r seen (whileCode t b) (whileCode t' b') :=
  alike_loopCode fun _ _ inner hs _ _ _ _ => .step .jump fun _ => (ht.steady inner hs _).bind fun _ =>
    .step (.perform rfl) fun _ => (hb.steady inner hs _).bind fun _ => steady_plain .jump

theorem alike_doWhileCode {t t' : ExprCode} (ht : AlikeSeeing r seen t t')
    (hb : AlikeSeeing r seen b b') : AlikeSeeing r seen (doWhileCode t b) (doWhileCode t' b') :=
  alike_loopCode fun _ _ inner hs _ _ _ _ => .step .jump fun _ => (hb.steady inner hs _).bind fun _ =>
    .step .jump fun _ => (ht.steady inner hs _).bind fun _ => steady_plain (.perform rfl)

/-! ## Loops with a head -/

def LoopVariable.rename (r : String → String) (v : LoopVariable) : LoopVariable :=
  { v with name := r v.name }

/-- The first part of a head and its image, after which the scope sees some more names. -/
def HeadAlike (r : String → String) (seen : String → Prop) (names : List String) (h h' : HeadCode) :
    Prop :=
  ∀ (L : Lasting) (ctx : Ctx), L.Sights ctx.scope seen → ∀ block,
    Commutes r L.holds (fun p => (p.1, p.2.map (LoopVariable.rename r))) (h ctx block) (h' ctx block)
      fun _ => (L.and (.seeing ctx.scope (· ∈ names))).holds

theorem headAlike_empty : HeadAlike r seen [] emptyHead emptyHead := fun _ _ hs _ =>
  commutes_pure _ hs.nil

theorem headAlike_expression (h : AlikeSeeing r seen c c') :
    HeadAlike r seen [] (expressionHead c) (expressionHead c') := fun _ _ hs block =>
  Commutes.bind (h.steady _ hs block) fun _ => commutes_pure _ hs.nil

theorem headAlike_declaration {c c' : StmtCode} (h : AlikeSeeing r (adding seen d.boundNames) c c') :
    HeadAlike r seen d.boundNames (declarationHead d c) (declarationHead (d.rename r) c') := by
  intro L ctx hs block
  refine Commutes.bind (commutes_announce hs block d) fun _ => ?_
  refine Commutes.bind (h.steady _ (hs.and d.boundNames) block) fun last => ?_
  rw [Declaration.isConstant_rename, Declaration.boundNames_rename]
  refine ⟨fun s _ => ?_, fun _ _ => .refl _, fun _ _ _ hL hrun => by cases hrun; exact hL⟩
  show EStateM.Result.ok (last, (d.boundNames.map r).map (⟨·, d.isConstant⟩)) (s.rename r)
    = .ok (last, (d.boundNames.map (⟨·, d.isConstant⟩)).map (LoopVariable.rename r)) (s.rename r)
  rw [map_map, map_map]
  rfl

theorem steady_copyAllIn (ctx : Ctx) (hs : L.Sights ctx.scope seen) (block : BlockId)
    (vars : List LoopVariable) :
    Steady r L.holds (copyAllIn ctx block vars) (copyAllIn ctx block (vars.map (LoopVariable.rename r))) :=
  Calculus.copyAllIn (i := renames.site r ctx hs) <| forall₂_map_right_iff.2 <| forall₂_same.2
    fun _ _ => { lookup := steady_naming fun a _ => Naming.renames_lookup r a ..
                 lost := rfl
                 declare := fun _ => steady_naming fun a _ => Naming.renames_declare r a .. }

section Rounds

variable {t t' : Option ExprCode}

theorem steady_plainRounds (ht : OptionAlike r seen t t') (hb : AlikeSeeing r seen b b')
    (hs : L.Sights ctx.scope seen) (testing update exit : BlockId) :
    Steady r L.holds (plainRounds t b ctx testing update exit)
      (plainRounds t' b' ctx testing update exit) :=
  (steady_setContinueTarget ..).bind fun _ => .step .newBlock fun _ =>
    Steady.bind (Calculus.forTest (i := renames.site r ctx hs) ht) fun _ => (hb.steady _ hs _).bind fun _ =>
      steady_plain .jump

theorem steady_copyingRounds (vars : List LoopVariable) (ht : OptionAlike r seen t t')
    (hb : AlikeSeeing r seen b b') (hs : L.Sights ctx.scope seen) (testing update exit : BlockId) :
    Steady r L.holds (copyingRounds vars t b ctx testing update exit)
      (copyingRounds (vars.map (LoopVariable.rename r)) t' b' ctx testing update exit) := by
  refine Steady.after (commutes_innerScope hs .block) fun scope => ?_
  have hs' : (L.and (.seeing scope seen)).Sights ctx.scope seen := fun a ha => hs a ha.1
  refine Steady.step .openFrame fun frame => ?_
  refine Steady.step .newBlock fun ending => ?_
  refine Steady.bind (steady_setContinueTarget ..) fun _ => ?_
  refine Steady.bind (Calculus.forTest (i := renames.site r ctx hs') ht) fun _ => ?_
  refine Steady.bind (steady_copyAllIn (ctx.withScope scope) sights_inner ..) fun copies => ?_
  refine Steady.bind (hb.steady (ctx.withScope scope) sights_inner _) fun last => ?_
  exact .step .jump fun _ => .step .copyAllOut fun _ => .step .popScopes fun _ => .step .jump fun _ =>
    steady_closeFrame ..

theorem steady_forRounds (vars : List LoopVariable) (ht : OptionAlike r seen t t')
    (hb : AlikeSeeing r seen b b') (hs : L.Sights ctx.scope seen) (testing update exit : BlockId) :
    Steady r L.holds (forRounds vars t b ctx testing update exit)
      (forRounds (vars.map (LoopVariable.rename r)) t' b' ctx testing update exit) := by
  unfold forRounds
  rw [isEmpty_map]
  split
  · exact steady_plainRounds ht hb hs ..
  · exact steady_copyingRounds vars ht hb hs ..

theorem alike_forCode {h h' : HeadCode} {u u' : Option ExprCode} (hh : HeadAlike r seen names h h')
    (ht : OptionAlike r (adding seen names) t t') (hu : OptionAlike r (adding seen names) u u')
    (hb : AlikeSeeing r (adding seen names) b b') :
    AlikeSeeing r seen (forCode h t u b) (forCode h' t' u' b') := by
  rintro ⟨⟨L, ctx⟩, hs⟩ block
  refine Steady.after (commutes_innerScope hs .block) fun scope => ?_
  refine Steady.step .newBlock fun exit => ?_
  refine Steady.step .openFrame fun frame => ?_
  refine Steady.bind (steady_setBreakTarget ..) fun _ => ?_
  refine Steady.step .jump fun _ => ?_
  refine Steady.after (hh _ (ctx.withScope scope) sights_inner _) fun p => ?_
  obtain ⟨last, vars⟩ := p
  generalize hM : Lasting.and _ _ = M
  have hs' : M.Sights (ctx.withScope scope).scope (adding seen names) := by
    rw [← hM]
    exact Lasting.Sights.and sights_inner names
  refine Steady.step .newBlock fun testing => ?_
  refine Steady.step .newBlock fun update => ?_
  refine Steady.step .jump fun _ => ?_
  refine Steady.bind (steady_forRounds vars ht hb hs' ..) fun _ => ?_
  refine Steady.bind (Calculus.updatePart (i := renames.site r (ctx.withScope scope) hs') hu) fun last => ?_
  exact .step .jump fun _ => steady_closeLoop ..

end Rounds

/-! ## Loops over keys and items -/

/-- A loop's target and its image, after which the scope sees some more names. -/
def TargetAlike (r : String → String) (seen : String → Prop) (names : List String)
    (t t' : ElementCode) : Prop :=
  ∀ (L : Lasting) (ctx : Ctx), L.Sights ctx.scope seen → ∀ block element,
    Commutes r L.holds id (t ctx block element) (t' ctx block element)
      fun _ => (L.and (.seeing ctx.scope (· ∈ names))).holds

theorem targetAlike_assign {p p' : PlaceCode} (h : AlikeSeeing r seen p p') :
    TargetAlike r seen [] (assignElement p) (assignElement p') := by
  intro L ctx hs block element
  have hsteady : Steady r L.holds (assignElement p ctx block element) (assignElement p' ctx block element) :=
    (h.steady _ hs block).bind fun _ => .step .writePlace fun _ => steady_pure _
  exact hsteady.mono fun _ => hs.nil

theorem targetAlike_declare
    (h : Forall₂ (fun b b' : Binder => BindAlike r (adding seen d.boundNames) b.bind b'.bind)
      binders binders') :
    TargetAlike r seen d.boundNames (declareElement d binders) (declareElement (d.rename r) binders') := by
  intro L ctx hs block element
  refine Commutes.bind (steady_checkBlockWide d) fun _ => ?_
  rw [Declaration.isConstant_rename, Declaration.loc_rename]
  cases h with
  | nil => exact commutes_throw rfl
  | cons hb hrest =>
    cases hrest with
    | nil =>
      exact Commutes.bind (commutes_announce hs block d) fun _ =>
        hb ⟨(_, ctx), hs.and d.boundNames⟩ block element _
    | cons _ _ => exact commutes_throw rfl

theorem alike_forEachCode {protocol : Protocol} (hp : ∀ {ctx rounds v}, Plain ctx.func (protocol ctx rounds v))
    {v v' : ExprCode} {t t' : ElementCode} (isAwait : Bool) (loc : Option Location)
    (hv : AlikeSeeing r seen v v') (ht : TargetAlike r seen names t t')
    (hb : AlikeSeeing r (adding seen names) b b') :
    AlikeSeeing r seen (forEachCode protocol v t b isAwait loc)
      (forEachCode protocol v' t' b' isAwait loc) := by
  rintro ⟨⟨L, ctx⟩, hs⟩ block
  unfold forEachCode
  dsimp only
  split
  · exact commutes_throw rfl
  refine Steady.bind (hv.steady _ hs block) fun v => ?_
  refine Steady.step .newBlock fun next => ?_
  refine Steady.step .newBlock fun exit => ?_
  refine Steady.step .newBlock fun broken => ?_
  refine Steady.after (commutes_innerScope hs .block) fun scope => ?_
  refine Steady.step .openFrame fun frame => ?_
  refine Steady.step .newBlock fun ending => ?_
  refine Steady.bind (steady_setTargets ..) fun _ => ?_
  refine Steady.step hp fun element => ?_
  refine Steady.after (ht _ (ctx.withScope scope) sights_inner _ element) fun round => ?_
  refine Steady.bind (hb.steady (ctx.withScope scope) (.and sights_inner names) _) fun last => ?_
  exact .step .jump fun _ => .step .popScopes fun _ => .step .jump fun _ =>
    (steady_closeFrame ..).bind fun _ => steady_pure _

end ScriptIr.Lower
