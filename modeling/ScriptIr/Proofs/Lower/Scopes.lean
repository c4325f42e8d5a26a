import ScriptIr.Proofs.Lower.Steps

/-!
# Steps that change the scopes

Names enter a scope while it takes names, lookups add captures to scopes that are not closed, and a
scope that has all its names is settled. Each of these steps keeps the configuration valid.
-/
namespace ScriptIr.Lower

open Scope Layout

variable {M : Mode} {strict : Prop}

namespace Layout

variable {p : Layout}

def withScopes (p : Layout) (a : Arena) : Layout :=
  { p with toState := { p.toState with scopes := a } }

theorem withScopes_extends {a : Arena} (hsize : p.scopeCount ≤ a.scopes.size)
    (hparent : ∀ k, k < p.scopeCount → (a.get k).parent = p.parent? k)
    (hkind : ∀ k, k < p.scopeCount → (a.get k).kind = p.kind k)
    (hown : ∀ k name slot, p.own? k name = some slot → (a.get k).own? name = some slot)
    (hlocal : ∀ k name, p.HasLocal k name → (a.get k).locals.has name = true)
    (hcaptures : ∀ k, p.scopes.captures k <+: a.captures k)
    (hfrozen : strict → ∀ k name, p.env k ≠ none → (a.get k).own? name = p.own? k name) :
    p.Extends strict (p.withScopes a) where
  __ := @Extends.refl strict p
  size := hsize
  parent := hparent
  kind := hkind
  own := hown
  hasLocal := hlocal
  captures := hcaptures
  frozen := hfrozen

/-- Finished code does not depend on names. -/
theorem codeOk_withScopes {a : Arena} {T U : Multiset Token} (h : CodeOk p T)
    (hext : p.Extends strict (p.withScopes a))
    (hblock : ∀ f b k, .block f b k ∈ T → .block f b k ∈ U) : CodeOk (p.withScopes a) U :=
  h.grow hext rfl rfl h.placed (fun _ _ _ hi => .inl hi)
    (fun f b _ hb hno => .inl ⟨hb, fun k hk => hno k (hblock f b k hk)⟩) fun _ hf => .inl hf

end Layout

namespace Config

variable {c : Config strict} {k : ScopeId}

/-- What names mean stays valid as long as names enter unsettled scopes only and closed scopes capture
nothing more. -/
theorem lexical_withScopes {a : Arena} {U : Multiset Token} (hs : strict)
    (hext : c.toLayout.Extends strict (c.withScopes a))
    (hclosed : ∀ k, k < a.scopes.size → (∀ phase, .scope k phase ∉ U) →
      k < c.scopeCount ∧ (∀ phase, .scope k phase ∉ c.tokens) ∧ a.captures k = c.scopes.captures k)
    (hunmade : ∀ k phase, .scope k phase ∈ U → (a.get k).kind = .function → c.maker (c.home k) = none)
    (hslots : ∀ f v k, .slot f v k ∈ c.tokens → .slot f v k ∈ U ∨
      ∃ name, (a.get k).own? name = some (.cell v)) : LexicalOk (c.withScopes a) U := by
  have h := c.lexicalOk hs
  have hown : ∀ k env name, c.env k = some env → (c.withScopes a).own? k name = c.own? k name :=
    fun k env name he => hext.frozen hs k name (by rw [he]; exact Option.some_ne_none env)
  constructor
  · intro k env name slot he ho
    rw [hown k env name he] at ho
    exact h.own k env name slot he ho
  · intro k env name he hp ho
    rw [hown k env name he] at ho
    rw [hext.parent k (c.arenaOk.named k env he)] at hp
    exact h.root k env name he hp ho
  · intro k env outer he hp
    rw [hext.parent k (c.arenaOk.named k env he)] at hp
    obtain ⟨env', he', hall⟩ := h.outer k env outer he hp
    exact ⟨env', he', fun name ho => hall name ((hown k env name he).symm.trans ho)⟩
  · intro k outer hk hno hp
    obtain ⟨hlt, hT, hcaptures⟩ := hclosed k hk hno
    rw [hext.parent k hlt] at hp
    obtain ⟨env, he⟩ := Option.ne_none_iff_exists'.mp (c.tokensOk.settled k hlt fun names => hT _)
    exact c.closed_grow hs hext hlt hT hp hcaptures fun f v captured ho =>
      ho.mono hext hlt (funext fun name => hown k env name he) fun i hi => hi
  · exact h.makers
  · exact h.made
  · exact hunmade
  · intro f v hv
    obtain ⟨k, hk, hkept⟩ := h.slots f v hv
    refine ⟨k, hk.mono hext, ?_⟩
    rcases hkept with ht | ⟨name, ho⟩
    · exact hslots f v k ht
    · exact .inr ⟨name, hext.own k name _ ho⟩

/-! ## Lookups -/

theorem exists_captured {along : List ScopeId} {a : Arena} (hsound : a.Sound)
    (hcap : c.scopes.Captured along a) (hlive : ∀ x ∈ along, ∃ phase, .scope x phase ∈ c.tokens) :
    ∃ d : Config strict, d.toLayout = c.withScopes a ∧ d.tokens = c.tokens ∧ c ≤ d := by
  have hsize : a.scopes.size = c.scopeCount := hcap.size
  have hown : ∀ x, (a.get x).own? = (c.scopes.get x).own? := hcap.own?
  have hkind : ∀ x, (a.get x).kind = c.kind x := by
    intro x
    obtain ⟨more, index, hx, _⟩ := hcap.get x
    rw [hx]
    rfl
  have hext : c.toLayout.Extends strict (c.withScopes a) := by
    refine withScopes_extends hsize.symm.le (fun x _ => hcap.parent x)
      (fun x _ => hkind x) ?_ ?_ ?_ ?_
    · intro x name slot ho
      rw [hown]
      exact ho
    · intro x name hl
      obtain ⟨more, index, hx, _⟩ := hcap.get x
      rw [hx]
      exact hl
    · intro x
      obtain ⟨more, index, hx, _⟩ := hcap.get x
      exact ⟨more, by unfold Arena.captures; rw [hx]; rfl⟩
    · intro _ x name _
      rw [hown]
      rfl
  have hown' : (c.withScopes a).own? = c.own? := by
    funext x name
    exact congrFun (hown x) name
  have hkind' : (c.withScopes a).kind = c.kind := funext hkind
  have hparent' : (c.withScopes a).parent? = c.parent? := funext hcap.parent
  have hcount : (c.withScopes a).scopeCount = c.scopeCount := hcap.size
  refine ⟨⟨c.withScopes a, c.tokens, ?_, ?_, ?_, ?_⟩, rfl, rfl, hext⟩
  · refine ⟨c.tokensOk.distinct, ?_, ?_, ?_, ?_, ?_⟩
    · intro f b l hl
      obtain ⟨ids, hids, hpath⟩ := c.tokensOk.block f b l hl
      exact ⟨ids, hids, hpath.mono hext⟩
    · rw [hcount]; exact c.tokensOk.scope
    · rw [hown']; exact c.tokensOk.naming
    · rw [hcount]; exact c.tokensOk.settled
    · rw [hown']; exact c.tokensOk.slot
  · exact codeOk_withScopes c.codeOk hext fun _ _ _ h => h
  · constructor
    · exact hsound
    · rw [hkind', hparent']; exact c.arenaOk.inner
    · rw [hcount]; exact c.arenaOk.home
    · rw [hown']; exact c.arenaOk.cell
    · rw [hown', hkind']; exact c.arenaOk.params
    · rw [hown']; exact c.arenaOk.slots
    · rw [hcount, hkind']; exact c.arenaOk.bodies
    · intro x t ht
      obtain ⟨more, index, hx, _⟩ := hcap.get x
      have ht' : (a.get x).breakTarget = some t ∨ (a.get x).continueTarget = some t := ht
      rw [hx] at ht'
      exact (c.arenaOk.target x t ht').mono hext
    · rw [hcount]; exact c.arenaOk.named
    · exact fun k v hv => (c.arenaOk.framed k v hv).mono hext
    · exact c.arenaOk.frames
    · intro x hx
      obtain ⟨more, index, hget, _⟩ := hcap.get x
      unfold Counts Arena.variableCount
      rw [hown', show (c.withScopes a).scopes.get x = _ from hget]
      exact c.arenaOk.counted x ((hkind x).symm.trans hx)
  · refine fun hs => c.lexical_withScopes hs hext ?_ ?_ fun _ _ _ => .inl
    · intro l hl hno
      refine ⟨hsize ▸ hl, hno, ?_⟩
      obtain ⟨more, index, hx, hm⟩ := hcap.get l
      cases more with
      | nil => unfold Arena.captures; rw [hx, List.append_nil]; rfl
      | cons x xs =>
        obtain ⟨phase, hp⟩ := hlive l (hm (by simp))
        exact absurd hp (hno phase)
    · intro l phase hl hk
      exact (c.lexicalOk hs).unmade l phase hl ((hkind l).symm.trans hk)

end Config

/-- A lookup from a scope that is not closed fails only on a name that is used before its declaration.
It finds nothing when no scope of the chain knows the name; otherwise the scope knows the answer. -/
theorem lookup_sat {c : Config M.strict} {k : ScopeId}
    (hlive : ∀ x ∈ c.scopes.chain k, ∃ phase, .scope x phase ∈ c.tokens) (name : String)
    (tolerant upper : Bool) :
    Sat M (naming (Scope.Naming.lookup k name tolerant upper)) c fun r d =>
      c.Still d ∧ d.tokens = c.tokens ∧ match r with
        | none => ∀ x ∈ c.scopes.chain k, (c.scopes.get x).binding? name = none
        | some r => (d.scopes.get k).binding? name = some r := by
  have hlook := Scope.Naming.lookupAlong_sound c.arenaOk.sound name k tolerant upper
  rw [← Scope.Naming.lookup_eq] at hlook
  unfold Sat naming
  cases hrun : Scope.Naming.lookup k name tolerant upper c.scopes with
  | error e a =>
    rw [hrun] at hlook
    rw [show e = .undefined name from hlook]
    exact M.allows
  | ok r a =>
    rw [hrun] at hlook
    cases r with
    | none =>
      obtain ⟨rfl, hnone⟩ := hlook
      exact ⟨c, rfl, (Config.Quiet.refl c).still, rfl, hnone⟩
    | some r =>
      obtain ⟨hsound, hcap, hbind⟩ := hlook
      obtain ⟨d, hd, htokens, hle⟩ := Config.exists_captured hsound hcap hlive
      refine ⟨d, by rw [hd]; rfl, ⟨hle, by rw [hd]; rfl, ?_⟩, htokens, ?_⟩
      · rw [hd]; exact hcap.size
      · show (d.scopes.get k).binding? name = some r
        rw [hd]
        exact hbind

/-! ## One scope changed -/

namespace Config

variable {c : Config strict} {k : ScopeId} {new : Scope} {U : Multiset Token}

/-- Scope `k` can be replaced by `new`, and the tokens by `U`: the scope keeps its place and its slots,
and what it has in addition is valid. -/
structure Rescoped (c : Config strict) (k : ScopeId) (new : Scope) (U : Multiset Token) : Prop where
  parent : new.parent = c.parent? k
  kind : new.kind = c.kind k
  captures : new.SameCaptures (c.scopes.get k)
  own : ∀ name slot, c.own? k name = some slot → new.own? name = some slot
  hasLocal : ∀ name, c.HasLocal k name → new.locals.has name = true
  frozen : strict → c.env k ≠ none → ∀ name, new.own? name = c.own? k name
  cell : ∀ name v, new.own? name = some (.cell v) → c.inst? (c.home k) v = some .alloca
  params : ∀ name i, new.own? name = some (.parameter i) →
    c.kind k = .function ∧ c.positions k name = some i
  slots : ∀ name other slot, new.own? name = some slot → new.own? other = some slot → name = other
  apart : ∀ l name other slot, l ≠ k → new.own? name = some slot → c.own? l other = some slot →
    c.home k ≠ c.home l
  target : ∀ t, new.breakTarget = some t ∨ new.continueTarget = some t → c.HasBlock (c.home k) t k
  distinct : (U.map Token.key).Nodup
  block : ∀ f b l, .block f b l ∈ U ↔ .block f b l ∈ c.tokens
  others : ∀ l phase, l ≠ k → (.scope l phase ∈ U ↔ .scope l phase ∈ c.tokens)
  here : (∃ phase, .scope k phase ∈ U) ↔ ∃ phase, .scope k phase ∈ c.tokens
  naming : ∀ names, .scope k (.naming names) ∈ U →
    c.env k = none ∧ names.Nodup ∧ ∀ name, (new.own? name).isSome ↔ name ∈ names
  settled : (∀ names, .scope k (.naming names) ∉ U) → c.env k ≠ none
  slot : ∀ f v l, .slot f v l ∈ U → .slot f v l ∈ c.tokens ∧
    (c.home k = f → ∀ name, new.own? name ≠ some (.cell v))
  filled : ∀ f v l, .slot f v l ∈ c.tokens → .slot f v l ∈ U ∨
    l = k ∧ ∃ name, new.own? name = some (.cell v)
  counted : c.kind k = .block → ∃ names : List String, names.Nodup ∧
    names.length = new.locals.length ∧ ∀ name, (new.own? name).isSome ↔ name ∈ names

section Rescoped

variable {a : Arena} (h : c.Rescoped k new U) (hr : c.scopes.Replaced k new a)
include h hr

omit h in
theorem Rescoped.own?_here (name : String) : (c.withScopes a).own? k name = new.own? name :=
  congrArg (fun s : Scope => s.own? name) hr.here

omit h in
theorem Rescoped.own?_other {x : ScopeId} (hx : x ≠ k) (name : String) :
    (c.withScopes a).own? x name = c.own? x name :=
  congrArg (fun s : Scope => s.own? name) (hr.other x hx)

theorem Rescoped.kind_eq : (c.withScopes a).kind = c.kind := by
  funext x
  show (a.get x).kind = c.kind x
  by_cases hx : x = k
  · rw [hx, hr.here, h.kind]
  · rw [hr.other x hx]; rfl

theorem Rescoped.parent_eq : (c.withScopes a).parent? = c.parent? := by
  funext x
  show (a.get x).parent = c.parent? x
  by_cases hx : x = k
  · rw [hx, hr.here, h.parent]
  · rw [hr.other x hx]; rfl

theorem Rescoped.captures_eq (x : ScopeId) : a.captures x = c.scopes.captures x := by
  show (a.get x).captures = c.scopes.captures x
  by_cases hx : x = k
  · rw [hx, hr.here, h.captures.1]
    rfl
  · rw [hr.other x hx]; rfl

theorem Rescoped.extends : c.toLayout.Extends strict (c.withScopes a) := by
  refine withScopes_extends hr.size.symm.le
    (fun x _ => congrFun (h.parent_eq hr) x) (fun x _ => congrFun (h.kind_eq hr) x) ?_ ?_
    (fun x => h.captures_eq hr x ▸ List.prefix_rfl) ?_
  · intro x name slot ho
    by_cases hx : x = k
    · subst hx; rw [hr.here]; exact h.own name slot ho
    · rw [hr.other x hx]; exact ho
  · intro x name hl
    by_cases hx : x = k
    · subst hx; rw [hr.here]; exact h.hasLocal name hl
    · rw [hr.other x hx]; exact hl
  · intro hs x name he
    by_cases hx : x = k
    · subst hx; rw [hr.here]; exact h.frozen hs he name
    · rw [hr.other x hx]; rfl

theorem Rescoped.tokensOk : TokensOk (c.withScopes a) U := by
  have hcount : (c.withScopes a).scopeCount = c.scopeCount := hr.size
  refine ⟨h.distinct, ?_, ?_, ?_, ?_, ?_⟩
  · intro f b l hl
    obtain ⟨ids, hids, hpath⟩ := c.tokensOk.block f b l ((h.block f b l).mp hl)
    exact ⟨ids, hids, hpath.mono (h.extends hr)⟩
  · intro l phase hl
    rw [hcount]
    by_cases hlk : l = k
    · subst hlk
      obtain ⟨phase', hp⟩ := h.here.mp ⟨phase, hl⟩
      exact c.tokensOk.scope l phase' hp
    · exact c.tokensOk.scope l phase ((h.others l phase hlk).mp hl)
  · intro l names hl
    by_cases hlk : l = k
    · subst hlk
      simp only [Rescoped.own?_here hr]
      exact h.naming names hl
    · simp only [Rescoped.own?_other hr hlk]
      exact c.tokensOk.naming l names ((h.others l _ hlk).mp hl)
  · intro l hl hno
    by_cases hlk : l = k
    · subst hlk
      exact h.settled hno
    · exact c.tokensOk.settled l (hcount ▸ hl) fun names hn => hno names ((h.others l _ hlk).mpr hn)
  · intro f v m hv
    obtain ⟨hold, hnew⟩ := h.slot f v m hv
    refine ⟨(c.tokensOk.slot f v m hold).1, fun l name hl => ?_⟩
    by_cases hlk : l = k
    · subst hlk
      rw [Rescoped.own?_here hr]
      exact hnew hl name
    · rw [Rescoped.own?_other hr hlk]
      exact (c.tokensOk.slot f v m hold).2 l name hl

theorem Rescoped.arenaOk : ArenaOk (c.withScopes a) := by
  have hcount : (c.withScopes a).scopeCount = c.scopeCount := hr.size
  constructor
  · refine c.arenaOk.sound.replaced hr h.parent h.captures fun name ho => ?_
    obtain ⟨slot, hslot⟩ := Option.isSome_iff_exists.mp ho
    rw [h.own name slot hslot]
    rfl
  · rw [h.kind_eq hr, h.parent_eq hr]; exact c.arenaOk.inner
  · rw [hcount]; exact c.arenaOk.home
  · intro l name v ho
    by_cases hlk : l = k
    · subst hlk
      rw [Rescoped.own?_here hr] at ho
      exact h.cell name v ho
    · rw [Rescoped.own?_other hr hlk] at ho
      exact c.arenaOk.cell l name v ho
  · intro l name i ho
    rw [h.kind_eq hr]
    by_cases hlk : l = k
    · subst hlk
      rw [Rescoped.own?_here hr] at ho
      exact h.params name i ho
    · rw [Rescoped.own?_other hr hlk] at ho
      exact c.arenaOk.params l name i ho
  · intro l m name other slot hl hm hhome
    by_cases hlk : l = k
    · by_cases hmk : m = k
      · subst hlk hmk
        rw [Rescoped.own?_here hr] at hl hm
        exact ⟨rfl, h.slots name other slot hl hm⟩
      · subst hlk
        rw [Rescoped.own?_here hr] at hl
        rw [Rescoped.own?_other hr hmk] at hm
        exact absurd hhome (h.apart m name other slot hmk hl hm)
    · by_cases hmk : m = k
      · subst hmk
        rw [Rescoped.own?_here hr] at hm
        rw [Rescoped.own?_other hr hlk] at hl
        exact absurd hhome.symm (h.apart l other name slot hlk hm hl)
      · rw [Rescoped.own?_other hr hlk] at hl
        rw [Rescoped.own?_other hr hmk] at hm
        exact c.arenaOk.slots l m name other slot hl hm hhome
  · rw [hcount, h.kind_eq hr]; exact c.arenaOk.bodies
  · intro l t ht
    have ht' : (a.get l).breakTarget = some t ∨ (a.get l).continueTarget = some t := ht
    refine Layout.HasBlock.mono ?_ (h.extends hr)
    by_cases hlk : l = k
    · subst hlk
      rw [hr.here] at ht'
      exact h.target t ht'
    · rw [hr.other l hlk] at ht'
      exact c.arenaOk.target l t ht'
  · rw [hcount]; exact c.arenaOk.named
  · exact fun k v hv => (c.arenaOk.framed k v hv).mono (h.extends hr)
  · exact c.arenaOk.frames
  · intro l hl
    unfold Layout.Counts Layout.own? Arena.variableCount
    show ∃ names : List String, names.Nodup ∧ names.length = (a.get l).locals.length ∧
      ∀ name, ((a.get l).own? name).isSome ↔ name ∈ names
    rw [h.kind_eq hr] at hl
    by_cases hlk : l = k
    · subst hlk
      rw [hr.here]
      exact h.counted hl
    · rw [hr.other l hlk]
      exact c.arenaOk.counted l hl

theorem Rescoped.exists_config :
    ∃ d : Config strict, d.toLayout = c.withScopes a ∧ d.tokens = U ∧ c.Still d := by
  have hscope : ∀ l, (∃ phase, .scope l phase ∈ U) ↔ ∃ phase, .scope l phase ∈ c.tokens := by
    intro l
    by_cases hlk : l = k
    · subst hlk; exact h.here
    · exact exists_congr fun phase => h.others l phase hlk
  refine ⟨⟨c.withScopes a, U, h.tokensOk hr, ?_, h.arenaOk hr, fun hs => ?_⟩, rfl, rfl,
    h.extends hr, rfl, hr.size⟩
  · exact codeOk_withScopes c.codeOk (h.extends hr) fun f b l hl => (h.block f b l).mpr hl
  · refine c.lexical_withScopes hs (h.extends hr) ?_ ?_ ?_
    · intro l hl hno
      refine ⟨Nat.lt_of_lt_of_eq hl hr.size, fun phase hp => ?_, h.captures_eq hr l⟩
      obtain ⟨phase', hp'⟩ := (hscope l).mpr ⟨phase, hp⟩
      exact hno phase' hp'
    · intro l phase hl hkind
      obtain ⟨phase', hp'⟩ := (hscope l).mp ⟨phase, hl⟩
      exact (c.lexicalOk hs).unmade l phase' hp' ((congrFun (h.kind_eq hr) l).symm.trans hkind)
    · intro f v l ht
      refine (h.filled f v l ht).imp_right ?_
      rintro ⟨rfl, ho⟩
      rw [hr.here]
      exact ho

end Rescoped

end Config

end ScriptIr.Lower
