import ScriptIr.Proofs.Lower.Names

/-!
# New functions and scopes

A function starts without blocks, and a scope without names. When a scope has taken its names, what
names mean in it is settled; from then on code can be lowered in it.

* `newFunction_sat`: a function that no scope belongs to.
-/
namespace ScriptIr.Lower

open Scope Layout ScriptIr.Tree State Arena

variable {M : Mode} {strict : Prop} {c : Config M.strict} {k : ScopeId}

/-! ## Functions -/

variable (p : Layout)

namespace Layout

variable {p : Layout}

def withFunction (name : String) (paramCount : UInt32) : Layout :=
  { p with toState := p.toState.addFunction name paramCount }

theorem withFunction_extends (strict : Prop) (p : Layout) (name : String) (paramCount : UInt32) :
    p.Extends strict (p.withFunction name paramCount) where
  __ := @Extends.refl strict p
  fn g F hF := by
    have hg : (p.withFunction name paramCount).fn? g = _ :=
      fn?_addFunction p.toState name paramCount g
    rw [hg, if_neg (lt_fnCount hF).ne]
    exact ⟨F, hF, rfl⟩
  inst f v i hi := ⟨i, (inst?_addFunction _ _ _ f v).trans hi, .same i⟩
  block f b ids hids :=
    ⟨[], by rw [List.append_nil]; exact (block?_addFunction _ _ _ f b).trans hids⟩

end Layout

/-- A function that has no scope and no closure yet. -/
structure Config.Unclaimed (c : Config strict) (g : Nat) : Prop where
  lt : g < c.fnCount
  home : ∀ k, k < c.scopeCount → c.home k ≠ g
  maker : strict → c.maker g = none

theorem newFunction_sat (name : String) (paramCount : Nat) :
    Sat M (newFunction name paramCount) c fun g d =>
      c.Quiet d ∧ d.tokens = c.tokens ∧ d.Unclaimed g ∧
        ∃ F, d.fn? g = some F ∧ F.id = c.module.nextId := by
  have hext := withFunction_extends M.strict c.toLayout name paramCount.toUInt32
  have hfn : ∀ g, (c.withFunction name paramCount.toUInt32).fn? g = _ :=
    fn?_addFunction c.toState name paramCount.toUInt32
  have hinst : ∀ f v, (c.withFunction name paramCount.toUInt32).inst? f v = c.inst? f v :=
    inst?_addFunction c.toState name paramCount.toUInt32
  have hblock : ∀ f b, (c.withFunction name paramCount.toUInt32).block? f b = c.block? f b :=
    block?_addFunction c.toState name paramCount.toUInt32
  have hblocks : ∀ f, (c.withFunction name paramCount.toUInt32).blockCount f = c.blockCount f :=
    blockCount_addFunction c.toState name paramCount.toUInt32
  have hcount : (c.withFunction name paramCount.toUInt32).fnCount = c.fnCount + 1 :=
    Array.size_push _
  refine ⟨⟨c.withFunction name paramCount.toUInt32, c.tokens, ?_, ?_, ?_, ?_⟩, rfl,
    ⟨hext, rfl, rfl, rfl⟩, rfl, ⟨?_, ?_, ?_⟩, ?_⟩
  · refine c.tokensOk.grow hext rfl rfl rfl c.tokensOk.distinct ?_ (fun _ _ => Iff.rfl)
      fun _ _ _ hv => .inl hv
    intro f b k hb
    obtain ⟨ids, hids, hpath⟩ := c.tokensOk.block f b k hb
    exact ⟨ids, (hblock f b).trans hids, hpath.mono hext⟩
  · refine ⟨?_, ?_, ?_, ?_, ?_⟩
    · intro g F hF
      rw [hfn] at hF
      split at hF
      · cases hF
        exact List.Perm.refl []
      · exact c.codeOk.placed g F hF
    · intro f v i hi
      exact (c.codeOk.refers f v i ((hinst f v).symm.trans hi)).mono hext
    · intro f b ids hids hno
      exact (c.codeOk.finished f b ids ((hblock f b).symm.trans hids) hno).mono hext
    · intro f hf
      rw [hblocks] at hf
      exact c.codeOk.first f hf
    · intro g F hF
      rw [hcount]
      show F.id + _ = c.module.nextId + 1
      rw [hfn] at hF
      split at hF
      · next hg =>
        cases hF
        rw [hg, Nat.add_sub_cancel_left]
        rfl
      · have hlt := lt_fnCount hF
        rw [← c.codeOk.ids g F hF, Nat.succ_sub hlt.le, UInt32.add_assoc]
        simp
  · exact c.arenaOk.grow hext rfl rfl rfl (fun _ _ => .inl) c.arenaOk.frames
  · refine fun hs => c.lexical_grow hs hext rfl rfl rfl rfl (fun _ _ => Iff.rfl) ?_ (fun _ _ _ hv => hv) ?_
    · exact fun k f v captured hk _ ho => ho.mono hext hk rfl fun i hi => (hinst f v).trans hi
    · exact fun f v i hi => .inl ((hinst f v).symm.trans hi)
  · rw [hcount]
    exact Nat.lt_succ_self _
  · exact fun k hk => (c.arenaOk.home k hk).ne
  · intro hs
    by_contra hne
    obtain ⟨site, hsite⟩ := Option.ne_none_iff_exists'.mp hne
    exact ((c.lexicalOk hs).made _ site hsite).false
  · exact ⟨_, (hfn _).trans (if_pos rfl), rfl⟩

/-! ## Scopes -/

namespace Layout

variable {p : Layout}

/-- The layout with a scope more, which belongs to function `g` and takes the parameters of `ps`. -/
def withScope (parent : Option ScopeId) (kind : Kind) (g : Nat) (ps : Positions) : Layout :=
  { p with
    toState := { p.toState with scopes := (p.scopes.push parent kind).2 }
    home := fun k => if k = p.scopeCount then g else p.home k
    positions := fun k => if k = p.scopeCount then ps else p.positions k }

theorem get_scopeCount : p.scopes.get p.scopeCount = {} :=
  get_of_size_le le_rfl

variable (parent : Option ScopeId) (kind : Kind) (g : Nat) (ps : Positions)

theorem get_withScope_old (hk : k ≠ p.scopeCount) :
    (p.withScope parent kind g ps).scopes.get k = p.scopes.get k :=
  (get_push p.scopes parent kind k).trans (if_neg hk)

theorem get_withScope_new : (p.withScope parent kind g ps).scopes.get p.scopeCount = { parent, kind } :=
  (get_push p.scopes parent kind p.scopeCount).trans (if_pos rfl)

theorem scopeCount_withScope : (p.withScope parent kind g ps).scopeCount = p.scopeCount + 1 :=
  size_push _ _ _

theorem own?_withScope : (p.withScope parent kind g ps).own? = p.own? := by
  funext k name
  by_cases hk : k = p.scopeCount
  · subst hk
    unfold own?
    rw [get_withScope_new, get_scopeCount]
    rfl
  · unfold own?
    rw [get_withScope_old parent kind g ps hk]

theorem home_withScope_old (hk : k < p.scopeCount) :
    (p.withScope parent kind g ps).home k = p.home k := if_neg hk.ne

theorem home_withScope_new : (p.withScope parent kind g ps).home p.scopeCount = g := if_pos rfl

theorem withScope_extends (strict : Prop) : p.Extends strict (p.withScope parent kind g ps) where
  __ := @Extends.refl strict p
  size := by rw [scopeCount_withScope]; exact Nat.le_succ _
  parent k hk := by unfold parent?; rw [get_withScope_old parent kind g ps hk.ne]
  kind k hk := by unfold Layout.kind; rw [get_withScope_old parent kind g ps hk.ne]
  home k hk := home_withScope_old parent kind g ps hk
  positions k hk := if_neg hk.ne
  own k name slot ho := by rw [own?_withScope]; exact ho
  hasLocal k name hl := by
    unfold HasLocal at hl ⊢
    by_cases hk : k = p.scopeCount
    · rw [hk, get_scopeCount] at hl
      cases hl
    · rw [get_withScope_old parent kind g ps hk]
      exact hl
  captures k := by
    unfold Arena.captures
    by_cases hk : k = p.scopeCount
    · rw [hk, get_scopeCount]
      exact List.nil_prefix
    · simp only [get_withScope_old parent kind g ps hk, List.prefix_rfl]
  frozen _ k name _ := by rw [own?_withScope]

end Layout

namespace Config

variable {c : Config strict} (parent : Option ScopeId) (kind : Kind) (g : Nat)
  (ps : Positions)

theorem env_scopeCount (c : Config strict) : c.env c.scopeCount = none := by
  by_contra hne
  obtain ⟨env, he⟩ := Option.ne_none_iff_exists'.mp hne
  exact (c.arenaOk.named _ env he).false

theorem frame_scopeCount (c : Config strict) : c.frame c.scopeCount = none := by
  by_contra hne
  obtain ⟨v, hv⟩ := Option.ne_none_iff_exists'.mp hne
  exact (c.arenaOk.framed _ v hv).1.false

theorem own?_scopeCount (c : Config strict) (name : String) : c.own? c.scopeCount name = none := by
  unfold Layout.own?
  rw [Layout.get_scopeCount]
  rfl

theorem lt_or_eq_of_withScope (hk : k < (c.withScope parent kind g ps).scopeCount) :
    k < c.scopeCount ∨ k = c.scopeCount := by
  rw [scopeCount_withScope] at hk
  exact Nat.lt_succ_iff_lt_or_eq.mp hk

theorem tokensOk_withScope :
    TokensOk (c.withScope parent kind g ps) ({.scope c.scopeCount (.naming [])} + c.tokens) := by
  have hext := withScope_extends parent kind g ps strict (p := c.toLayout)
  refine ⟨?_, ?_, ?_, ?_, ?_, ?_⟩
  · refine distinct_add c.tokensOk.distinct fun u hu hkey => ?_
    cases u with
    | block f b l => cases hkey
    | slot f v l => cases hkey
    | scope l phase =>
      cases hkey
      exact (c.tokensOk.scope _ phase hu).false
  · intro f b k hb
    obtain ⟨ids, hids, hpath⟩ := c.tokensOk.block f b k (by simpa using hb)
    exact ⟨ids, hids, hpath.mono hext⟩
  · intro k phase hk
    rw [scopeCount_withScope]
    rcases mem_add_singleton.mp hk with heq | hk
    · cases heq
      exact Nat.lt_succ_self _
    · exact Nat.lt_succ_of_lt (c.tokensOk.scope k phase hk)
  · intro k names hk
    rw [own?_withScope]
    rcases mem_add_singleton.mp hk with heq | hk
    · cases heq
      exact ⟨c.env_scopeCount, List.nodup_nil, fun name => by rw [c.own?_scopeCount]; simp⟩
    · exact c.tokensOk.naming k names hk
  · intro k hk hno
    rcases lt_or_eq_of_withScope parent kind g ps hk with hlt | rfl
    · exact c.tokensOk.settled k hlt fun names hn => hno names (mem_add_singleton.mpr (.inr hn))
    · exact absurd (mem_add_singleton.mpr (.inl rfl)) (hno [])
  · intro f v l hv
    obtain ⟨hinst, hunused⟩ := c.tokensOk.slot f v l (by simpa using hv)
    refine ⟨hinst, fun k name hk ho => ?_⟩
    rw [own?_withScope] at ho
    rw [home_withScope_old parent kind g ps (lt_of_own? ho)] at hk
    exact hunused k name hk ho

variable {parent kind g ps} (hg : g < c.fnCount)
  (hparent : ∀ outer, parent = some outer → outer < c.scopeCount)
  (hblock : kind = .block → ∃ outer, parent = some outer ∧ c.home outer = g)
  (hfunction : kind = .function → c.Unclaimed g)
include hg hparent hblock hfunction

theorem arenaOk_withScope : ArenaOk (c.withScope parent kind g ps) := by
  have hown := Layout.own?_withScope parent kind g ps (p := c.toLayout)
  have hold : ∀ k, k < c.scopeCount →
      (c.withScope parent kind g ps).scopes.get k = c.scopes.get k := fun k hk =>
    Layout.get_withScope_old parent kind g ps hk.ne
  have hnew := Layout.get_withScope_new parent kind g ps (p := c.toLayout)
  have hhome : ∀ k, k < c.scopeCount → (c.withScope parent kind g ps).home k = c.home k := fun k hk =>
    Layout.home_withScope_old parent kind g ps hk
  have hhomeNew := Layout.home_withScope_new parent kind g ps (p := c.toLayout)
  refine ⟨sound_push c.arenaOk.sound kind hparent, ?_, ?_, ?_, ?_, ?_, ?_, ?_, ?_, ?_, ?_, ?_⟩
  · intro k hk
    unfold Layout.parent?
    rcases lt_or_eq_of_withScope parent kind g ps (Layout.lt_scopeCount hk) with hlt | rfl
    · unfold Layout.kind at hk
      rw [hold k hlt] at hk ⊢
      obtain ⟨outer, hp, hsame⟩ := c.arenaOk.inner k hk
      have houter : outer < c.scopeCount := (c.arenaOk.sound.parent_lt k outer hp).trans hlt
      exact ⟨outer, hp, by rw [hhome k hlt, hhome outer houter, hsame]⟩
    · unfold Layout.kind at hk
      rw [hnew] at hk ⊢
      obtain ⟨outer, rfl, hsame⟩ := hblock hk
      exact ⟨outer, rfl, by rw [hhomeNew, hhome outer (hparent outer rfl), hsame]⟩
  · intro k hk
    rcases lt_or_eq_of_withScope parent kind g ps hk with hlt | rfl
    · rw [hhome k hlt]
      exact c.arenaOk.home k hlt
    · rw [hhomeNew]
      exact hg
  · intro k name v ho
    rw [hown] at ho
    rw [hhome k (Layout.lt_of_own? ho)]
    exact c.arenaOk.cell k name v ho
  · intro k name i ho
    rw [hown] at ho
    have hlt := Layout.lt_of_own? ho
    unfold Layout.kind
    rw [hold k hlt, (Layout.withScope_extends parent kind g ps strict).positions k hlt]
    exact c.arenaOk.params k name i ho
  · intro k l name other slot h1 h2 h3
    rw [hown] at h1 h2
    rw [hhome k (Layout.lt_of_own? h1), hhome l (Layout.lt_of_own? h2)] at h3
    exact c.arenaOk.slots k l name other slot h1 h2 h3
  · intro k l hk hl hkf hlf hsame
    unfold Layout.kind at hkf hlf
    rcases lt_or_eq_of_withScope parent kind g ps hk with hk | rfl
    · rcases lt_or_eq_of_withScope parent kind g ps hl with hl | rfl
      · rw [hold k hk] at hkf
        rw [hold l hl] at hlf
        rw [hhome k hk, hhome l hl] at hsame
        exact c.arenaOk.bodies k l hk hl hkf hlf hsame
      · rw [hnew] at hlf
        rw [hhome k hk, hhomeNew] at hsame
        exact absurd hsame ((hfunction hlf).home k hk)
    · rcases lt_or_eq_of_withScope parent kind g ps hl with hl | rfl
      · rw [hnew] at hkf
        rw [hhome l hl, hhomeNew] at hsame
        exact absurd hsame.symm ((hfunction hkf).home l hl)
      · rfl
  · intro k t ht
    by_cases hk : k = c.scopeCount
    · subst hk
      rw [hnew] at ht
      rcases ht with ht | ht <;> cases ht
    · rw [Layout.get_withScope_old parent kind g ps hk] at ht
      rw [show (c.withScope parent kind g ps).home k = c.home k from if_neg hk]
      exact c.arenaOk.target k t ht
  · intro k env he
    rw [Layout.scopeCount_withScope]
    exact Nat.lt_succ_of_lt (c.arenaOk.named k env he)
  · exact fun k v hv => (c.arenaOk.framed k v hv).mono (Layout.withScope_extends parent kind g ps strict)
  · intro k l v hk hl hsame
    rw [hhome k (c.arenaOk.framed k v hk).1, hhome l (c.arenaOk.framed l v hl).1] at hsame
    exact c.arenaOk.frames k l v hk hl hsame
  · intro k hk
    unfold Layout.Counts variableCount
    rw [hown]
    rcases lt_or_eq_of_withScope parent kind g ps (Layout.lt_scopeCount hk) with hlt | rfl
    · unfold Layout.kind at hk
      rw [hold k hlt] at hk ⊢
      exact c.arenaOk.counted k hk
    · rw [hnew]
      exact ⟨[], List.nodup_nil, rfl, fun name => by rw [c.own?_scopeCount]; simp⟩

omit hg hparent hblock in
theorem lexicalOk_withScope (hs : strict) :
    LexicalOk (c.withScope parent kind g ps) ({.scope c.scopeCount (.naming [])} + c.tokens) := by
  have hext := Layout.withScope_extends parent kind g ps strict (p := c.toLayout)
  have hown := Layout.own?_withScope parent kind g ps (p := c.toLayout)
  have hlex := c.lexicalOk hs
  refine ⟨?_, ?_, ?_, ?_, hlex.makers, hlex.made, ?_, ?_⟩
  · rw [hown]
    exact hlex.own
  · intro k env name he hp
    rw [hown]
    rw [hext.parent k (c.arenaOk.named k env he)] at hp
    exact hlex.root k env name he hp
  · intro k env outer he hp
    rw [hown]
    rw [hext.parent k (c.arenaOk.named k env he)] at hp
    exact hlex.outer k env outer he hp
  · intro k outer hk hno hp
    have hT : ∀ phase, .scope k phase ∉ c.tokens := fun phase ht =>
      hno phase (mem_add_singleton.mpr (.inr ht))
    rcases lt_or_eq_of_withScope parent kind g ps hk with hlt | rfl
    · rw [hext.parent k hlt] at hp
      refine c.closed_grow hs hext hlt hT hp ?_ fun f v captured ho =>
        ho.mono hext hlt (congrFun hown k) fun i hi => hi
      unfold Arena.captures
      rw [Layout.get_withScope_old parent kind g ps hlt.ne]
    · exact absurd (mem_add_singleton.mpr (.inl rfl)) (hno (.naming []))
  · intro k phase hk hkind
    unfold Layout.kind at hkind
    rcases mem_add_singleton.mp hk with heq | hk
    · cases heq
      rw [Layout.get_withScope_new] at hkind
      rw [Layout.home_withScope_new]
      exact (hfunction hkind).maker hs
    · have hlt := c.tokensOk.scope k phase hk
      rw [Layout.get_withScope_old parent kind g ps hlt.ne] at hkind
      rw [Layout.home_withScope_old parent kind g ps hlt]
      exact hlex.unmade k phase hk hkind
  · intro f v hv
    obtain ⟨k, hk, hkept⟩ := hlex.slots f v hv
    rw [hown]
    exact ⟨k, hk.mono hext, hkept.imp_left fun ht => by simp [ht]⟩

end Config

/-- A new scope is empty and takes names. -/
structure Config.Opened (c : Config strict) (parent : Option ScopeId) (kind : Kind) (g : Nat)
    (k : ScopeId) (d : Config strict) (ps : Positions := fun _ => none) : Prop where
  le : c ≤ d
  scope : k = c.scopeCount
  uses : d.uses = c.uses
  count : d.scopeCount = c.scopeCount + 1
  tokens : d.tokens = {.scope k (.naming [])} + c.tokens
  get : d.scopes.get k = { parent, kind }
  home : d.home k = g
  positions : d.positions k = ps
  frame : d.frame k = none

/-- A new scope takes names. A block scope belongs to the function around it, a function body to a
function of its own. -/
theorem newScope_sat {parent : Option ScopeId} {kind : Kind} {g : Nat}
    (hg : g < c.fnCount) (hparent : ∀ outer, parent = some outer → outer < c.scopeCount)
    (hblock : kind = .block → ∃ outer, parent = some outer ∧ c.home outer = g)
    (hfunction : kind = .function → c.Unclaimed g) (ps : Positions := fun _ => none) :
    Sat M (newScope parent kind) c fun k d => c.Opened parent kind g k d ps := by
  have hext := withScope_extends parent kind g ps M.strict (p := c.toLayout)
  refine ⟨⟨c.withScope parent kind g ps, _, Config.tokensOk_withScope parent kind g ps, ?_,
    Config.arenaOk_withScope hg hparent hblock hfunction, Config.lexicalOk_withScope hfunction⟩, rfl,
    hext, rfl, rfl, scopeCount_withScope parent kind g ps, rfl,
    get_withScope_new parent kind g ps, home_withScope_new parent kind g ps,
    if_pos rfl, c.frame_scopeCount⟩
  refine c.codeOk.grow hext rfl rfl c.codeOk.placed (fun _ _ _ hi => .inl hi)
    (fun f b _ hb hno => .inl ⟨hb, fun k hk => hno k ?_⟩) fun _ hf => .inl hf
  exact mem_add_singleton.mpr (.inr hk)

/-! ## Settled scopes -/

def Layout.settled (k : ScopeId) (env : Env) : Layout :=
  { p with env := fun l => if l = k then some env else p.env l }

theorem Layout.settled_extends (strict : Prop) {p : Layout} (env : Env)
    (h : p.env k = none) : p.Extends strict (p.settled k env) :=
  { (Extends.refl p : p.Extends strict p) with
    env := fun l env' he => by
      show (if l = k then some env else p.env l) = some env'
      rw [if_neg, he]
      rintro rfl
      rw [h] at he
      cases he
    frozen := fun _ _ _ _ => rfl }

theorem Layout.env_settled_same (k : ScopeId) (env : Env) :
    (p.settled k env).env k = some env := if_pos rfl

theorem Layout.env_settled_other {l : ScopeId} (env : Env) (hl : l ≠ k) :
    (p.settled k env).env l = p.env l := if_neg hl

namespace Config

variable {c : Config strict} {ctx : Ctx} {env : Env} {ns : List String} {R S : Multiset Token}
  {ps : Positions}

theorem tokensOk_settled (h : c.tokens = {.scope ctx.scope (.naming ns)} + S) (env' : Env) :
    TokensOk (c.settled ctx.scope env') ({.scope ctx.scope .running} + S) := by
  have hdist := c.tokensOk.distinct
  rw [h] at hdist
  obtain ⟨henv, _, _⟩ := c.tokensOk.naming ctx.scope ns (by simp [h])
  have hext := settled_extends strict env' henv
  have hother : ∀ l phase, Token.scope l phase ∈ S → l ≠ ctx.scope := fun l phase hl heq =>
    key_ne_of_distinct hdist hl (by rw [heq]; rfl)
  refine ⟨distinct_exchange hdist rfl, ?_, ?_, ?_, ?_, ?_⟩
  · intro f b k hb
    obtain ⟨ids, hids, hpath⟩ := c.tokensOk.block f b k (by simpa [h] using hb)
    exact ⟨ids, hids, hpath.mono hext⟩
  · intro k phase hk
    rcases mem_add_singleton.mp hk with heq | hk
    · cases heq
      exact c.tokensOk.scope ctx.scope (.naming ns) (by simp [h])
    · exact c.tokensOk.scope k phase (by simp [h, hk])
  · intro k names hk
    have hk' : .scope k (.naming names) ∈ S := by simpa using hk
    rw [env_settled_other _ _ (hother k _ hk')]
    exact c.tokensOk.naming k names (by simp [h, hk'])
  · intro k hk hno
    by_cases hkc : k = ctx.scope
    · rw [hkc, env_settled_same]
      exact Option.some_ne_none _
    · rw [env_settled_other _ _ hkc]
      refine c.tokensOk.settled k hk fun names hn => ?_
      exact hno names (by simpa [h, hkc] using hn)
  · intro f v k hv
    exact c.tokensOk.slot f v k (by simpa [h] using hv)

theorem Fresh.position?_eq (hfresh : c.Fresh ctx b env R ps) {name : String} {slot : Slot}
    (h : c.own? ctx.scope name = some slot) : slot.position? = ps name := by
  cases slot with
  | parameter i =>
    rw [← hfresh.positions, (c.arenaOk.params _ _ _ h).2]
    rfl
  | cell v =>
    cases hi : ps name with
    | none => rfl
    | some i =>
      rw [hfresh.params name i hi] at h
      cases h

theorem lexicalOk_settled (hs : strict) (h : c.tokens = {.scope ctx.scope (.naming ns)} + S)
    (hfresh : c.Fresh ctx b env R ps) :
    LexicalOk (c.settled ctx.scope (env.declare ns ctx.scope ps)) ({.scope ctx.scope .running} + S) := by
  obtain ⟨henv, _, hnames⟩ := c.tokensOk.naming ctx.scope ns (by simp [h])
  have hext := settled_extends strict (env.declare ns ctx.scope ps) henv
  have hlex := c.lexicalOk hs
  have hscope : ∀ k, (∀ phase, .scope k phase ∉ ({.scope ctx.scope .running} + S : Multiset Token)) →
      ∀ phase, .scope k phase ∉ c.tokens := by
    intro k hno phase hp
    rw [h, mem_add_singleton] at hp
    rcases hp with heq | hp
    · cases heq
      exact hno .running (by simp)
    · exact hno phase (by simp [hp])
  have hdeclared : ∀ name, c.own? ctx.scope name = none → name ∉ ns := fun name ho hn => by
    have := (hnames name).mpr hn
    rw [ho] at this
    cases this
  refine ⟨?_, ?_, ?_, ?_, hlex.makers, hlex.made, ?_, ?_⟩
  · intro k env' name slot he ho
    by_cases hk : k = ctx.scope
    · subst hk
      rw [env_settled_same] at he
      cases he
      have hin : name ∈ ns := (hnames name).mp (Option.isSome_of_mem ho)
      rw [hfresh.position?_eq ho]
      exact if_pos hin
    · rw [env_settled_other _ _ hk] at he
      exact hlex.own k env' name slot he ho
  · intro k env' name he hp ho
    by_cases hk : k = ctx.scope
    · subst hk
      rw [env_settled_same] at he
      cases he
      rcases hfresh.outer with ⟨_, rfl⟩ | ⟨outer, hp', _⟩
      · exact if_neg (hdeclared name ho)
      · rw [show c.parent? ctx.scope = none from hp] at hp'
        cases hp'
    · rw [env_settled_other _ _ hk] at he
      exact hlex.root k env' name he hp ho
  · intro k env' outer he hp
    by_cases hk : k = ctx.scope
    · subst hk
      rw [env_settled_same] at he
      cases he
      rcases hfresh.outer with ⟨hroot, _⟩ | ⟨outer', hp', he', _⟩
      · rw [show c.parent? ctx.scope = some outer from hp] at hroot
        cases hroot
      · have heq : outer' = outer := Option.some.inj (hp'.symm.trans hp)
        subst heq
        exact ⟨env, hext.env _ _ he', fun name ho => if_neg (hdeclared name ho)⟩
    · rw [env_settled_other _ _ hk] at he
      obtain ⟨env'', he'', hall⟩ := hlex.outer k env' outer he hp
      exact ⟨env'', hext.env _ _ he'', hall⟩
  · intro k outer hk hno hp
    exact c.closed_grow hs hext hk (hscope k hno) hp rfl fun f v captured ho =>
      ho.mono hext hk rfl fun i hi => hi
  · intro k phase hk
    rcases mem_add_singleton.mp hk with heq | hk
    · cases heq
      exact hlex.unmade ctx.scope (.naming ns) (by simp [h])
    · exact hlex.unmade k phase (by simp [h, hk])
  · intro f v hv
    obtain ⟨k, hk, hkept⟩ := hlex.slots f v hv
    exact ⟨k, hk.mono hext, hkept.imp_left fun ht => by simpa [h] using ht⟩

theorem exists_settled (h : c.tokens = {.scope ctx.scope (.naming ns)} + S)
    (hfresh : c.Fresh ctx b env R ps) :
    ∃ d : Config strict, d.toState = c.toState ∧ c.Quiet d ∧ d.tokens = {.scope ctx.scope .running} + S ∧
      d.At ctx (env.declare ns ctx.scope ps) ({.scope ctx.scope .running} + R) := by
  obtain ⟨henv, _, _⟩ := c.tokensOk.naming ctx.scope ns (by simp [h])
  have hext := settled_extends strict (env.declare ns ctx.scope ps) henv
  refine ⟨⟨c.settled ctx.scope (env.declare ns ctx.scope ps), _, tokensOk_settled h _, ?_, ?_,
    fun hs => lexicalOk_settled hs h hfresh⟩, rfl, ⟨hext, rfl, rfl, rfl⟩, rfl, ?_⟩
  · refine c.codeOk.grow hext rfl rfl c.codeOk.placed (fun _ _ _ hi => .inl hi)
      (fun f b _ hb hno => .inl ⟨hb, fun k hk => hno k ?_⟩) fun _ hf => .inl hf
    simpa [h] using hk
  · refine { c.arenaOk with named := fun k env' he => ?_ }
    by_cases hk : k = ctx.scope
    · rw [hk]
      exact hfresh.scope
    · rw [env_settled_other _ _ hk] at he
      exact c.arenaOk.named k env' he
  · refine ⟨hfresh.scope, hfresh.home, ?_, env_settled_same _ _ _, hfresh.room⟩
    intro k hk
    rw [mem_add_singleton]
    rcases hfresh.outer with ⟨hroot, _⟩ | ⟨outer, hp, _, hall⟩
    · rw [show (c.settled ctx.scope _).scopes.chain ctx.scope = [ctx.scope] from
        chain_root hroot, List.mem_singleton] at hk
      exact .inl (by rw [hk])
    · rw [show (c.settled ctx.scope _).scopes.chain ctx.scope = _ from
        c.arenaOk.sound.chain_inner hp, List.mem_cons] at hk
      rcases hk with rfl | hk
      · exact .inl rfl
      · exact .inr (hall k hk)

end Config

/-! ## Uses -/

def Layout.withUse (use : Use) : Layout :=
  { p with toState := { p.toState with uses := p.uses.push use } }

theorem Layout.withUse_extends (strict : Prop) (p : Layout) (use : Use) :
    p.Extends strict (p.withUse use) :=
  { (Extends.refl p : p.Extends strict p) with frozen := fun _ _ _ _ => rfl }

theorem record_sat {use : Use} {env : Env}
    (h : M.strict → c.Resolves use ⟨use.name, env use.name⟩) :
    Sat M (record use) c fun _ d => c.Grows env (.use use.name) d ∧ d.tokens = c.tokens := by
  have hext := withUse_extends M.strict c.toLayout use
  refine ⟨⟨c.withUse use, c.tokens, ?_, ?_, ?_, ?_⟩, rfl, ⟨hext, fun hs => ?_⟩, rfl⟩
  · refine c.tokensOk.grow hext rfl rfl rfl c.tokensOk.distinct ?_ (fun _ _ => Iff.rfl)
      fun _ _ _ hv => .inl hv
    intro f b k hb
    obtain ⟨ids, hids, hpath⟩ := c.tokensOk.block f b k hb
    exact ⟨ids, hids, hpath.mono hext⟩
  · exact c.codeOk.grow hext rfl rfl c.codeOk.placed (fun _ _ _ hi => .inl hi)
      (fun f b _ hb hno => .inl ⟨hb, hno⟩) fun _ hf => .inl hf
  · exact c.arenaOk.grow hext rfl rfl rfl (fun _ _ => .inl) c.arenaOk.frames
  · exact fun hs => c.lexical_grow hs hext rfl rfl rfl rfl (fun _ _ => Iff.rfl)
      (fun k f v captured hk _ ho => ho.mono hext hk rfl fun i hi => hi) (fun _ _ _ hv => hv)
      fun _ _ _ hi => .inl hi
  · exact ⟨[use], Array.toList_push, rfl, .cons ((h hs).mono hext hs) .nil⟩

end ScriptIr.Lower
