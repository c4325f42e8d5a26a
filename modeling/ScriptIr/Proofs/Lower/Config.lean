import Mathlib.Algebra.Order.Group.Multiset
import ScriptIr.Proofs.Lower.Layout

/-!
# Valid code under construction

Three kinds of work can be left at a moment of lowering: a block that still needs its end, a scope that
still takes names or captures, and a slot that no name has yet. A token stands for one piece of work,
and nobody but its holder does it. A configuration is a layout in which all other work is done.
-/
namespace ScriptIr.Lower

open Code Multiset Scope

/-- What a scope still takes: names, of which it has some, or captures only. -/
inductive Phase where
  | naming (names : List String)
  | running

/-- A piece of work that is left. -/
inductive Token where
  /-- A block in which control has reached its end in a scope. -/
  | block (func : Nat) (block : BlockId) (scope : ScopeId)
  /-- A scope that is not closed. -/
  | scope (scope : ScopeId) (phase : Phase)
  /-- A slot that is to hold a name of a scope. -/
  | slot (func : Nat) (inst : InstId) (scope : ScopeId)

def Token.key : Token → Nat × Nat × Nat
  | .block f b _ => (0, f, b)
  | .scope k _ => (1, k, 0)
  | .slot f v _ => (2, f, v)

/-- A block that needs its end, where code is added. -/
abbrev Ctx.here (ctx : Ctx) (b : BlockId) : Token := .block ctx.func b ctx.scope

/-- The tokens are about different things, and each says the truth about its thing. -/
structure TokensOk (p : Layout) (T : Multiset Token) : Prop where
  distinct : (T.map Token.key).Nodup
  block : ∀ f b k, .block f b k ∈ T → ∃ ids, p.block? f b = some ids ∧ p.Path f (p.entry f b) ids k
  scope : ∀ k phase, .scope k phase ∈ T → k < p.scopeCount
  naming : ∀ k names, .scope k (.naming names) ∈ T →
    p.env k = none ∧ names.Nodup ∧ ∀ name, (p.own? k name).isSome ↔ name ∈ names
  settled : ∀ k, k < p.scopeCount → (∀ names, .scope k (.naming names) ∉ T) → p.env k ≠ none
  slot : ∀ f v k, .slot f v k ∈ T →
    p.inst? f v = some .alloca ∧ ∀ k name, p.home k = f → p.own? k name ≠ some (.cell v)

/-- Every instruction stands in one place and refers to what is there, every block without a token is
finished, a function starts in its body, and functions are numbered in turn. -/
structure CodeOk (p : Layout) (T : Multiset Token) : Prop where
  placed : ∀ g F, p.fn? g = some F → F.Placed
  refers : ∀ f v i, p.inst? f v = some i → p.Refers f i
  finished : ∀ f b ids, p.block? f b = some ids → (∀ k, .block f b k ∉ T) → p.Sealed f (p.entry f b) ids
  first : ∀ f, 0 < p.blockCount f → p.entry f 0 < p.scopeCount ∧ p.kind (p.entry f 0) = .function
  ids : ∀ g F, p.fn? g = some F → F.id + (p.fnCount - g).toUInt32 = p.module.nextId

/-- Scopes lie inside one another in their functions, each declared name has a slot of its own, the names
of a block scope are its variables, and jumps go to blocks that are entered in the scope they end in. -/
structure ArenaOk (p : Layout) : Prop where
  sound : p.scopes.Sound
  inner : ∀ k, p.kind k = .block → ∃ outer, p.parent? k = some outer ∧ p.home outer = p.home k
  home : ∀ k, k < p.scopeCount → p.home k < p.fnCount
  cell : ∀ k name v, p.own? k name = some (.cell v) → p.inst? (p.home k) v = some .alloca
  params : ∀ k name i, p.own? k name = some (.parameter i) →
    p.kind k = .function ∧ p.positions k name = some i
  slots : ∀ k l name other slot, p.own? k name = some slot → p.own? l other = some slot →
    p.home k = p.home l → k = l ∧ name = other
  bodies : ∀ k l, k < p.scopeCount → l < p.scopeCount → p.kind k = .function →
    p.kind l = .function → p.home k = p.home l → k = l
  target : ∀ k t, (p.scopes.get k).breakTarget = some t ∨ (p.scopes.get k).continueTarget = some t →
    p.HasBlock (p.home k) t k
  named : ∀ k env, p.env k = some env → k < p.scopeCount
  framed : ∀ k v, p.frame k = some v → p.Opens k v
  frames : ∀ k l v, p.frame k = some v → p.frame l = some v → p.home k = p.home l → k = l
  counted : ∀ k, p.kind k = .block → p.Counts k (p.scopes.variableCount k)

/-- Every scope with all its names knows what names mean in it, every closed scope has the slots of the
names it captures, every closure is made by one instruction, and every slot stands where its scope is
entered. -/
structure LexicalOk (p : Layout) (T : Multiset Token) : Prop where
  own : ∀ k env name slot, p.env k = some env → p.own? k name = some slot →
    env name = some ⟨k, slot.position?⟩
  root : ∀ k env name, p.env k = some env → p.parent? k = none → p.own? k name = none → env name = none
  outer : ∀ k env outer, p.env k = some env → p.parent? k = some outer →
    ∃ env', p.env outer = some env' ∧ ∀ name, p.own? k name = none → env name = env' name
  closed : ∀ k outer, k < p.scopeCount → (∀ phase, .scope k phase ∉ T) →
    p.parent? k = some outer → p.Closed k outer
  makers : ∀ f v i id, p.inst? f v = some i → i.closure? = some id →
    ∃ g F, p.fn? g = some F ∧ F.id = id ∧ p.maker g = some (f, v)
  made : ∀ g site, p.maker g = some site → g < p.fnCount
  unmade : ∀ k phase, .scope k phase ∈ T → p.kind k = .function → p.maker (p.home k) = none
  slots : ∀ f v, p.inst? f v = some .alloca → ∃ k, p.Allots f v k ∧
    (.slot f v k ∈ T ∨ ∃ name, p.own? k name = some (.cell v))

/-- Code under construction that is valid but for the work its tokens stand for. If `strict` is set,
names enter a scope only before anything is lowered in it. -/
structure Config (strict : Prop) extends Layout where
  tokens : Multiset Token
  tokensOk : TokensOk toLayout tokens
  codeOk : CodeOk toLayout tokens
  arenaOk : ArenaOk toLayout
  lexicalOk : strict → LexicalOk toLayout tokens

/-! ## Distinct tokens -/

section Tokens

variable {t u : Token} {R : Multiset Token}

theorem key_ne_of_distinct (h : (({t} + R).map Token.key).Nodup) (hu : u ∈ R) : u.key ≠ t.key := by
  rw [map_add, map_singleton, singleton_add, nodup_cons] at h
  exact fun he => h.1 (mem_map.mpr ⟨u, hu, he⟩)

theorem distinct_rest (h : (({t} + R).map Token.key).Nodup) : (R.map Token.key).Nodup := by
  rw [map_add, map_singleton, singleton_add, nodup_cons] at h
  exact h.2

theorem distinct_add (h : (R.map Token.key).Nodup) (ht : ∀ u ∈ R, u.key ≠ t.key) :
    (({t} + R).map Token.key).Nodup := by
  rw [map_add, map_singleton, singleton_add, nodup_cons]
  refine ⟨fun hm => ?_, h⟩
  obtain ⟨u, hu, he⟩ := mem_map.mp hm
  exact ht u hu he

/-- A token can be exchanged for another one about the same thing. -/
theorem distinct_exchange (h : (({t} + R).map Token.key).Nodup) (hk : u.key = t.key) :
    (({u} + R).map Token.key).Nodup :=
  distinct_add (distinct_rest h) fun _ hw => hk ▸ key_ne_of_distinct h hw

theorem mem_add_singleton : u ∈ ({t} + R : Multiset Token) ↔ u = t ∨ u ∈ R := by
  rw [mem_add, mem_singleton]

end Tokens

/-! ## Growing code -/

section Growth

variable {strict : Prop} {p q : Layout} {T U : Multiset Token}

/-- The tokens stay valid while code is built. -/
theorem TokensOk.grow (h : TokensOk p T) (hpq : p.Extends strict q) (hscopes : q.scopes = p.scopes)
    (hhome : q.home = p.home) (henv : q.env = p.env) (distinct : (U.map Token.key).Nodup)
    (block : ∀ f b k, .block f b k ∈ U → ∃ ids, q.block? f b = some ids ∧ q.Path f (q.entry f b) ids k)
    (hscope : ∀ k phase, .scope k phase ∈ U ↔ .scope k phase ∈ T)
    (slot : ∀ f v k, .slot f v k ∈ U → .slot f v k ∈ T ∨
      (q.inst? f v = some .alloca ∧ ∀ k name, p.home k = f → p.own? k name ≠ some (.cell v))) :
    TokensOk q U := by
  have hown : q.own? = p.own? := by unfold Layout.own?; rw [hscopes]
  have hcount : q.scopeCount = p.scopeCount := by unfold Layout.scopeCount; rw [hscopes]
  refine ⟨distinct, block, ?_, ?_, ?_, ?_⟩
  · intro k phase ht
    rw [hcount]
    exact h.scope k phase ((hscope k phase).mp ht)
  · intro k names ht
    rw [henv, hown]
    exact h.naming k names ((hscope k _).mp ht)
  · intro k hk ht
    rw [henv]
    exact h.settled k (hcount ▸ hk) fun names hn => ht names ((hscope k _).mpr hn)
  · intro f v k ht
    rw [hhome, hown]
    rcases slot f v k ht with hold | hnew
    · exact ⟨hpq.inst_eq (h.slot f v k hold).1 rfl, (h.slot f v k hold).2⟩
    · exact hnew

/-- Code stays valid if its new instructions refer to what is there and its newly finished blocks are
sealed. -/
theorem CodeOk.grow (h : CodeOk p T) (hpq : p.Extends strict q) (hcount : q.fnCount = p.fnCount)
    (hnext : q.module.nextId = p.module.nextId) (placed : ∀ g F, q.fn? g = some F → F.Placed)
    (refers : ∀ f v i, q.inst? f v = some i → p.inst? f v = some i ∨ q.Refers f i)
    (finished : ∀ f b ids, q.block? f b = some ids → (∀ k, .block f b k ∉ U) →
      (p.block? f b = some ids ∧ ∀ k, .block f b k ∉ T) ∨ q.Sealed f (q.entry f b) ids)
    (first : ∀ f, 0 < q.blockCount f → 0 < p.blockCount f ∨
      (q.entry f 0 < q.scopeCount ∧ q.kind (q.entry f 0) = .function)) : CodeOk q U where
  placed := placed
  refers f v i hi := by
    rcases refers f v i hi with hold | hnew
    · exact (h.refers f v i hold).mono hpq
    · exact hnew
  finished f b ids hb hU := by
    rcases finished f b ids hb hU with ⟨hold, hT⟩ | hnew
    · rw [hpq.entry f b (State.lt_blockCount hold)]
      exact (h.finished f b ids hold hT).mono hpq
    · exact hnew
  first f hf := by
    rcases first f hf with hold | hnew
    · obtain ⟨hlt, hkind⟩ := h.first f hold
      rw [hpq.entry f 0 hold]
      exact ⟨hlt.trans_le hpq.size, (hpq.kind _ hlt).trans hkind⟩
    · exact hnew
  ids g G hG := by
    obtain ⟨F, hF⟩ := State.fn?_isSome (hcount ▸ State.lt_fnCount hG)
    obtain ⟨G', hG', hid⟩ := hpq.fn g F hF
    rw [show G = G' from Option.some.inj (hG.symm.trans hG'), hid, hcount, hnext]
    exact h.ids g F hF

/-- The scopes stay valid while code is built. -/
theorem ArenaOk.grow (h : ArenaOk p) (hpq : p.Extends strict q) (hscopes : q.scopes = p.scopes)
    (hhome : q.home = p.home) (henv : q.env = p.env)
    (framed : ∀ k v, q.frame k = some v → p.frame k = some v ∨ q.Opens k v)
    (frames : ∀ k l v, q.frame k = some v → q.frame l = some v → q.home k = q.home l → k = l) :
    ArenaOk q := by
  have hown : q.own? = p.own? := by unfold Layout.own?; rw [hscopes]
  have hkind : q.kind = p.kind := by unfold Layout.kind; rw [hscopes]
  have hparent : q.parent? = p.parent? := by unfold Layout.parent?; rw [hscopes]
  have hcount : q.scopeCount = p.scopeCount := by unfold Layout.scopeCount; rw [hscopes]
  constructor
  · rw [hscopes]; exact h.sound
  · rw [hkind, hparent, hhome]; exact h.inner
  · intro k hk
    rw [hhome]
    exact hpq.fnCount (h.home k (hcount ▸ hk))
  · intro k name v ho
    rw [hown] at ho
    rw [hhome]
    exact hpq.inst_eq (h.cell k name v ho) rfl
  · intro k name i ho
    rw [hown] at ho
    rw [hkind, hpq.positions k (Layout.lt_of_own? ho)]
    exact h.params k name i ho
  · rw [hown, hhome]; exact h.slots
  · rw [hcount, hkind, hhome]; exact h.bodies
  · intro k t ht
    rw [hscopes] at ht
    rw [hhome]
    exact (h.target k t ht).mono hpq
  · rw [henv, hcount]; exact h.named
  · intro k v hv
    rcases framed k v hv with hold | hnew
    · exact (h.framed k v hold).mono hpq
    · exact hnew
  · exact frames
  · unfold Layout.Counts
    rw [hkind, hown, hscopes]
    exact h.counted

variable {c : Config strict} {k outer : ScopeId}

/-- A scope stays closed if it captures nothing more and its opener is kept. -/
theorem Config.closed_grow (hs : strict) (hq : c.toLayout.Extends strict q) (hk : k < c.scopeCount)
    (hT : ∀ phase, .scope k phase ∉ c.tokens) (hp : c.parent? k = some outer)
    (hcaptures : q.scopes.captures k = c.scopes.captures k)
    (hopen : ∀ f v captured, c.Opener k f v captured → q.Opener k f v captured) :
    q.Closed k outer := by
  obtain ⟨env, he⟩ := Option.ne_none_iff_exists'.mp (c.tokensOk.settled k hk fun names => hT _)
  obtain ⟨env', he', _⟩ := (c.lexicalOk hs).outer k env outer he hp
  exact ((c.lexicalOk hs).closed k outer hk hT hp).mono hq hs (c.arenaOk.named outer env' he')
    (by rw [he']; exact Option.some_ne_none env') hcaptures hopen

/-- What names mean stays valid while code is built, if the openers of closed scopes are kept. -/
theorem Config.lexical_grow (hs : strict) (hq : c.toLayout.Extends strict q)
    (hscopes : q.scopes = c.scopes) (hhome : q.home = c.home) (henv : q.env = c.env)
    (hmaker : q.maker = c.maker)
    (htokens : ∀ k phase, .scope k phase ∈ U ↔ .scope k phase ∈ c.tokens)
    (hopen : ∀ k f v captured, k < c.scopeCount → (∀ phase, .scope k phase ∉ c.tokens) →
      c.Opener k f v captured → q.Opener k f v captured)
    (hslots : ∀ f v k, .slot f v k ∈ c.tokens → .slot f v k ∈ U)
    (hnew : ∀ f v i, q.inst? f v = some i → c.inst? f v = some i ∨
      i.closure? = none ∧ (i = .alloca → ∃ k, q.Allots f v k ∧ .slot f v k ∈ U)) :
    LexicalOk q U := by
  have h := c.lexicalOk hs
  have hown : q.own? = c.own? := by unfold Layout.own?; rw [hscopes]
  have hkind : q.kind = c.kind := by unfold Layout.kind; rw [hscopes]
  have hparent : q.parent? = c.parent? := by unfold Layout.parent?; rw [hscopes]
  have hcount : q.scopeCount = c.scopeCount := by unfold Layout.scopeCount; rw [hscopes]
  constructor
  · rw [henv, hown]; exact h.own
  · rw [henv, hown, hparent]; exact h.root
  · rw [henv, hown, hparent]; exact h.outer
  · intro k outer hk hU hp
    rw [hcount] at hk
    rw [hparent] at hp
    have hT : ∀ phase, .scope k phase ∉ c.tokens :=
      fun phase ht => hU phase ((htokens k phase).mpr ht)
    exact c.closed_grow hs hq hk hT hp (by rw [hscopes]) fun f v captured => hopen k f v captured hk hT
  · intro f v i id hi hid
    have hold := (hnew f v i hi).resolve_right fun hnone => by rw [hnone.1] at hid; cases hid
    obtain ⟨g, F, hF, hFid, hm⟩ := h.makers f v i id hold hid
    obtain ⟨G, hG, hGid⟩ := hq.fn g F hF
    exact ⟨g, G, hG, hGid.trans hFid, by rw [hmaker]; exact hm⟩
  · intro g site hg
    rw [hmaker] at hg
    exact hq.fnCount (h.made g site hg)
  · intro k phase ht hk
    rw [hkind] at hk
    rw [hmaker, hhome]
    exact h.unmade k phase ((htokens k phase).mp ht) hk
  · intro f v hv
    rcases hnew f v _ hv with hold | ⟨_, hslot⟩
    · obtain ⟨k, hk, hkept⟩ := h.slots f v hold
      rw [hown]
      exact ⟨k, hk.mono hq, hkept.imp_left (hslots f v k)⟩
    · obtain ⟨k, hk, ht⟩ := hslot rfl
      exact ⟨k, hk, .inl ht⟩

end Growth

end ScriptIr.Lower
