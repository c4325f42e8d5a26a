import ScriptIr.Proofs.Semantics.Growth

/-!
# Code that does what it should

A computation that emits code is related to what the code does when it runs. The relation is closed
under one computation after another, so what a piece of code does can be read off how it is emitted.

Instructions that fetch or make slots carry no names. The names that they stand for are collected while
code is emitted, and they are the same whatever values the code computes with.

* `Setting`: a scene with the slots that names stand for in code.
-/
namespace ScriptIr

open Code List Scope
open ScriptIr.Tree (Callable)

variable {s t : State} {firstId : FuncId} {c : Nat} {free : Prop} {i : Inst}

namespace Lower

/-- A state in which code can be emitted: the place is there, and `n` functions have been met. -/
structure Ready (firstId : FuncId) (n : Nat) (ctx : Ctx) (b : Nat) (s : State) : Prop where
  func : ctx.func < s.fnCount
  block : b < s.blockCount ctx.func
  scope : ctx.scope < s.scopes.scopes.size
  sound : s.scopes.Sound
  paired : s.Paired
  count : s.fnCount = n
  nextId : s.module.nextId = firstId + n.toUInt32

theorem Ready.grown {n : Nat} {ctx : Ctx} {b : Nat} {B : FunctionSpec}
    {k : ScopeId} {d : Nat} {fs : List Callable} (h : Ready firstId n ctx b s)
    (hg : s.Grows B ctx.func k free d fs t) (hc : c < t.blockCount ctx.func) :
    Ready firstId (n + fs.length) ctx c t where
  func := by have := h.func; rw [hg.count]; omega
  block := hc
  scope := Nat.lt_of_lt_of_le h.scope hg.scopes.size
  sound := hg.scopes.sound h.sound
  paired := hg.paired h.paired
  count := by rw [hg.count, h.count]
  nextId := by
    rw [hg.nextId, h.nextId, UInt32.add_assoc]
    simp

/-- A state reached by lowering code from the end of block `b` on, starting from a state where code
can be emitted. -/
structure Since (firstId : FuncId) (n : Nat) (B : FunctionSpec) (ctx : Ctx)
    (b : Nat) (free : Prop) (fs : List Callable) (s t : State) : Prop where
  start : Ready firstId n ctx b s
  grows : s.Grows B ctx.func ctx.scope free b fs t

namespace Since

variable {n : Nat} {B : FunctionSpec} {ctx : Ctx} {b : Nat} {free' : Prop} {fs gs : List Callable}
  {u : State}

theorem refl (h : Ready firstId n ctx b s) (free : Prop) : Since firstId n B ctx b free [] s s :=
  ⟨h, .refl _ _ _ _ _⟩

section

variable (h : Since firstId n B ctx b free fs s t)
include h

/-- Code can be emitted to every block that is there. -/
theorem ready (hc : c < t.blockCount ctx.func := by omega) :
    Ready firstId (n + fs.length) ctx c t := h.start.grown h.grows hc

theorem func : ctx.func < t.fnCount := by
  have := h.start.func
  rw [h.grows.count]
  omega

theorem andThen (hg : t.Grows B ctx.func ctx.scope free' c gs u) (hfree : free' → free)
    (hc : c = b ∨ s.blockCount ctx.func ≤ c := by omega) : Since firstId n B ctx b free (fs ++ gs) s u :=
  ⟨h.start, h.grows.after hg h.start.func h.start.scope hc hfree⟩

theorem newBlock (hrun : newBlock ctx t = .ok c u) :
    Since firstId n B ctx b free fs s u ∧ State.Adds ctx.func c t u ∧ c = t.blockCount ctx.func ∧
      u.blockCount ctx.func = t.blockCount ctx.func + 1 ∧
      u.instCount ctx.func = t.instCount ctx.func := by
  have hadds := newBlock_adds h.func hrun
  have hsince := h.andThen (hadds.grows B ctx.scope free b) id
  rw [append_nil] at hsince
  exact ⟨hsince, hadds, hadds.block, hadds.blockCount, hadds.instCount⟩

theorem emit {v : Nat}
    (hrun : emit ctx c i t = .ok v u) (hc : c = b ∨ s.blockCount ctx.func ≤ c := by omega)
    (hlt : c < t.blockCount ctx.func := by omega) :
    Since firstId n B ctx b free fs s u ∧ v = t.instCount ctx.func ∧ State.Pushes ctx.func c i t u ∧
      u.blockCount ctx.func = t.blockCount ctx.func ∧
      u.instCount ctx.func = t.instCount ctx.func + 1 := by
  obtain ⟨hv, hpush⟩ := emit_pushes h.func hlt hrun
  have hsince := h.andThen (hpush.grows B ctx.scope free) id hc
  rw [append_nil] at hsince
  exact ⟨hsince, hv, hpush, hpush.blockCount, hpush.instCount⟩

theorem perform {x : Unit}
    (hrun : perform ctx c i t = .ok x u) (hc : c = b ∨ s.blockCount ctx.func ≤ c := by omega)
    (hlt : c < t.blockCount ctx.func := by omega) :
    Since firstId n B ctx b free fs s u ∧ State.Pushes ctx.func c i t u ∧
      u.blockCount ctx.func = t.blockCount ctx.func ∧
      u.instCount ctx.func = t.instCount ctx.func + 1 := by
  have hpush := perform_pushes h.func hlt hrun
  have hsince := h.andThen (hpush.grows B ctx.scope free) id hc
  rw [append_nil] at hsince
  exact ⟨hsince, hpush, hpush.blockCount, hpush.instCount⟩

end

end Since

def Announced (s : State) (k : ScopeId) (names : List String) : Prop :=
  ∀ x ∈ names, s.scopes.hasLocal k x = true

theorem announced_nil (s : State) (k : ScopeId) : Announced s k [] := nofun

theorem Announced.grown {k l : ScopeId} {names : List String} (h : Announced s k names)
    (hg : s.scopes.Grows l free t.scopes) (hk : k < s.scopes.scopes.size) : Announced t k names :=
  fun x hx => hg.hasLocal k hk x (h x hx)

end Lower

namespace Run

open Lower

/-! ## Settings -/

section Setting

variable {V σ : Type}

def Scene.addresses (S : Scene V σ) : List String → StateM σ (List V)
  | [] => return []
  | x :: xs => do return (← S.address x) :: (← S.addresses xs)

/-- A scene, and how code fetches slots and makes closures in it. -/
structure Setting (V σ : Type) extends Scene V σ where
  /-- The slot that an instruction fetches or makes for a name. -/
  place : String → Inst → V
  /-- The id of the function with number 0. -/
  firstId : FuncId
  /-- The names that a function may capture. -/
  fits : Nat → List String → Prop
  closes : ∀ n names kind, fits n names → closure n kind = (do
      let captured ← toScene.addresses names
      toScene.perform (.closure kind (firstId + n.toUInt32) captured))

variable (S : Setting V σ)

/-- The slots that instructions fetch or make are those of the given names. -/
def Named (A : Activation V) (names : InstId → String) (lo hi : InstId) : Prop :=
  ∀ v, lo ≤ v → v < hi → ∀ i, A.slot v i = S.place (names v) i

/-- The registers hold the slots of the names that a scope declares, and other names are found where
code looks for them. -/
structure Sees (caps : List Capture) (ctx : Ctx) (s : State) (regs : Registers V) : Prop where
  cell : ∀ x v, (s.scopes.get ctx.scope).own? x = some (.cell v) →
    v < s.instCount ctx.func ∧ ∃ a, regs v = some a ∧ S.address x = pure a
  parameter : ∀ x i, (s.scopes.get ctx.scope).own? x = some (.parameter i) →
    S.address x = pure (S.place x (.arg i.toUInt32))
  capture : ∀ (i : Nat) (c : Capture), caps[i]? = some c →
    S.address c.name = pure (S.place c.name (.capture i.toUInt32))
  global : ∀ x, (∀ l ∈ s.scopes.chain ctx.scope, (s.scopes.get l).own? x = none) →
    S.address x = S.perform (.global x)

/-- The code lowered between two states is part of finished code. -/
structure Within (caps : List Capture) (ctx : Ctx) (s t : State) (names : InstId → String)
    (A : Activation V) (F : Function) : Prop where
  link : Link ctx.func (s.instCount ctx.func) t F
  named : Named S A names (s.instCount ctx.func) (t.instCount ctx.func)
  captures : t.scopes.captures ctx.scope <+: caps
  fits : ∀ g, s.fnCount ≤ g → g < t.fnCount → S.fits g (t.scopes.capturedBy g)

end Setting

/-- One assignment of names below a position, and another one from there on. -/
def joinAt (mid : InstId) (first second : InstId → String) : InstId → String :=
  fun v => if v < mid then first v else second v

theorem Named.sub {V σ : Type} {S : Setting V σ} {A : Activation V} {names : InstId → String}
    {lo hi hi' : InstId} (h : Named S A names lo hi) (hhi : hi' ≤ hi) : Named S A names lo hi' :=
  fun v hv hlt => h v hv (Nat.lt_of_lt_of_le hlt hhi)

section Sees

variable {V σ : Type} {S : Setting V σ} {caps : List Capture} {ctx : Ctx} {u : State}
  {regs regs' : Registers V} {B : FunctionSpec} {b : Nat} {fs : List Callable} {names : InstId → String}
  {A : Activation V} {F : Function}

variable {mid x : InstId} {n1 n2 : InstId → String}

/-- Code that lets the names of its scope alone does not change what they are. -/
theorem Sees.grown (h : Sees S caps ctx s regs) (hg : s.Grows B ctx.func ctx.scope free b fs t)
    (hfree : ¬free) (hk : ctx.scope < s.scopes.scopes.size)
    (hregs : ∀ v < s.instCount ctx.func, regs' v = regs v) : Sees S caps ctx t regs' := by
  have hown : ∀ l < s.scopes.scopes.size, (t.scopes.get l).own? = (s.scopes.get l).own? :=
    fun l hl => hg.scopes.own l hl fun hf => absurd hf hfree
  refine ⟨fun x v hx => ?_, fun x i hx => ?_, h.capture, fun x hx => ?_⟩
  · rw [hown _ hk] at hx
    obtain ⟨hv, a, ha, haddr⟩ := h.cell x v hx
    exact ⟨Nat.lt_of_lt_of_le hv hg.instCount, a, by rw [hregs v hv, ha], haddr⟩
  · rw [hown _ hk] at hx
    exact h.parameter x i hx
  · refine h.global x fun l hl => ?_
    have hlt : l < s.scopes.scopes.size := Nat.lt_of_le_of_lt (Arena.le_of_mem_chain hl) hk
    rw [← hown l hlt]
    exact hx l (by rwa [hg.scopes.chain hk])

/-- Functions made by code in a scope are finished: nothing later in that scope changes what they
capture. -/
theorem capturedBy_settled {free' : Prop} (hk : ctx.scope < s.scopes.scopes.size) (hp : s.Paired)
    (hst : s.Grows B ctx.func ctx.scope free b fs t) (htu : t.scopes.Grows ctx.scope free' u.scopes)
    {g : Nat} (hge : s.fnCount ≤ g) (hlt : g < t.fnCount) :
    u.scopes.capturedBy g = t.scopes.capturedBy g := by
  have hlen : g < t.scopes.bodies.length := by rw [hst.paired hp]; exact hlt
  obtain ⟨l, hl⟩ : ∃ l, t.scopes.bodies[g]? = some l := ⟨_, getElem?_eq_getElem hlen⟩
  have hnew : s.scopes.scopes.size ≤ l := by
    by_contra hold
    -- an old scope would have an old number
    obtain ⟨n, hn⟩ := Nat.exists_eq_add_of_le hst.scopes.size
    unfold Arena.bodies at hl
    rw [hn, range_add, filter_append] at hl
    have hcongr : (range s.scopes.scopes.size).filter
        (fun k => (t.scopes.get k).kind == .function) = s.scopes.bodies :=
      filter_congr fun x hx => by rw [hst.scopes.kind x (mem_range.mp hx)]
    rw [hcongr, getElem?_append_right (by rw [hp]; exact hge)] at hl
    have hmem := mem_of_mem_filter (mem_of_getElem? hl)
    obtain ⟨y, _, rfl⟩ := mem_map.mp hmem
    omega
  have hnot : l ∉ t.scopes.chain ctx.scope := fun hm =>
    Nat.lt_irrefl _ (Nat.lt_of_le_of_lt (Nat.le_trans hnew (Arena.le_of_mem_chain hm)) hk)
  rw [htu.capturedBy hl hnot]
  unfold Arena.capturedBy
  rw [hl]

/-- Code that is part of finished code does not have to go on to its end. -/
theorem Within.back {n : Nat} {v : State} (h : Within S caps ctx s v names A F)
    (hsu : Since firstId n B ctx b free fs s u) (huv : u.Follows ctx.func ctx.scope v) :
    Within S caps ctx s u names A F where
  link := h.link.back huv
  named := h.named.sub huv.instCount
  captures :=
    (huv.scopes.captures ctx.scope (Nat.lt_of_lt_of_le hsu.start.scope hsu.grows.scopes.size)).trans
      h.captures
  fits g hge hlt := by
    rw [← capturedBy_settled hsu.start.scope hsu.start.paired hsu.grows huv.scopes hge hlt]
    exact h.fits g hge (Nat.lt_of_lt_of_le hlt huv.count)

/-- The machine finds an instruction where it was emitted. -/
theorem Within.fetch {n : Nat} (h : Within S caps ctx s u names A F)
    (hst : Since firstId n B ctx b free fs s t) (hpush : State.Pushes ctx.func c i t u)
    (hc : c < t.blockCount ctx.func) :
    fetch? F c (t.len ctx.func c) = some (t.instCount ctx.func, i) := by
  have hlink := h.link
  rw [hpush.eq] at hlink
  exact Link.fetch_push hst.func hlink hst.grows.instCount hc

/-- Code that is part of finished code does not have to start at its beginning. -/
theorem Within.from_ {names' : InstId → String} (h : Within S caps ctx s u names A F)
    (hst : s.Follows ctx.func ctx.scope t)
    (hnames : ∀ x, t.instCount ctx.func ≤ x → x < u.instCount ctx.func → names x = names' x) :
    Within S caps ctx t u names' A F where
  link := h.link.from_ hst.instCount
  named x hge hlt i := by rw [h.named x (Nat.le_trans hst.instCount hge) hlt i, hnames x hge hlt]
  captures := h.captures
  fits g hge hlt := h.fits g (Nat.le_trans hst.count hge) hlt

theorem joinAt_lt {mid x : Nat} (h : x < mid) : joinAt mid n1 n2 x = n1 x := if_pos h

theorem joinAt_ge {mid x : Nat} (h : mid ≤ x) : joinAt mid n1 n2 x = n2 x := if_neg (Nat.not_lt.mpr h)

end Sees

/-! ## Contexts -/

/-- What is known about the registers below a position, given values of type `ι`. -/
structure Context (ι V : Type) where
  holds : ι → InstId → Registers V → Prop
  mono : ∀ {i n m regs regs'}, holds i n regs → n ≤ m → (∀ v < n, regs' v = regs v) → holds i m regs'

namespace Context

variable {ι κ μ V : Type} {vs : List InstId} {as : List V} {n : InstId}

/-- Nothing is known. -/
def any (ι V : Type) : Context ι V where
  holds _ _ _ := True
  mono _ _ _ := trivial

/-- What is known implies that a value, which may depend on the known ones, is where `L` says. -/
def Gives (K : Context ι V) (L : Context κ V) (g : ι → κ) : Prop :=
  ∀ i m regs, K.holds i m regs → L.holds (g i) m regs

/-- What is known about old values and a new one. -/
def push (K : Context ι V) (L : Context κ V) : Context (ι × κ) V where
  holds p n regs := L.holds p.2 n regs ∧ K.holds p.1 n regs
  mono h hle hregs := ⟨L.mono h.1 hle hregs, K.mono h.2 hle hregs⟩

def register (v : InstId) : Context V V where
  holds a n regs := v < n ∧ regs v = some a
  mono h hle hregs := ⟨Nat.lt_of_lt_of_le h.1 hle, by rw [hregs _ h.1, h.2]⟩

def registers (vs : List InstId) : Context (List V) V where
  holds as n regs := Forall₂ (fun v a => v < n ∧ regs v = some a) vs as
  mono h hle hregs :=
    h.imp fun _ _ h => ⟨Nat.lt_of_lt_of_le h.1 hle, by rw [hregs _ h.1, h.2]⟩

theorem Gives.last (K : Context ι V) (L : Context κ V) : (K.push L).Gives L Prod.snd :=
  fun _ _ _ h => h.1

theorem Gives.old {K : Context ι V} {M : Context μ V} {g : ι → μ} (h : K.Gives M g)
    (L : Context κ V) : (K.push L).Gives M fun p => g p.1 := fun _ _ _ hp => h _ _ _ hp.2

theorem registers_append {ws : List InstId} {bs : List V} {regs : Registers V}
    (h : (registers vs).holds as n regs) (h' : (registers ws).holds bs n regs) :
    (registers (vs ++ ws)).holds (as ++ bs) n regs := rel_append h h'

theorem registers_read {regs : Registers V} (h : (registers vs).holds as n regs) :
    regs.read? vs = some as :=
  Registers.read?_eq_some (h.imp fun _ _ h => h.2)

def pairs (vs : List (InstId × InstId)) : Context (List (V × V)) V where
  holds as n regs := Forall₂
    (fun v a => (register v.1).holds a.1 n regs ∧ (register v.2).holds a.2 n regs) vs as
  mono h hle hregs :=
    h.imp fun _ _ h => ⟨(register _).mono h.1 hle hregs, (register _).mono h.2 hle hregs⟩

end Context

/-! ## What code does -/

section Does

variable {V σ : Type} (S : Setting V σ) (B : FunctionSpec)

/-- The code lowered between two states, from the end of block `b` to the end of block `c`, does what
`ev` says and leaves its value as `L` says. It may declare the names `decl`, which have been announced,
and the functions `fs` are met in it. -/
structure Piece {ι β : Type} (ctx : Ctx) (b : Nat) (K : Context ι V) (decl : List String)
    (s t : State) (c : Nat) (L : Context β V) (ev : ι → StateM σ β) (fs : List Callable) :
    Prop where
  grows : s.Grows B ctx.func ctx.scope (¬Announced s ctx.scope decl) b fs t
  next : c = b ∨ s.blockCount ctx.func ≤ c
  lt : c < t.blockCount ctx.func
  runs : ∃ names, ∀ caps A F, Within S caps ctx s t names A F → Announced s ctx.scope decl →
    ∀ i prev regs w, K.holds i (s.instCount ctx.func) regs → Sees S caps ctx s regs → ∃ prev' regs',
        Reaches S.toWorld A F 0 (.running ⟨b, s.len ctx.func b, prev, regs, w⟩)
          (.running ⟨c, t.len ctx.func c, prev', regs', (ev i w).2⟩) ∧
        (∀ v < s.instCount ctx.func, regs' v = regs v) ∧
        L.holds (ev i w).1 (t.instCount ctx.func) regs'

/-- The code that a computation emits at the end of a block does what `ev` says, where the functions
in it are numbered from `n`. -/
def Does {ι α β : Type} (ctx : Ctx) (b : Nat) (n : Nat) (K : Context ι V) (decl : List String)
    (x : Emit α) (next : α → BlockId) (view : α → Context β V) (ev : ι → StateM σ β)
    (fs : List Callable) : Prop :=
  ∀ s a t, Ready S.firstId n ctx b s → x s = .ok a t → Piece S B ctx b K decl s t (next a) (view a) ev fs

end Does

section Piece

variable {V σ : Type} {S : Setting V σ} {B : FunctionSpec} {ι κ β δ : Type} {ctx : Ctx} {b d : Nat}
  {n : Nat} {K : Context ι V} {L : Context β V} {M : Context δ V} {decl decl' : List String}
  {fs gs : List Callable} {u : State}

theorem Piece.andThen {ev : ι → StateM σ β} (ev' : ι → β → StateM σ δ)
    (hready : Ready S.firstId n ctx b s) (h : Piece S B ctx b K decl s t c L ev fs)
    (h' : Piece S B ctx c (K.push L) decl' t u d M (fun p => ev' p.1 p.2) gs) :
    Piece S B ctx b K (decl ++ decl') s u d M (fun i => ev i >>= ev' i) (fs ++ gs) := by
  obtain ⟨hg, hnext, hlt, names, hruns⟩ := h
  obtain ⟨hg', hnext', hlt', names', hruns'⟩ := h'
  have hann : Announced s ctx.scope (decl ++ decl') → Announced t ctx.scope decl' := fun h =>
    Announced.grown (fun x hx => h x (mem_append_right _ hx)) hg.scopes hready.scope
  refine ⟨?_, ?_, hlt', joinAt (t.instCount ctx.func) names names', ?_⟩
  · refine (hg.weaken fun h h' => h fun x hx => h' x (mem_append_left _ hx)).after hg'
      hready.func hready.scope hnext fun h h' => h (hann h')
  · rcases hnext' with rfl | hnext'
    · exact hnext
    · exact .inr (Nat.le_trans hg.blockCount hnext')
  · intro caps A F hw hannounced i prev regs w hK hsees
    have hfirst : Announced s ctx.scope decl := fun x hx =>
      hannounced x (mem_append_left _ hx)
    obtain ⟨prev1, regs1, hreach, hregs, hL⟩ := hruns caps A F
      ((hw.back ⟨hready, hg⟩ hg'.follows).from_ (.refl _ _ s) fun _ _ => joinAt_lt) hfirst i prev regs
      w hK hsees
    obtain ⟨prev2, regs2, hreach', hregs', hL'⟩ := hruns' caps A F
      (hw.from_ hg.follows fun _ hge _ => joinAt_ge hge) (hann hannounced)
      (i, (ev i w).1) prev1 regs1 (ev i w).2 ⟨hL, K.mono hK hg.instCount hregs⟩
      (hsees.grown hg (not_not.mpr hfirst) hready.scope hregs)
    exact ⟨prev2, regs2, hreach.andThen hreach', fun v hv =>
      (hregs' v (Nat.lt_of_lt_of_le hv hg.instCount)).trans (hregs v hv), hL'⟩

/-- Code that declares nothing lets the names of its scope alone. -/
theorem Piece.keeps {ev : ι → StateM σ β} (h : Piece S B ctx b K [] s t c L ev fs) :
    s.Grows B ctx.func ctx.scope False b fs t :=
  h.grows.weaken fun hn => hn (announced_nil s ctx.scope)

/-- The machine executes an instruction where it was emitted. -/
theorem reaches_push {W : World V σ} {A : Activation V} {F : Function} {lo : InstId}
    (hready : Ready firstId n ctx b s) (hlink : Link ctx.func lo (s.push ctx.func b i) F)
    (hlo : lo ≤ s.instCount ctx.func) {prev : BlockId} {regs : Registers V} {eff : Effect V}
    (heff : effect? A prev regs (s.instCount ctx.func) i = some eff) (w : σ) :
    Reaches W A F 0 (.running ⟨b, s.len ctx.func b, prev, regs, w⟩)
      (.running ((⟨b, s.len ctx.func b, prev, regs, w⟩ : Point V σ).perform W
        (s.instCount ctx.func) eff)) :=
  (Reaches.perform (p := ⟨b, s.len ctx.func b, prev, regs, w⟩)
    (Link.fetch_push hready.func hlink hlo hready.block) heff).mono

theorem Piece.push {ev : ι → StateM σ V} (names : InstId → String)
    (hready : Ready S.firstId n ctx b s)
    (h : ∀ caps A, s.scopes.captures ctx.scope <+: caps →
      (∀ i, A.slot (s.instCount ctx.func) i = S.place (names (s.instCount ctx.func)) i) →
      ∀ j prev regs w, K.holds j (s.instCount ctx.func) regs → Sees S caps ctx s regs →
        ∃ eff, effect? A prev regs (s.instCount ctx.func) i = some eff ∧
          ((⟨b, s.len ctx.func b, prev, regs, w⟩ : Point V σ).perform S.toWorld
            (s.instCount ctx.func) eff) =
          ⟨b, s.len ctx.func b + 1, prev, regs.set (s.instCount ctx.func) (ev j w).1, (ev j w).2⟩) :
    Piece S B ctx b K [] s (s.push ctx.func b i) b (.register (s.instCount ctx.func)) ev [] := by
  refine ⟨State.grows_push hready.func _ _ b i, .inl rfl, ?_, names, ?_⟩
  · rw [State.blockCount_push]
    exact hready.block
  · intro caps A F hw _ j prev regs w hK hsees
    have hcount := State.instCount_push hready.func b i
    have hslot := hw.named _ le_rfl (by rw [hcount]; exact Nat.lt_succ_self _)
    obtain ⟨eff, heff, hperform⟩ := h caps A hw.captures hslot j prev regs w hK hsees
    have hreach := reaches_push (W := S.toWorld) hready hw.link le_rfl heff w
    rw [hperform] at hreach
    rw [State.len_push_same hready.func hready.block, hcount]
    exact ⟨prev, _, hreach, fun v hv => Registers.set_other _ _ (Nat.ne_of_lt hv),
      Nat.lt_succ_self _, Registers.set_same _ _ _⟩

end Piece

namespace Does

variable {V σ : Type} {S : Setting V σ} {B : FunctionSpec}
  {ι κ α β γ δ : Type} {ctx : Ctx} {b : Nat} {n : Nat} {K : Context ι V}
  {decl decl' : List String} {fs gs : List Callable}

variable {x : Emit α} {ev : ι → StateM σ β} {f : α → Emit γ} {next : α → BlockId}
  {next' : γ → BlockId} {view : α → Context β V}
  {view' : γ → Context δ V} {ev' : ι → β → StateM σ δ} {K' : Context κ V} {a : α} {e : Error}

/-- Code that declares nothing and meets no functions, behind code that was lowered before. -/
theorem follows {u : State} (h : Does S B ctx c (n + fs.length) K [] x next view ev [])
    (hs : Since S.firstId n B ctx b free fs s t) (hrun : x t = .ok a u)
    (hc : c = b ∨ s.blockCount ctx.func ≤ c := by omega)
    (hlt : c < t.blockCount ctx.func := by omega) :
    Piece S B ctx c K [] t u (next a) (view a) ev [] ∧ Since S.firstId n B ctx b free fs s u ∧
      t.blockCount ctx.func ≤ u.blockCount ctx.func ∧
      t.instCount ctx.func ≤ u.instCount ctx.func := by
  have p := h t a u (hs.ready hlt) hrun
  have hsince := hs.andThen p.keeps False.elim hc
  rw [append_nil] at hsince
  exact ⟨p, hsince, p.keeps.blockCount, p.keeps.instCount⟩

theorem bind (hx : Does S B ctx b n K decl x next view ev fs)
    (hf : ∀ a, Does S B ctx (next a) (n + fs.length) (K.push (view a)) decl' (f a) next' view'
      (fun p => ev' p.1 p.2) gs) :
    Does S B ctx b n K (decl ++ decl') (x >>= f) next' view' (fun i => ev i >>= ev' i) (fs ++ gs) := by
  intro s c u hready hrun
  obtain ⟨a, t, hxr, hfr⟩ := run_bind hrun
  have hpiece := hx s a t hready hxr
  exact hpiece.andThen ev' hready (hf a t c u (hready.grown hpiece.grows hpiece.lt) hfr)

/-- A computation without functions after another one. -/
theorem bindLast (hx : Does S B ctx b n K decl x next view ev fs)
    (hf : ∀ a, Does S B ctx (next a) (n + fs.length) (K.push (view a)) [] (f a) next' view'
      (fun p => ev' p.1 p.2) []) :
    Does S B ctx b n K decl (x >>= f) next' view' (fun i => ev i >>= ev' i) fs := by
  have h := bind hx hf
  rwa [append_nil, append_nil] at h

theorem bindFirst (hx : Does S B ctx b n K [] x next view ev [])
    (hf : ∀ a, Does S B ctx (next a) n (K.push (view a)) decl (f a) next' view' (fun p => ev' p.1 p.2) fs) :
    Does S B ctx b n K decl (x >>= f) next' view' (fun i => ev i >>= ev' i) fs :=
  bind hx hf

theorem bindAfter (hx : Does S B ctx b n K [] x next view ev fs)
    (hf : ∀ a, Does S B ctx (next a) (n + fs.length) (K.push (view a)) decl (f a) next' view'
      (fun p => ev' p.1 p.2) gs) :
    Does S B ctx b n K decl (x >>= f) next' view' (fun i => ev i >>= ev' i) (fs ++ gs) :=
  bind hx hf

theorem cover {ev' : κ → StateM σ β} (h : Does S B ctx b n K decl x next view ev fs)
    (hcover : ∀ j m regs, K'.holds j m regs → ∃ i, K.holds i m regs ∧ ev i = ev' j) :
    Does S B ctx b n K' decl x next view ev' fs := by
  intro s a t hready hrun
  obtain ⟨hgrows, hnext, hlt, names, hruns⟩ := h s a t hready hrun
  refine ⟨hgrows, hnext, hlt, names, fun caps A F hw hann j prev regs w hK => ?_⟩
  obtain ⟨i, hi, hev⟩ := hcover j _ regs hK
  rw [← hev]
  exact hruns caps A F hw hann i prev regs w hi

/-- What code does uses some of the known values only. -/
theorem lift (h : Does S B ctx b n K decl x next view ev fs) {g : κ → ι} (hg : K'.Gives K g)
    : Does S B ctx b n K' decl x next view (fun j => ev (g j)) fs :=
  h.cover fun j m regs hj => ⟨g j, hg j m regs hj, rfl⟩

theorem congr {ev' : ι → StateM σ β} (h : Does S B ctx b n K decl x next view ev fs)
    (hev : ∀ i m regs, K.holds i m regs → ev i = ev' i) :
    Does S B ctx b n K decl x next view ev' fs :=
  h.cover fun i m regs hi => ⟨i, hi, hev i m regs hi⟩

/-- The same in terms of another evaluation. -/
theorem like (ev : ι → StateM σ β) {ev' : ι → StateM σ β}
    (hev : ∀ i m regs, K.holds i m regs → ev i = ev' i)
    (h : Does S B ctx b n K decl x next view ev fs) : Does S B ctx b n K decl x next view ev' fs :=
  h.congr hev

theorem imp {view' : α → Context δ V} (h : Does S B ctx b n K decl x next view ev fs) {g : β → δ}
    (hg : ∀ a, (view a).Gives (view' a) g) :
    Does S B ctx b n K decl x next view' (fun i => g <$> ev i) fs := by
  intro s a t hready hrun
  obtain ⟨hgrows, hnext, hlt, names, hruns⟩ := h s a t hready hrun
  refine ⟨hgrows, hnext, hlt, names, fun caps A F hw hann i prev regs w hK hsees => ?_⟩
  obtain ⟨prev', regs', hreach, hregs, hL⟩ := hruns caps A F hw hann i prev regs w hK hsees
  exact ⟨prev', regs', hreach, hregs, hg a _ _ _ hL⟩

/-- The answer of a computation is put together from the answer of another one. -/
theorem result {g : α → γ} {view' : γ → Context β V} (h : Does S B ctx b n K decl x next view ev fs)
    (hnext : ∀ a, next' (g a) = next a) (hview : ∀ a, (view a).Gives (view' (g a)) id) :
    Does S B ctx b n K decl (x >>= fun a => Pure.pure (g a)) next' view' ev fs := by
  intro s c t hready hrun
  obtain ⟨a, u, hx, hpure⟩ := run_bind hrun
  cases hpure
  obtain ⟨hgrows, hn, hlt, names, hruns⟩ := h s a t hready hx
  rw [← hnext a] at hn hlt
  refine ⟨hgrows, hn, hlt, names, fun caps A F hw hann i prev regs w hK hsees => ?_⟩
  obtain ⟨prev', regs', hreach, hregs, hL⟩ := hruns caps A F hw hann i prev regs w hK hsees
  rw [← hnext a] at hreach
  exact ⟨prev', regs', hreach, hregs, hview a _ _ _ hL⟩

/-- Nothing is emitted, and nothing remains to be done. -/
theorem answer (hnext : next a = b)
    (h : ∀ i m regs, K.holds i m regs → ∃ v, ev i = Pure.pure v ∧ (view a).holds v m regs) :
    Does S B ctx b n K [] (Pure.pure a) next view ev [] := by
  intro s a' t hready hrun
  cases hrun
  refine ⟨.of_module rfl (.refl _ _ _) rfl b, .inl hnext, by rw [hnext]; exact hready.block,
    fun _ => "", ?_⟩
  intro caps A F _ _ i prev regs w hK _
  obtain ⟨v, hev, hv⟩ := h i _ regs hK
  rw [hnext, hev]
  exact ⟨prev, regs, .refl _, fun _ _ => rfl, hv⟩

theorem pure {v : ι → β} (hnext : next a = b) (h : K.Gives (view a) v) :
    Does S B ctx b n K [] (Pure.pure a) next view (fun i => Pure.pure (v i)) [] :=
  answer hnext fun i m regs hK => ⟨v i, rfl, h i m regs hK⟩

/-- A computation that fails emits no code that could run. -/
theorem throw : Does S B ctx b n K decl (MonadExcept.throw e : Emit α) next view ev fs :=
  nofun

theorem throw_bind {next : γ → BlockId} {view : γ → Context β V} :
    Does S B ctx b n K decl ((MonadExcept.throw e : Emit α) >>= f) next view ev fs :=
  nofun

theorem ofExcept_bind {r : Except Error α} {next : γ → BlockId} {view : γ → Context β V}
    (h : ∀ a, r = .ok a → Does S B ctx b n K decl (f a) next view ev fs) :
    Does S B ctx b n K decl ((ofExcept r : Emit α) >>= f) next view ev fs := by
  cases r with
  | error e => exact throw_bind
  | ok a => exact h a rfl

theorem act {a : ι → Action V} (h : ∀ j m regs, K.holds j m regs →
      ∀ (A : Activation V) prev v, effect? A prev regs v i = some (.act (a j))) :
    Does S B ctx b n K [] (emit ctx b i) (fun _ => b) Context.register (fun j => S.perform (a j)) [] := by
  intro s v t hready hrun
  rw [emit_eq] at hrun
  cases hrun
  exact .push (fun _ => "") hready fun caps A _ _ j prev regs w hK _ =>
    ⟨_, h j _ regs hK A prev _, rfl⟩

/-- An instruction that has a value without doing anything. -/
theorem value {a : ι → V} (h : ∀ j m regs, K.holds j m regs →
      ∀ (A : Activation V) prev v, effect? A prev regs v i = some (.value (a j))) :
    Does S B ctx b n K [] (emit ctx b i) (fun _ => b) Context.register (fun j => Pure.pure (a j)) [] := by
  intro s v t hready hrun
  rw [emit_eq] at hrun
  cases hrun
  exact .push (fun _ => "") hready fun caps A _ _ j prev regs w hK _ =>
    ⟨_, h j _ regs hK A prev _, rfl⟩

theorem perform {a : ι → Action V} (h : ∀ j m regs, K.holds j m regs →
      ∀ (A : Activation V) prev v, effect? A prev regs v i = some (.act (a j))) :
    Does S B ctx b n K [] (perform ctx b i) (fun _ => b) (fun _ => .any Unit V)
      (fun j => discard (S.perform (a j))) [] := by
  intro s v t hready hrun
  obtain ⟨v, hrun, _⟩ := run_map (x := emit ctx b i) (f := fun _ => ()) hrun
  have hdoes : Does S B ctx b n K [] (emit ctx b i) (fun _ => b) (fun _ => .any Unit V)
      (fun j => (fun _ => ()) <$> S.perform (a j)) [] := (act h).imp fun _ _ _ _ _ => trivial
  exact hdoes s v t hready hrun

/-- An instruction that has no value and does nothing that can be seen. -/
theorem quiet (h : ∀ j m regs, K.holds j m regs →
      ∀ (A : Activation V) prev v, effect? A prev regs v i = some .quiet) :
    Does S B ctx b n K [] (Lower.perform ctx b i) (fun _ => b) (fun _ => .any Unit V)
      (fun _ => Pure.pure ()) [] := by
  intro s v t hready hrun
  have hpush := Lower.perform_pushes hready.func hready.block hrun
  refine ⟨hpush.grows _ _ _, .inl rfl, by rw [hpush.blockCount]; exact hready.block, fun _ => "", ?_⟩
  intro caps A F hw _ j prev regs w hK _
  have hfetch := hw.fetch (Since.refl (B := B) hready False) hpush hready.block
  have hreach := Reaches.perform (W := S.toWorld) (p := ⟨b, s.len ctx.func b, prev, regs, w⟩) hfetch
    (h j _ regs hK A prev _)
  rw [hpush.len_same]
  exact ⟨prev, regs, hreach.mono, fun _ _ => rfl, trivial⟩

end Does

end Run

end ScriptIr
