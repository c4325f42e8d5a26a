import ScriptIr.Proofs.Semantics.Patterns

/-!
# How code of statements ends

Statements may end in several ways, and code that simulates them goes to a different place for each.
Here names stand for fixed addresses and addresses are fetched silently, so that what a run does to the
world is what the statements do.

* `Cells`: the registers hold the addresses of the names of a scope.
-/
namespace ScriptIr

open Code List Scope ScriptIr.Tree

variable {B : FunctionSpec} {free : Prop} {fs : List Callable} {c : Nat}
  {i : Inst}

/-! ## Code that stays -/

namespace Lower.State

variable {k : ScopeId}

/-- The code of function `f` is still there, except for instructions in `ex`, which may have been
replaced. -/
structure Keeps (f : Nat) (ex : Nat → Prop) (s t : State) : Prop where
  insts : ∀ v < s.instCount f, ¬ex v → t.inst? f v = s.inst? f v
  instCount : s.instCount f ≤ t.instCount f
  block : ∀ b ids, s.block? f b = some ids → ∃ more, t.block? f b = some (ids ++ more)

variable {f : Nat} {ex : Nat → Prop} {s t u : State}

theorem Keeps.trans (h : s.Keeps f ex t) (h' : t.Keeps f ex u) : s.Keeps f ex u where
  insts v hv hex := (h'.insts v (Nat.lt_of_lt_of_le hv h.instCount) hex).trans (h.insts v hv hex)
  instCount := Nat.le_trans h.instCount h'.instCount
  block b ids hids := by
    obtain ⟨more, hmore⟩ := h.block b ids hids
    obtain ⟨more', hmore'⟩ := h'.block b _ hmore
    exact ⟨more ++ more', by rw [hmore', append_assoc]⟩

theorem Keeps.refl (f : Nat) (ex : Nat → Prop) (s : State) : s.Keeps f ex s where
  insts _ _ _ := rfl
  instCount := le_rfl
  block _ ids h := ⟨[], by rw [append_nil, h]⟩

theorem Keeps.mono {ex' : Nat → Prop} (h : s.Keeps f ex t) (hex : ∀ v, ex v → ex' v) : s.Keeps f ex' t :=
  { h with insts := fun v hv hnot => h.insts v hv fun hv' => hnot (hex v hv') }

theorem Follows.keeps (h : s.Follows f k t) : s.Keeps f ex t :=
  ⟨fun v hv _ => h.insts v hv, h.instCount, h.block⟩

theorem Grows.keepsCode {b : Nat} (h : s.Grows B f k free b fs t) : s.Keeps f ex t :=
  h.follows.keeps

theorem Pushes.keeps (h : Pushes f c i s t) : s.Keeps f ex t :=
  (h.follows 0).keeps

theorem Adds.keeps (h : Adds f c s t) : s.Keeps f ex t := (h.follows 0).keeps

theorem Keeps.of_module (h : t.module = s.module) : s.Keeps f ex t := by
  have hfn : t.fn? = s.fn? := by unfold fn?; rw [h]
  refine ⟨fun v _ _ => ?_, ?_, fun b ids hids => ⟨[], ?_⟩⟩
  · unfold inst?
    rw [hfn]
  · unfold State.instCount
    exact Nat.le_of_eq (by rw [hfn])
  · unfold block? at hids ⊢
    rw [hfn, append_nil, hids]

theorem keeps_replace (s : State) (f : Nat) {v : Nat} (i : Inst) (hv : ex v) :
    s.Keeps f ex (s.replace f v i) where
  insts w _ hw := by
    have hne : w ≠ v := fun he => hw (he ▸ hv)
    rw [inst?_replace, if_neg fun he => hne he.2]
  instCount := Nat.le_of_eq (instCount_replace s f v i f).symm
  block b ids hids := ⟨[], by rw [block?_replace, hids, append_nil]⟩

end Lower.State

namespace Run

open Lower

variable {V σ : Type} {lo lo' : Nat} {r' : Registers V}

/-! ## Plain settings -/

/-- Names stand for fixed addresses, and addresses are fetched without doing anything. -/
structure Plain (S : Setting V σ) (addr : String → V) : Prop where
  address : ∀ x, S.address x = pure (addr x)
  global : ∀ x, S.perform (.global x) = pure (addr x)
  place : ∀ x i, S.place x i = addr x
  fits : ∀ g names, S.fits g names

/-- The slots of the names that a scope has itself hold their addresses. -/
def Cells (addr : String → V) (ctx : Ctx) (s : State) (regs : Registers V) : Prop :=
  ∀ x v, (s.scopes.get ctx.scope).own? x = some (.cell v) →
    v < s.instCount ctx.func ∧ regs v = some (addr x)

/-- Registers below a position hold what they held. -/
def Agree (lo : Nat) (regs regs' : Registers V) : Prop := ∀ v < lo, regs' v = regs v

theorem Agree.refl (lo : Nat) (regs : Registers V) : Agree lo regs regs := fun _ _ => rfl

theorem Agree.trans {r r'' : Registers V} (h : Agree lo r r') (h' : Agree lo' r' r'')
    (hle : lo ≤ lo' := by omega) :
    Agree lo r r'' := fun v hv =>
  (h' v (Nat.lt_of_lt_of_le hv hle)).trans (h v hv)

theorem Agree.mono {r : Registers V} (h : Agree lo' r r') (hle : lo ≤ lo' := by omega) :
    Agree lo r r' := fun v hv => h v (Nat.lt_of_lt_of_le hv hle)

/-- Instructions fetch or make the slots of the given names, and the code lowered between two states
is part of finished code. -/
structure Inside (S : Setting V σ) (f : Nat) (s t : State) (names : InstId → String)
    (A : Activation V) (F : Code.Function) : Prop where
  link : Link f (s.instCount f) t F
  named : Named S A names (s.instCount f) (t.instCount f)

section Inside

variable {S : Setting V σ} {addr : String → V} {f : Nat} {ctx : Ctx} {s t u v : State}
  {names names' : InstId → String} {A : Activation V} {F : Code.Function} {regs regs' : Registers V}

variable {ex : Nat → Prop}

theorem Cells.sees (hp : Plain S addr) (h : Cells addr ctx s regs) (caps : List Capture) :
    Sees S caps ctx s regs where
  cell x v hx := ⟨(h x v hx).1, addr x, (h x v hx).2, hp.address x⟩
  parameter x i _ := by rw [hp.address, hp.place]
  capture i c _ := by rw [hp.address, hp.place]
  global x _ := by rw [hp.address, hp.global]

theorem Cells.grown {b : Nat} (h : Cells addr ctx s regs)
    (hg : s.Grows B ctx.func ctx.scope free b fs t) (hfree : ¬free)
    (hk : ctx.scope < s.scopes.scopes.size) (hregs : Agree (s.instCount ctx.func) regs regs') :
    Cells addr ctx t regs' := by
  intro x v hx
  rw [hg.scopes.own _ hk fun hf => absurd hf hfree] at hx
  obtain ⟨hv, ha⟩ := h x v hx
  exact ⟨Nat.lt_of_lt_of_le hv hg.instCount, by rw [hregs v hv, ha]⟩

theorem cells_of_none (h : ∀ x, (s.scopes.get ctx.scope).own? x = none) :
    Cells addr ctx s regs := fun x v hx => by rw [h x] at hx; cases hx

theorem Inside.within (hp : Plain S addr) (h : Inside S ctx.func s t names A F) :
    Within S (t.scopes.captures ctx.scope) ctx s t names A F :=
  ⟨h.link, h.named, prefix_rfl, fun g _ _ => hp.fits g _⟩

theorem Inside.part (h : Inside S f s v names A F) (names' : InstId → String) (huv : u.Keeps f ex v)
    (hst : s.instCount f ≤ t.instCount f := by omega)
    (hex : ∀ x, ex x → x < t.instCount f ∨ u.instCount f ≤ x := by
      intro x hx
      first | exact False.elim hx | omega)
    (hnames : ∀ x : Nat, t.instCount f ≤ x → x < u.instCount f → names x = names' x := by
      intro x hge hlt
      simp (disch := omega) only [joinAt_ge, joinAt_lt]) :
    Inside S f t u names' A F where
  link := by
    refine ⟨fun x i hx hi => ?_, fun b ids hids => ?_⟩
    · have hlt := State.lt_instCount hi
      refine h.link.inst x i (Nat.le_trans hst hx) ?_
      rw [huv.insts x hlt fun he => (hex x he).elim (Nat.not_lt.mpr hx) (Nat.not_le.mpr hlt), hi]
    · obtain ⟨more, hmore⟩ := huv.block b ids hids
      obtain ⟨more', hmore'⟩ := h.link.block b _ hmore
      exact ⟨more ++ more', by rw [hmore', append_assoc]⟩
  named x hge hlt i := by
    rw [h.named x (Nat.le_trans hst hge) (Nat.lt_of_lt_of_le hlt huv.instCount) i, hnames x hge hlt]

section

variable (h : Inside S f s v names A F) (hf : f < t.fnCount) (hst : s.instCount f ≤ t.instCount f)
  (hpush : State.Pushes f c i t u) (huv : u.Keeps f ex v)
include h hf hst hpush huv

/-- The machine finds an instruction where it was emitted, unless it has been replaced. -/
theorem Inside.fetch
    (hex : ¬ex (t.instCount f)) (hc : c < t.blockCount f) :
    fetch? F c (t.len f c) = some (t.instCount f, i) := by
  have hlink : Link f (t.instCount f) u F := by
    refine ⟨fun x i hx hi => ?_, fun b ids hids => ?_⟩
    · have hlt : x < t.instCount f + 1 := by
        rw [← hpush.instCount]
        exact State.lt_instCount hi
      have hxt : x = t.instCount f := Nat.le_antisymm (Nat.le_of_lt_succ hlt) hx
      refine h.link.inst x i (Nat.le_trans hst hx) ?_
      rw [huv.insts x (State.lt_instCount hi) (hxt ▸ hex), hi]
    · obtain ⟨more, hmore⟩ := huv.block b ids hids
      obtain ⟨more', hmore'⟩ := h.link.block b _ hmore
      exact ⟨more ++ more', by rw [hmore', append_assoc]⟩
  rw [hpush.eq] at hlink
  exact hlink.fetch_push hf le_rfl hc

/-- The machine finds the instruction that has replaced another one. -/
theorem Inside.fetch_replaced {i' : Inst}
    (hi : v.inst? f (t.instCount f) = some i') (hc : c < t.blockCount f) :
    fetch? F c (t.len f c) = some (t.instCount f, i') := by
  obtain ⟨ids, hids⟩ := State.block?_isSome hc
  have hids' : u.block? f c = some (ids ++ [t.instCount f]) := by
    rw [hpush.eq, State.block?_push hf, if_pos ⟨rfl, rfl⟩, hids]
    rfl
  obtain ⟨more, hmore⟩ := huv.block c _ hids'
  refine h.link.fetch? hmore ?_ hst hi
  rw [State.len_eq hids, append_assoc, getElem?_append_right le_rfl, Nat.sub_self]
  rfl

end

end Inside

/-! ## Ends -/

/-- Where code goes on, by the outcome of a statement. -/
structure Exits where
  block : BlockId
  index : Nat
  onBreak : Option BlockId
  onContinue : Option BlockId

section Ends

variable (W : World V σ) (A : Activation V) (F : Code.Function)
  {β : Type} {least : Nat} {Start : β → Point V σ → Prop}

/-- A run gets from a moment to a place of the code, without changing registers below a position. -/
def Arrives (lo : Nat) (p : Point V σ) (b : BlockId) (index : Nat) (w : σ) : Prop :=
  ∃ prev regs, Reaches W A F 0 (.running p) (.running ⟨b, index, prev, regs, w⟩) ∧ Agree lo p.regs regs

/-- A run from a moment on goes where an outcome says; one that does not end makes at least `fuel`
steps. -/
def Ends (fuel : Nat) (E : Exits) (lo : Nat) (p : Point V σ) : Outcome V × σ → Prop
  | (.normal, w) => Arrives W A F lo p E.block E.index w
  | (.breaks, w) => ∃ target, E.onBreak = some target ∧ Arrives W A F lo p target 0 w
  | (.continues, w) => ∃ target, E.onContinue = some target ∧ Arrives W A F lo p target 0 w
  | (.returns v, w) => Reaches W A F 0 (.running p) (.returned v w)
  | (.unfinished, w) => ∃ st, Reaches W A F fuel (.running p) st ∧ st.world = w

variable {W A F} {fuel fuel' k : Nat} {E E' : Exits} {p q : Point V σ} {b : BlockId} {index : Nat} {w : σ}
  {r : Outcome V × σ}

theorem Arrives.after (hreach : Reaches W A F k (.running p) (.running q))
    (hregs : Agree lo p.regs q.regs) (hlo : lo ≤ lo') (h : Arrives W A F lo' q b index w) :
    Arrives W A F lo p b index w := by
  obtain ⟨prev, regs, hr, ha⟩ := h
  exact ⟨prev, regs, hreach.andThen hr, hregs.trans ha hlo⟩

theorem Ends.fewer (h : Ends W A F fuel E lo p r) (hle : fuel' ≤ fuel) : Ends W A F fuel' E lo p r := by
  obtain ⟨o, w⟩ := r
  cases o with
  | unfinished =>
    obtain ⟨st, hr, hw⟩ := h
    exact ⟨st, hr.mono hle, hw⟩
  | _ => exact h

section

variable (hreach : Reaches W A F k (.running p) (.running q)) (hregs : Agree lo p.regs q.regs)
  (hlo : lo ≤ lo') (h : Ends W A F fuel E lo' q r)
include hreach hregs hlo h

theorem Ends.later :
    Ends W A F (k + fuel) E lo p r := by
  obtain ⟨o, w⟩ := r
  cases o with
  | normal => exact Arrives.after hreach hregs hlo h
  | breaks =>
    obtain ⟨target, ht, ha⟩ := h
    exact ⟨target, ht, ha.after hreach hregs hlo⟩
  | continues =>
    obtain ⟨target, ht, ha⟩ := h
    exact ⟨target, ht, ha.after hreach hregs hlo⟩
  | returns v => exact hreach.andThen h
  | unfinished =>
    obtain ⟨st, hr, hw⟩ := h
    exact ⟨st, hreach.trans hr, hw⟩

theorem Ends.after :
    Ends W A F fuel E lo p r := (h.later hreach hregs hlo).fewer (Nat.le_add_left _ _)

end

theorem Ends.onward (h : Ends W A F fuel E lo p r) (hbreak : E.onBreak = E'.onBreak)
    (hcontinue : E.onContinue = E'.onContinue)
    (hnext : ∀ prev regs, r.1 = .normal → Agree lo p.regs regs →
      Arrives W A F lo ⟨E.block, E.index, prev, regs, r.2⟩ E'.block E'.index r.2) :
    Ends W A F fuel E' lo p r := by
  obtain ⟨o, w⟩ := r
  cases o with
  | normal =>
    obtain ⟨prev, regs, hreach, hregs⟩ := h
    exact (hnext prev regs rfl hregs).after hreach hregs le_rfl
  | breaks =>
    obtain ⟨target, ht, ha⟩ := h
    exact ⟨target, hbreak ▸ ht, ha⟩
  | continues =>
    obtain ⟨target, ht, ha⟩ := h
    exact ⟨target, hcontinue ▸ ht, ha⟩
  | returns v => exact h
  | unfinished => exact h

theorem Ends.inTurn {first second : StateM σ (Outcome V)}
    (h : Ends W A F fuel E lo p (first p.world)) (hbreak : E.onBreak = E'.onBreak)
    (hcontinue : E.onContinue = E'.onContinue)
    (h' : ∀ prev regs, (first p.world).1 = .normal → Agree lo p.regs regs →
      Ends W A F fuel E' lo ⟨E.block, E.index, prev, regs, (first p.world).2⟩ (second (first p.world).2)) :
    Ends W A F fuel E' lo p (inTurn first second p.world) := by
  simp only [Run.inTurn, bind, StateT.bind]
  generalize first p.world = r at h h' ⊢
  obtain ⟨o, w⟩ := r
  cases o with
  | normal =>
    obtain ⟨prev, regs, hreach, hregs⟩ := h
    exact (h' prev regs rfl hregs).after hreach hregs le_rfl
  | breaks =>
    obtain ⟨target, ht, ha⟩ := h
    exact ⟨target, hbreak ▸ ht, ha⟩
  | continues =>
    obtain ⟨target, ht, ha⟩ := h
    exact ⟨target, hcontinue ▸ ht, ha⟩
  | returns v => exact h
  | unfinished => exact h

/-- A run is at the start of a block. -/
def Point.At (p : Point V σ) (b : BlockId) : Prop := ∃ prev regs w, p = ⟨b, 0, prev, regs, w⟩

theorem Point.At.here (b prev : BlockId) (regs : Registers V) (w : σ) :
    Point.At ⟨b, 0, prev, regs, w⟩ b := ⟨prev, regs, w, rfl⟩

/-- What a round of a loop that starts at a moment comes to: another round follows after at least
`least` steps, or the loop ends. -/
def RoundEnds {β : Type} (W : World V σ) (A : Activation V) (F : Code.Function) (least fuel : Nat)
    (E : Exits) (lo : Nat) (Start : β → Point V σ → Prop) (p : Point V σ) : Round β V × σ → Prop
  | (.again state, w) => ∃ q, Reaches W A F least (.running p) (.running q) ∧ Agree lo p.regs q.regs ∧
      q.world = w ∧ Start state q
  | (.ended o, w) => Ends W A F fuel E lo p (o, w)

theorem RoundEnds.later {r : Round β V × σ} (hreach : Reaches W A F k (.running p) (.running q))
    (hregs : Agree lo p.regs q.regs) (h : RoundEnds W A F least fuel E lo Start q r) :
    RoundEnds W A F (k + least) fuel E lo Start p r := by
  obtain ⟨r, w⟩ := r
  cases r with
  | again state =>
    obtain ⟨q', hreach', hregs', hw, hstart⟩ := h
    exact ⟨q', hreach.trans hreach', hregs.trans hregs', hw, hstart⟩
  | ended o => exact Ends.after hreach hregs le_rfl h

theorem RoundEnds.after {r : Round β V × σ} (hreach : Reaches W A F k (.running p) (.running q))
    (hregs : Agree lo p.regs q.regs) (h : RoundEnds W A F least fuel E lo Start q r) :
    RoundEnds W A F least fuel E lo Start p r :=
  Nat.zero_add least ▸ RoundEnds.later (hreach.mono (Nat.zero_le k)) hregs h

theorem RoundEnds.step {r : Round β V × σ} (hreach : Reaches W A F 1 (.running p) (.running q))
    (hregs : Agree lo p.regs q.regs) (h : RoundEnds W A F 0 fuel E lo Start q r) :
    RoundEnds W A F 1 fuel E lo Start p r :=
  RoundEnds.later hreach hregs h

/-- What follows the body of a loop, if control comes to one block after the body and when it is
continued. -/
theorem RoundEnds.afterBody {rest : StateM σ (Round β V)} {broken next : BlockId}
    (h : Ends W A F fuel ⟨next, 0, some broken, some next⟩ lo' p r) (hlo : lo ≤ lo')
    (hbreak : ∀ prev regs, r.1 = .breaks → Agree lo' p.regs regs →
      Arrives W A F lo ⟨broken, 0, prev, regs, r.2⟩ E.block E.index r.2)
    (hnext : ∀ prev regs, Agree lo' p.regs regs →
      RoundEnds W A F least fuel E lo Start ⟨next, 0, prev, regs, r.2⟩ (rest r.2)) :
    RoundEnds W A F least fuel E lo Start p (afterBody r.1 rest r.2) := by
  obtain ⟨o, w⟩ := r
  cases o with
  | normal =>
    obtain ⟨prev, regs, hreach, hregs⟩ := h
    exact (hnext prev regs hregs).after hreach (hregs.mono hlo)
  | continues =>
    obtain ⟨target, ht, prev, regs, hreach, hregs⟩ := h
    cases ht
    exact (hnext prev regs hregs).after hreach (hregs.mono hlo)
  | breaks =>
    obtain ⟨target, ht, prev, regs, hreach, hregs⟩ := h
    cases ht
    exact (hbreak prev regs rfl hregs).after hreach (hregs.mono hlo) le_rfl
  | returns v => exact h
  | unfinished => exact h

/-- A loop goes where its outcome says if each of its rounds does. -/
theorem rounds_ends {round : β → StateM σ (Round β V)} (Start : β → Point V σ → Prop)
    (hround : ∀ state p, Start state p → RoundEnds W A F 1 fuel E lo Start p (round state p.world))
    {n : Nat} (hn : n ≤ fuel) {state : β} (hstart : Start state p) :
    Ends W A F n E lo p (rounds round n state p.world) := by
  -- the number of steps made so far is at least the number of rounds
  induction n generalizing state p with
  | zero => exact ⟨.running p, .refl _, rfl⟩
  | succ n ih =>
    have h := hround state p hstart
    simp only [rounds, bind, StateT.bind]
    generalize round state p.world = r at h ⊢
    obtain ⟨r, w⟩ := r
    cases r with
    | ended o => exact Ends.fewer h hn
    | again state =>
      obtain ⟨q, hreach, hregs, rfl, hq⟩ := h
      exact (Ends.later hreach hregs le_rfl (ih (Nat.le_of_succ_le hn) hq)).fewer (by omega)

end Ends

end Run

end ScriptIr
