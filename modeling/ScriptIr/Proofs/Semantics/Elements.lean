import ScriptIr.Proofs.Semantics.ForLoops

/-!
# What loops over keys and items do

Both loops ask for an element before each round, and open a frame for the round.

* `Walks`: the code of a protocol gets them in that way (`keysProtocol_walks`, `itemsProtocol_walks`).
* `forEachCode_does`: the whole loop.
-/
namespace ScriptIr.Run

open Code Context Scope Lower ScriptIr.Tree

/-! ## Protocols -/

/-- How a loop gets its elements: what is fixed and the state of the first round, whether there is a
further element, the element, and the state of the next round. -/
structure Walk (V σ ρ β χ : Type) where
  start : V → StateM σ (ρ × β)
  step : ρ → β → StateM σ (Option χ)
  item : ρ → β → χ → StateM σ V
  again : ρ → β → StateM σ β

namespace Walk

variable {V σ ρ β χ : Type} (W : Walk V σ ρ β χ)

/-- What follows once there is a further element. -/
def visit (receive : V → StateM σ Unit) (body : StateM σ (Outcome V)) (e : ρ) (i : β) (x : χ) :
    StateM σ (Round β V) := do
  receive (← W.item e i x)
  afterBody (← body) (do return .again (← W.again e i))

def round (receive : V → StateM σ Unit) (body : StateM σ (Outcome V)) (e : ρ) (i : β) :
    StateM σ (Round β V) := do
  match ← W.step e i with
  | none => return .ended .normal
  | some x => W.visit receive body e i x

def loop (value : StateM σ V) (receive : V → StateM σ Unit) (body : StateM σ (Outcome V)) (fuel : Nat) :
    StateM σ (Outcome V) := do
  let v ← value
  let (e, first) ← W.start v
  rounds (W.round receive body e) fuel first

variable {W} {receive : V → StateM σ Unit} {body : StateM σ (Outcome V)} {e : ρ} {i : β} {w : σ}

theorem round_none (h : (W.step e i w).1 = none) :
    W.round receive body e i w = (.ended .normal, (W.step e i w).2) := by
  obtain ⟨out, w', hstep⟩ : ∃ out w', W.step e i w = (out, w') := ⟨_, _, rfl⟩
  rw [hstep] at h ⊢
  cases h
  change (W.step e i >>= _) w = _
  change (fun r : Option χ × σ => (match r.1 with
    | none => pure (.ended .normal)
    | some x => W.visit receive body e i x : StateM σ (Round β V)) r.2) (W.step e i w) = _
  rw [hstep]
  rfl

theorem round_some {x : χ} (h : (W.step e i w).1 = some x) :
    W.round receive body e i w = W.visit receive body e i x (W.step e i w).2 := by
  obtain ⟨out, w', hstep⟩ : ∃ out w', W.step e i w = (out, w') := ⟨_, _, rfl⟩
  rw [hstep] at h ⊢
  cases h
  change (fun r : Option χ × σ => (match r.1 with
    | none => pure (.ended .normal)
    | some x => W.visit receive body e i x : StateM σ (Round β V)) r.2) (W.step e i w) = _
  rw [hstep]

end Walk

variable {V σ ρ β χ : Type} {S : Setting V σ} {B : FunctionSpec} {n : Nat}
  {ctx : Ctx} {b c : Nat} {strict : Prop} {fs gs hs : List Callable} {s t u : State}
  {l : ScopeId} {frame : Lower.Frame} {addr : String → V} {W : Walk V σ ρ β χ} {r : Rounds}
  {value element : InstId}

/-- The blocks of a loop over elements are there. -/
structure RoundsOpen (ctx : Ctx) (b : Nat) (s t : State) (r : Rounds) : Prop where
  setup : r.setup = b ∨ s.blockCount ctx.func ≤ r.setup
  fresh : s.blockCount ctx.func ≤ r.next
  bounds : @LT.lt Nat _ r.setup r.next ∧ @LT.lt Nat _ r.next r.exit ∧
    @LT.lt Nat _ r.exit r.frame.entry ∧ @LT.lt Nat _ r.frame.entry r.frame.body ∧
    @LT.lt Nat _ r.frame.body r.ending ∧ @LT.lt Nat _ r.ending (t.blockCount ctx.func)
  next : t.len ctx.func r.next = 0
  ending : t.len ctx.func r.ending = 0

/-- The code of a protocol does what a walk says. `Start` holds when a round starts, and `L` is what the
registers hold in a round; code numbered `mid` or more leaves it. -/
structure WalkRuns (S : Setting V σ) (W : Walk V σ ρ β χ) (ctx : Ctx) (r : Rounds)
    (value element : InstId) (s t u : State) (addr : String → V) (A : Activation V) (F : Code.Function)
    (Start : ρ → β → Point V σ → Prop) (L : Context ((ρ × β) × χ) V) (mid : Nat) : Prop where
  setup : ∀ v prev regs w, (register value).holds v (t.instCount ctx.func) regs →
    Cells addr ctx s regs →
    ∃ q, Reaches S.toWorld A F 0 (.running ⟨r.setup, t.len ctx.func r.setup, prev, regs, w⟩) (.running q) ∧
      q.world = (W.start v w).2 ∧ Agree (t.instCount ctx.func) regs q.regs ∧
      Start (W.start v w).1.1 (W.start v w).1.2 q
  step : ∀ e i p, Start e i p → Cells addr ctx s p.regs →
    ∃ prev regs, Agree (t.instCount ctx.func) p.regs regs ∧ Reaches S.toWorld A F 1 (.running p) (.running
        ⟨if (W.step e i p.world).1.isSome then r.frame.entry else r.exit, 0, prev, regs,
          (W.step e i p.world).2⟩) ∧
      ∀ x, (W.step e i p.world).1 = some x → L.holds ((e, i), x) mid regs
  item : ∀ e i x prev regs w, L.holds ((e, i), x) mid regs → Cells addr ctx s regs →
    ∃ prev' regs', Agree mid regs regs' ∧ Reaches S.toWorld A F 0
        (.running ⟨r.frame.body, t.len ctx.func r.frame.body, prev, regs, w⟩)
        (.running ⟨r.frame.body, u.len ctx.func r.frame.body, prev', regs', (W.item e i x w).2⟩) ∧
      (register element).holds (W.item e i x w).1 (u.instCount ctx.func) regs'
  again : ∀ e i x prev regs w, L.holds ((e, i), x) mid regs → Cells addr ctx s regs →
    ∃ q, Reaches S.toWorld A F 0 (.running ⟨r.ending, 0, prev, regs, w⟩) (.running q) ∧
      q.world = (W.again e i w).2 ∧ Agree mid regs q.regs ∧ Start e (W.again e i w).1 q

/-- Between two states a protocol is lowered, whose code gets the elements of a walk. -/
structure Walks (S : Setting V σ) (B : FunctionSpec) (n : Nat) (ctx : Ctx)
    (b : Nat) (strict : Prop) (fs : List Callable) (W : Walk V σ ρ β χ) (r : Rounds)
    (value element : InstId) (s t u : State) : Prop where
  since : Since S.firstId n B ctx b (¬strict) fs s u
  scopes : u.scopes = t.scopes
  keeps : ∀ ex, t.Keeps ctx.func ex u
  blockCount : t.blockCount ctx.func ≤ u.blockCount ctx.func
  len : ∀ d < t.blockCount ctx.func, d ∉ [r.setup, r.next, r.frame.body, r.ending] →
    u.len ctx.func d = t.len ctx.func d
  runs : strict → ∀ addr, Plain S addr → ∃ names Start L mid, t.instCount ctx.func ≤ mid ∧
    mid ≤ u.instCount ctx.func ∧ ∀ A F, Inside S ctx.func t u names A F →
      WalkRuns S W ctx r value element s t u addr A F Start L mid

/-- A protocol gets the elements of a walk, wherever the blocks of a loop are open. -/
def ProtocolDoes (S : Setting V σ) (B : FunctionSpec) (strict : Prop)
    (protocol : Protocol) (W : Walk V σ ρ β χ) : Prop :=
  ∀ {n ctx b fs s t u r value element}, Since S.firstId n B ctx b (¬strict) fs s t →
    RoundsOpen ctx b s t r → protocol ctx r value t = .ok element u →
    Walks S B n ctx b strict fs W r value element s t u

/-- Code is kept when an instruction after it is replaced. -/
theorem Keeps.replace {f v : Nat} {ex : Nat → Prop} (h : s.Keeps f ex t) (hv : s.instCount f ≤ v) (i : Inst) :
    s.Keeps f ex (t.replace f v i) where
  insts w hw hex := by
    have hne : w ≠ v := by omega
    rw [State.inst?_replace, if_neg fun h => hne h.2]
    exact h.insts w hw hex
  instCount := by
    rw [State.instCount_replace]
    exact h.instCount
  block b ids hids := by
    rw [State.block?_replace]
    exact h.block b ids hids

/-! ## Keys -/

/-- The walk over the keys of an object. -/
def keysWalk (S : Scene V σ) : Walk V σ (V × V) V Unit where
  start v := do
    let (keys, length, origin) ← startKeys S v
    return ((keys, length), origin)
  step e index := do
    let more ← S.decide (← S.perform (.binary .less index e.2))
    return if more then some () else none
  item e index _ := S.perform (.getItem e.1 index)
  again _ index := do S.perform (.binary .add index (← S.number 1))

theorem keysStart_does (v : InstId) : Does S B ctx b n (.register v) [] (keysStart ctx b v) (fun _ => b)
      (fun k => ((register k.1).push (.register k.2.1)).push (.register k.2.2))
      (keysWalk S.toScene).start [] := by
  simp only [keysWalk, startKeys, bind_assoc, pure_bind]
  refine .bind (loadGlobal_does "Object") fun object => .bind (getNamed_does (.last _ _) "keys")
    fun method => .bind (callWith_does (.last _ _) ((Gives.last _ _).old _) ?_) fun keys =>
    .bind (emitNumber_does 0) fun origin =>
    .bind (getNamed_does ((Gives.last _ _).old _) "length") fun length => .pure rfl ?_
  · exact fun p m regs h => .cons h.2.2 .nil
  · exact fun p m regs h => ⟨h.2.1, h.1, h.2.2.1⟩

theorem keysAgain_does {ι : Type} {K : Context ι V} {index : InstId} {i : ι → V}
    (hi : K.Gives (.register index) i) :
    Does S B ctx b n K [] (keysAgain ctx b index) (fun _ => b) register
      (fun j => do S.perform (.binary .add (i j) (← S.number 1))) [] := by
  refine .like (fun j => pure () >>= fun _ => S.number 1 >>= fun one =>
      S.perform (.binary .add (i j) one)) (fun _ _ _ _ => rfl) (.bind (popScopes_does 1) fun _ =>
    .bind (emitNumber_does 1) fun _ => .act fun _ _ _ h _ _ _ => ?_)
  simp [effect?, h.1.2, (hi _ _ _ h.2.2).2, Code.BinaryOp.operator]

/-- What a context says about the registers below `m`. -/
def Context.before {ι : Type} (K : Context ι V) (m : InstId) : Context ι V where
  holds i n regs := m ≤ n ∧ K.holds i m regs
  mono h hle hregs := ⟨Nat.le_trans h.1 hle,
    K.mono h.2 (Nat.le_refl _) fun v hv => hregs v (Nat.lt_of_lt_of_le hv h.1)⟩

/-- A round over keys starts: the list of keys and its length are there, and so is the index that belongs
to the block that control came from. -/
def KeysStart (next keys length : InstId) (incoming : List (BlockId × InstId)) (m : Nat) (e : V × V)
    (i : V) (p : Point V σ) : Prop :=
  ∃ prev regs w, p = ⟨next, 0, prev, regs, w⟩ ∧
    ((register keys).push (.register length)).holds e m regs ∧
    ∃ x, incoming? prev incoming = some x ∧ regs x = some i

/-- What a round over keys has: the list of keys, its length and, in register `m`, the index. -/
def keysRegisters (keys length m : InstId) : Context ((V × V) × V) V :=
  (((register keys).push (.register length)).before m).push (.register m)

/-- The phi at the start of a round takes the index. -/
theorem KeysStart.phi {W : World V σ} {A : Activation V} {F : Code.Function} {next keys length m : InstId}
    {incoming : List (BlockId × InstId)} {e : V × V} {i : V} {p : Point V σ}
    (h : KeysStart next keys length incoming m e i p)
    (hphi : fetch? F next 0 = some (m, .phi incoming)) :
    ∃ prev regs, Reaches W A F 1 (.running p) (.running ⟨next, 1, prev, regs, p.world⟩) ∧
      Agree m p.regs regs ∧ (keysRegisters keys length m).holds (e, i) (m + 1) regs := by
  obtain ⟨prev, regs, w, rfl, he, x, hx, hi⟩ := h
  have hset : Agree m regs (regs.set m i) := fun v hv => Registers.set_other _ _ (Nat.ne_of_lt hv)
  exact ⟨prev, _, .phi hphi hx hi w, hset, ⟨Nat.lt_succ_self _, Registers.set_same _ _ _⟩,
    Nat.le_succ _, mono _ he le_rfl hset⟩

theorem keysTest_does (keys length m : InstId) :
    Does S B ctx b n (keysRegisters keys length m) [] (emit ctx b (.binary .lt m length)) (fun _ => b)
      register (fun p => S.perform (.binary .less p.2 p.1.2)) [] :=
  .act fun _ _ _ h _ _ _ => by simp [effect?, h.1.2, h.2.2.1.2, Code.BinaryOp.operator]

theorem keysItem_does (keys length m : InstId) :
    Does S B ctx b n (keysRegisters keys length m) [] (emit ctx b (.getItem keys m)) (fun _ => b)
      register (fun p => S.perform (.getItem p.1.1 p.2)) [] :=
  .act fun _ _ _ h _ _ _ => by simp [effect?, h.1.2, h.2.2.2.2]

theorem isSome_keysStep (S : Scene V σ) (e : V × V) (i : V) (w : σ) :
    ((keysWalk S).step e i w).1.isSome =
      (S.test (S.perform (.binary .less i e.2) w).1 (S.perform (.binary .less i e.2) w).2).1 := by
  have h : ∀ more : Bool, (if more then some () else none).isSome = more := by decide
  exact h _

theorem keysProtocol_walks : ProtocolDoes S B strict keysProtocol (keysWalk S.toScene) := by
  intro n ctx b fs s t u r value element hs hopen hrun
  have hscopes := Plain.keysProtocol.scopes_eq hrun
  obtain ⟨⟨keys, length, origin⟩, t1, h1, hrun⟩ := run_bind hrun
  simp only [run_bind_iff] at hrun
  obtain ⟨_, t2, h2, index, t3, h3, more, t4, h4, _, t5, h5, item, t6, h6, bumped, t7,
    h7, _, t8, h8, _, t9, h9, hrun⟩ := hrun
  cases hrun
  rw [patch_eq] at h9
  cases h9
  have := hopen.bounds; have := hopen.fresh
  obtain ⟨p1, g1, _, _⟩ := (keysStart_does (B := B) value).follows hs h1 hopen.setup (by omega)
  obtain ⟨g2, a2, _⟩ := g1.perform h2 hopen.setup (by omega)
  obtain ⟨g3, hindex, a3, _⟩ := g2.emit h3 (.inr hopen.fresh) (by omega)
  obtain ⟨p4, g4, _, _⟩ := (keysTest_does (B := B) keys length index).follows g3 h4
    (.inr hopen.fresh) (by omega)
  obtain ⟨g5, a5, _⟩ := g4.perform h5 (.inr hopen.fresh) (by omega)
  obtain ⟨p6, g6, _, _⟩ := (keysItem_does (B := B) keys length index).follows g5 h6
  obtain ⟨p7, g7, _, _⟩ := (keysAgain_does (B := B)
    (Gives.last (((register keys).push (.register length)).before index) (.register index))).follows g6 h7
  obtain ⟨g8, a8, _⟩ := g7.perform h8
  have := hs.grows.instCount
  have hcount := State.blockCount_replace t8 ctx.func index
    (.phi [(r.setup, origin), (r.ending, bumped)]) ctx.func
  have hcount' := State.instCount_replace t8 ctx.func index
    (.phi [(r.setup, origin), (r.ending, bumped)]) ctx.func
  have k5 : ∀ ex, t5.Keeps ctx.func ex t8 := fun _ =>
    (p6.keeps.keepsCode.trans p7.keeps.keepsCode).trans a8.keeps
  have k3 : ∀ ex, t3.Keeps ctx.func ex t8 := fun ex =>
    (p4.keeps.keepsCode.trans a5.keeps).trans (k5 ex)
  have k8 : t8.Keeps ctx.func (· = index) _ :=
    State.keeps_replace t8 ctx.func (.phi [(r.setup, origin), (r.ending, bumped)]) rfl
  refine ⟨⟨hs.start, g8.grows.replace (by omega) _ hs.start.func⟩, hscopes, fun ex => ?_, by omega,
    fun d hd hnot => ?_, fun hstrict addr hp => ?_⟩
  · exact Keeps.replace (((p1.keeps.keepsCode.trans a2.keeps).trans a3.keeps).trans (k3 ex)) (by omega) _
  · simp only [List.mem_cons, List.not_mem_nil, or_false, not_or] at hnot
    rw [State.len_replace, a8.len_ne d, p7.keeps.len, p6.keeps.len, a5.len_ne d, p4.keeps.len,
      a3.len_ne d, a2.len_ne d, p1.keeps.len]
  obtain ⟨names1, hruns1⟩ := p1.jump g1.func a2 (announced_nil _ _) hp
  obtain ⟨names4, hruns4⟩ := p4.branch g4.func a5 hp
  obtain ⟨names6, hruns6⟩ := p6.plain (announced_nil _ _) hp
  obtain ⟨names7, hruns7⟩ := p7.jump g7.func a8 (announced_nil _ _) hp
  refine ⟨joinAt (t2.instCount ctx.func) names1 (joinAt (t5.instCount ctx.func) names4
    (joinAt (t6.instCount ctx.func) names6 names7)),
    KeysStart r.next keys length [(r.setup, origin), (r.ending, bumped)] index,
    (keysRegisters keys length index).push (.any Unit V), t5.instCount ctx.func, by omega, by omega,
    fun A F hin => ?_⟩
  have hin1 := hin.part names1 (a3.keeps.trans ((k3 _).trans k8)) (Nat.le_refl _)
    fun x hx => .inr (Nat.le_of_eq (hx.trans hindex).symm)
  have hin4 := hin.part (t := t3) names4 ((k5 _).trans k8)
  have hin6 := hin.part (t := t5) names6 ((p7.keeps.keepsCode.trans a8.keeps).trans k8)
  have hin7 := hin.part (t := t6) names7 k8
  have hold : t8.inst? ctx.func index = some (.phi []) := by
    rw [(k3 fun _ => False).insts index (by omega) id, a3.eq, hindex, State.inst?_push g2.func,
      if_pos ⟨rfl, rfl⟩]
  have hphi := hin.fetch_replaced g2.func (by omega) a3 ((k3 _).trans k8)
    (by rw [State.inst?_replace, if_pos ⟨rfl, hindex.symm⟩, hold]; rfl) (by omega)
  have hnext : t2.len ctx.func r.next = 0 := by
    rw [a2.len_ne _, p1.keeps.len, hopen.next]
  rw [hnext, ← hindex] at hphi
  refine ⟨fun v prev regs w hv hcells => ?_, fun e i p hstart hcells => ?_,
    fun e i x prev regs w hL hcells => ?_, fun e i x prev regs w hL hcells => ?_⟩
  · obtain ⟨regs', hreach, hregs, hk⟩ := hruns1 A F hin1 v prev regs w hv (hcells.since hs hstrict)
    have hle : t1.instCount ctx.func ≤ index := by omega
    exact ⟨_, hreach.mono, rfl, hregs, r.setup, regs', _, rfl,
      mono _ hk.2 hle fun _ _ => rfl, origin, incoming?_first _ _ _ _, hk.1.2⟩
  · obtain ⟨prev, regs, hreach, hregs, hK⟩ := hstart.phi (W := S.toWorld) (A := A) hphi
    have hlt : @LT.lt Nat _ index (t3.instCount ctx.func) := by omega
    have hlt' : @LT.lt Nat _ index (t5.instCount ctx.func) := by omega
    obtain ⟨regs', hreach', hregs'⟩ := hruns4 A F hin4 (e, i) prev regs p.world
      (mono _ hK hlt fun _ _ => rfl) ((hcells.agree hregs.mono).since g3 hstrict)
    rw [a3.len_same, hnext] at hreach'
    rw [isSome_keysStep]
    exact ⟨r.next, regs', hregs.mono.trans hregs'.mono le_rfl, (hreach.trans hreach').mono,
      fun x _ => ⟨trivial, mono _ hK hlt' hregs'.mono⟩⟩
  · obtain ⟨prev', regs', hreach, hregs, hx⟩ := hruns6 A F hin6 (e, i) prev regs w hL.2
      (hcells.since g5 hstrict)
    have hbody : t5.len ctx.func r.frame.body = t.len ctx.func r.frame.body := by
      rw [a5.len_ne _, p4.keeps.len, a3.len_ne _, a2.len_ne _, p1.keeps.len]
    have hbody' : (t8.replace ctx.func index (.phi [(r.setup, origin), (r.ending, bumped)])).len ctx.func
        r.frame.body = t6.len ctx.func r.frame.body := by
      rw [State.len_replace, a8.len_ne _, p7.keeps.len]
    rw [hbody, ← hbody'] at hreach
    have hle : t6.instCount ctx.func ≤ t8.instCount ctx.func := by omega
    exact ⟨prev', regs', hregs, hreach,
      mono _ hx (Nat.le_trans hle (Nat.le_of_eq hcount'.symm)) fun _ _ => rfl⟩
  · obtain ⟨regs', hreach, hregs, hx⟩ := hruns7 A F hin7 (e, i) prev regs w
      (mono _ hL.2 (by omega) fun _ _ => rfl) (hcells.since g6 hstrict)
    have hending : t6.len ctx.func r.ending = 0 := by
      rw [p6.keeps.len, a5.len_ne _, p4.keeps.len, a3.len_ne _, a2.len_ne _, p1.keeps.len, hopen.ending]
    rw [hending] at hreach
    have hne : r.setup ≠ r.ending := Nat.ne_of_lt (by omega)
    exact ⟨_, hreach.mono, rfl, hregs.mono, r.ending, regs', _, rfl,
      mono _ hL.2.2.2 (Nat.le_refl _) hregs.mono, bumped,
      incoming?_second hne _ _, hx.2⟩

/-! ## Items -/

/-- The walk over the items of an iterable. -/
def itemsWalk (S : Scene V σ) : Walk V σ V Unit V where
  start v := do return (← startItems S v, ())
  step iterator _ := do
    let (answer, done) ← nextItem S iterator
    return if done then none else some answer
  item _ _ answer := S.getNamed answer "value"
  again _ _ := return ()

theorem itemsStart_does (v : InstId) :
    Does S B ctx b n (.register v) [] (itemsStart ctx b v) (fun _ => b) register
      (startItems S.toScene) [] := by
  refine .bind (loadGlobal_does "Symbol") fun symbol => .bind (getNamed_does (.last _ _) "iterator")
    fun key => .bind (.act fun p m regs h A prev v => ?_) fun method =>
    callWith_does (.last _ _) (fun p m regs h => h.2.2.2) fun p m regs h => .nil
  simp [effect?, h.1.2, h.2.2.2]

def askIterator (S : Scene V σ) (iterator : V) : StateM σ (V × V) := do
  let method ← S.getNamed iterator "next"
  let answer ← S.callWith method iterator []
  let done ← S.getNamed answer "done"
  return (answer, done)

theorem itemsNext_does {ι : Type} {K : Context ι V} {iterator : InstId} {o : ι → V}
    (ho : K.Gives (.register iterator) o) :
    Does S B ctx b n K [] (itemsNext ctx b iterator) (fun _ => b)
      (fun a => (register a.1).push (.register a.2)) (fun i => askIterator S.toScene (o i)) [] := by
  refine .bind (getNamed_does ho "next") fun method =>
    .bind (callWith_does (.last _ _) (ho.old _) fun p m regs h => .nil) fun answer =>
    .bind (getNamed_does (.last _ _) "done") fun done => .pure rfl fun p m regs h => ?_
  exact ⟨h.1, h.2.1⟩

def ItemsStart (next iterator : InstId) (m : Nat) (e : V) (_ : Unit) (p : Point V σ) : Prop :=
  ∃ prev regs w, p = ⟨next, 0, prev, regs, w⟩ ∧ (register iterator).holds e m regs

theorem itemsProtocol_walks : ProtocolDoes S B strict itemsProtocol (itemsWalk S.toScene) := by
  intro n ctx b fs s t u r value element hs hopen hrun
  have hscopes := Plain.itemsProtocol.scopes_eq hrun
  simp only [itemsProtocol, run_bind_iff] at hrun
  obtain ⟨iterator, t1, h1, _, t2, h2, a, t3, h3, _, t4, h4, item, t5, h5, _, t6, h6, _, t7, h7,
    hrun⟩ := hrun
  cases hrun
  have := hopen.bounds; have := hopen.fresh; have := hs.grows.instCount
  obtain ⟨p1, g1, _, _⟩ := (itemsStart_does (B := B) value).follows hs h1 hopen.setup (by omega)
  obtain ⟨g2, a2, _⟩ := g1.perform h2 hopen.setup (by omega)
  have d3 : Does S B ctx r.next (n + fs.length) (.register iterator) [] (itemsNext ctx r.next iterator)
      (fun _ => r.next) (fun a => (register a.1).push (.register a.2))
      (fun e => askIterator S.toScene e) [] := itemsNext_does fun _ _ _ h => h
  obtain ⟨p3, g3, _, _⟩ := d3.follows g2 h3 (.inr hopen.fresh) (by omega)
  obtain ⟨g4, a4, _⟩ := g3.perform h4 (.inr hopen.fresh) (by omega)
  have d5 : Does S B ctx r.frame.body (n + fs.length) (.register a.1) []
      (getNamed ctx r.frame.body a.1 "value") (fun _ => r.frame.body) register
      (fun answer => S.getNamed answer "value") [] := getNamed_does (fun _ _ _ h => h) "value"
  obtain ⟨p5, g5, _, _⟩ := d5.follows g4 h5
  obtain ⟨p6, g6, _, _⟩ := (popScopes_does (B := B) (K := .any Unit V) 1).follows g5 h6
  obtain ⟨g7, a7, _⟩ := g6.perform h7
  have k5 : ∀ ex, t5.Keeps ctx.func ex u := fun _ => p6.keeps.keepsCode.trans a7.keeps
  have k4 : ∀ ex, t4.Keeps ctx.func ex u := fun ex => p5.keeps.keepsCode.trans (k5 ex)
  have k2 : ∀ ex, t2.Keeps ctx.func ex u := fun ex =>
    (p3.keeps.keepsCode.trans a4.keeps).trans (k4 ex)
  refine ⟨g7, hscopes, fun ex => (p1.keeps.keepsCode.trans a2.keeps).trans (k2 ex), by omega,
    fun d hd hnot => ?_, fun hstrict addr hp => ?_⟩
  · simp only [List.mem_cons, List.not_mem_nil, or_false, not_or] at hnot
    rw [a7.len_ne d, p6.keeps.len, p5.keeps.len, a4.len_ne d, p3.keeps.len, a2.len_ne d, p1.keeps.len]
  obtain ⟨names1, hruns1⟩ := p1.jump g1.func a2 (announced_nil _ _) hp
  obtain ⟨names3, hruns3⟩ := p3.plain (announced_nil _ _) hp
  obtain ⟨names5, hruns5⟩ := p5.plain (announced_nil _ _) hp
  obtain ⟨names6, hruns6⟩ := p6.jump g6.func a7 (announced_nil _ _) hp
  refine ⟨joinAt (t2.instCount ctx.func) names1 (joinAt (t4.instCount ctx.func) names3
    (joinAt (t5.instCount ctx.func) names5 names6)),
    ItemsStart r.next iterator (t2.instCount ctx.func),
    (((register iterator).before (t2.instCount ctx.func)).push (.any Unit V)).push
      (.register a.1), t4.instCount ctx.func, by omega, by omega, fun A F hin => ?_⟩
  have hin1 := hin.part names1 (k2 _) le_rfl
  have hin3 := hin.part (t := t2) (u := t3) names3 (a4.keeps.trans (k4 _))
  have hin5 := hin.part (t := t4) names5 (k5 _)
  have hin6 := hin.part (t := t5) names6 (.refl _ _ _)
  have hbranch := hin.fetch g3.func (by omega) a4 (k4 fun _ => False) id (by omega)
  have hnext : t2.len ctx.func r.next = 0 := by
    rw [a2.len_ne _, p1.keeps.len, hopen.next]
  refine ⟨fun v prev regs w hv hcells => ?_, fun e i p hstart hcells => ?_,
    fun e i x prev regs w hL hcells => ?_, fun e i x prev regs w hL hcells => ?_⟩
  · obtain ⟨regs', hreach, hregs, hk⟩ := hruns1 A F hin1 v prev regs w hv (hcells.since hs hstrict)
    have hle : t1.instCount ctx.func ≤ t2.instCount ctx.func := by omega
    exact ⟨_, hreach.mono, rfl, hregs, r.setup, regs', _, rfl, mono _ hk hle fun _ _ => rfl⟩
  · obtain ⟨prev, regs, w, rfl, he⟩ := hstart
    obtain ⟨prev', regs', hreach, hregs, ha⟩ := hruns3 A F hin3 e prev regs w he (hcells.since g2 hstrict)
    rw [hnext] at hreach
    replace hreach := (hreach.trans (Reaches.branch hbranch ha.1.2 prev' _)).mono le_rfl
    have hasked : ((itemsWalk S.toScene).step e i w).1 =
        if (S.test (askIterator S.toScene e w).1.2 (askIterator S.toScene e w).2).1 then none
        else some (askIterator S.toScene e w).1.1 := rfl
    have hworld : ((itemsWalk S.toScene).step e i w).2 =
        (S.test (askIterator S.toScene e w).1.2 (askIterator S.toScene e w).2).2 := rfl
    refine ⟨r.next, regs', hregs.mono, ?_, fun x hx => ?_⟩
    · dsimp only
      rw [hasked, hworld]
      by_cases hout : (S.test (askIterator S.toScene e w).1.2 (askIterator S.toScene e w).2).1
      · rw [if_pos hout] at hreach ⊢
        exact hreach
      · rw [if_neg hout] at hreach ⊢
        exact hreach
    · dsimp only at hx
      rw [hasked] at hx
      have hle : t3.instCount ctx.func ≤ t4.instCount ctx.func := by omega
      have hle' : t2.instCount ctx.func ≤ t4.instCount ctx.func := by omega
      split at hx
      · cases hx
      · cases hx
        exact ⟨mono _ ha.2 hle fun _ _ => rfl, trivial, hle',
          mono _ he le_rfl hregs⟩
  · obtain ⟨prev', regs', hreach, hregs, hx⟩ := hruns5 A F hin5 x prev regs w hL.1
      (hcells.since g4 hstrict)
    have hbody : t4.len ctx.func r.frame.body = t.len ctx.func r.frame.body := by
      rw [a4.len_ne _, p3.keeps.len, a2.len_ne _, p1.keeps.len]
    have hbody' : u.len ctx.func r.frame.body = t5.len ctx.func r.frame.body := by
      rw [a7.len_ne _, p6.keeps.len]
    rw [hbody, ← hbody'] at hreach
    have hle : t5.instCount ctx.func ≤ u.instCount ctx.func := by omega
    exact ⟨prev', regs', hregs, hreach, mono _ hx hle fun _ _ => rfl⟩
  · obtain ⟨regs', hreach, hregs, _⟩ := hruns6 A F hin6 () prev regs w trivial (hcells.since g5 hstrict)
    have hending : t5.len ctx.func r.ending = 0 := by
      rw [p5.keeps.len, a4.len_ne _, p3.keeps.len, a2.len_ne _, p1.keeps.len, hopen.ending]
    rw [hending] at hreach
    exact ⟨_, hreach.mono, rfl, hregs.mono, r.ending, regs', _, rfl,
      mono _ hL.2.2.2 le_rfl hregs.mono⟩

/-! ## Targets -/

def ElementDoes (S : Setting V σ) (B : FunctionSpec) (code : ElementCode)
    (ev : Nat → V → StateM σ Unit) (fs : List Callable) : Prop :=
  ∀ ctx b n s element c t, Ready S.firstId n ctx b s → code ctx b element s = .ok c t →
    Declares S B ctx b (.register element) s t c (ev n) fs

theorem assignElement_does {place : PlaceCode} {ev : Nat → StateM σ (Scene.Spot V)}
    (h : PlaceDoes S B place ev fs) :
    ElementDoes S B (assignElement place) (fun n v => do S.write v (← ev n)) fs := by
  intro ctx b n s element c t hready hrun
  have hdoes : Does S B ctx b n (.register element) [] (assignElement place ctx b element) id
      (fun _ => .any Unit V) (fun v => do S.write v (← ev n)) fs :=
    .bindLast ((h ctx b n).lift (g := fun _ => ()) fun _ _ _ _ => trivial) fun r =>
      .result (writePlace_does (.last _ _) fun _ _ _ h => h.2) (fun _ => rfl) fun _ _ _ _ h => h
  exact .of_piece hready (hdoes s c t hready hrun)

theorem declareElement_does (d : Tree.Declaration) (binders : List Binder)
    {ev : Nat → V → StateM σ Unit}
    (h : ∀ binder, binders = [binder] → BindDoes S B binder.bind d.boundNames ev fs) :
    ElementDoes S B (declareElement d binders) ev fs := by
  intro ctx b n s element c t hready hrun
  obtain ⟨_, s1, h1, hrun⟩ := run_bind hrun
  rcases binders with _ | ⟨binder, _ | ⟨_, _⟩⟩
  · cases hrun
  · obtain ⟨_, s2, h2, h3⟩ := run_bind hrun
    unfold checkBlockWide at h1
    split at h1 <;> cases h1
    obtain ⟨o2, hann⟩ := announce_opens (B := B) hready h2
    have r2 := hready.grown o2.grows (Nat.lt_of_lt_of_le hready.block o2.grows.blockCount)
    exact .of_opening hready o2 hann (h binder rfl ctx b n element d.isConstant s2 c t r2 h3)
  · cases hrun

/-! ## The whole loop -/

/-- What a round of a loop over elements does once there is a further element: its frame is entered, the
element is received and the body runs, and a body that is left comes to block `broken`. -/
structure VisitRuns (S : Setting V σ) (ctx : Ctx) (r : Rounds) (element : InstId) (broken : BlockId)
    (s u v : State) (addr : String → V) (A : Activation V) (F : Code.Function) (fuel : Nat)
    (receive : V → StateM σ Unit) (body : StateM σ (Outcome V)) : Prop where
  enter : EntersRound S addr ctx s v r.frame A F
  visit : ∀ x prev regs w, (Context.register element).holds x (u.instCount ctx.func) regs →
    Ends S.toWorld A F fuel ⟨r.ending, 0, some broken, some r.ending⟩ (u.instCount ctx.func)
      ⟨r.frame.body, u.len ctx.func r.frame.body, prev, regs, w⟩ ((do receive x; body) w)
  leave : ∀ prev regs w, Cells addr ctx s regs →
    Arrives S.toWorld A F (s.instCount ctx.func) ⟨broken, 0, prev, regs, w⟩ r.exit 0 w

/-- A walk and what is done in its rounds make up the loop. -/
theorem WalkRuns.loop {A : Activation V} {F : Code.Function} {Start : ρ → β → Point V σ → Prop}
    {L : Context ((ρ × β) × χ) V} {mid fuel : Nat} {broken : BlockId} {v : State}
    {receive : V → StateM σ Unit} {body : StateM σ (Outcome V)} {onBreak onContinue : Option BlockId}
    (R : WalkRuns S W ctx r value element s t u addr A F Start L mid)
    (Q : VisitRuns S ctx r element broken s u v addr A F fuel receive body)
    (hst : s.instCount ctx.func ≤ t.instCount ctx.func) (hmid : t.instCount ctx.func ≤ mid)
    (hmid' : mid ≤ u.instCount ctx.func) (huv : u.instCount ctx.func ≤ v.instCount ctx.func)
    (hbody : t.len ctx.func r.frame.body = 1) {x : V} {prev : BlockId} {regs : Registers V} {w : σ}
    (hx : (Context.register value).holds x (t.instCount ctx.func) regs) (hcells : Cells addr ctx s regs) :
    Ends S.toWorld A F fuel ⟨r.exit, 0, onBreak, onContinue⟩ (s.instCount ctx.func)
      ⟨r.setup, t.len ctx.func r.setup, prev, regs, w⟩
      ((do let (e, first) ← W.start x; rounds (W.round receive body e) fuel first) w) := by
  obtain ⟨q, hreach, hworld, hregs, hstart⟩ := R.setup _ prev regs w hx hcells
  refine Ends.after hreach hregs.mono le_rfl ?_
  change Ends _ _ _ _ _ _ _ (rounds _ fuel _ (W.start x w).2)
  rw [← hworld]
  refine rounds_ends (fun j p => Start (W.start x w).1.1 j p ∧ Cells addr ctx s p.regs)
    (fun j p hat => ?_) le_rfl ⟨hstart, hcells.agree hregs.mono⟩
  obtain ⟨hstart, hcells⟩ := hat
  generalize (W.start x w).1.1 = e at hstart ⊢
  obtain ⟨prev3, regs3, hregs3, hreach3, hL⟩ := R.step e j p hstart hcells
  replace hregs3 : Agree (s.instCount ctx.func) p.regs regs3 := hregs3.mono
  have hcells3 := hcells.agree hregs3
  cases hstep : (W.step e j p.world).1 with
  | none =>
    rw [hstep] at hreach3
    rw [Walk.round_none hstep]
    exact ⟨prev3, regs3, hreach3.mono, hregs3⟩
  | some y =>
    rw [hstep] at hreach3
    rw [Walk.round_some hstep]
    refine RoundEnds.step hreach3 hregs3 ?_
    generalize (W.step e j p.world).2 = w3
    obtain ⟨regs4, hreach4, hregs4⟩ := Q.enter prev3 regs3 w3 hcells3
    have hcells4 := hcells3.agree hregs4.mono
    have hL4 := L.mono (hL y hstep) le_rfl hregs4.mono
    obtain ⟨prev5, regs5, hregs5, hreach5, hitem⟩ := R.item e j y r.frame.entry regs4 w3 hL4 hcells4
    rw [hbody] at hreach5
    have hcells5 := hcells4.agree hregs5.mono
    refine RoundEnds.after (hreach4.andThen hreach5) (hregs4.mono.trans hregs5.mono) ?_
    -- Control comes to the end of the round, or the loop is left.
    refine RoundEnds.afterBody (Q.visit _ prev5 regs5 _ hitem) (by omega) (fun prev' regs' _ hregs' => ?_)
      fun prev' regs' hregs' => ?_
    · exact Q.leave prev' regs' _ (hcells5.agree hregs'.mono)
    · have hcells' := hcells5.agree hregs'.mono
      obtain ⟨q', hreach', hworld', hregs'', hstart'⟩ := R.again e j y prev' regs' _
        (L.mono (L.mono hL4 le_rfl hregs5) le_rfl hregs'.mono) hcells'
      have hregs'' : Agree (s.instCount ctx.func) regs' q'.regs := hregs''.mono
      exact ⟨q', hreach', hregs'', hworld', hstart', hcells'.agree hregs''⟩

theorem forEachCode_eq (protocol : Protocol) (value : ExprCode) (target : ElementCode)
    (body : StmtCode) (loc : Option Location) (ctx : Ctx) (block : BlockId) :
    forEachCode protocol value target body false loc ctx block = (do
      let v ← value ctx block
      let next ← newBlock ctx
      let exit ← newBlock ctx
      let broken ← newBlock ctx
      let o ← openRound ctx fun scope ending => setTargets scope broken ending
      let element ← protocol ctx { setup := v.block, next, exit, frame := o.1, ending := o.2 } v.value
      let round ← target (ctx.withScope o.1.scope) o.1.body element
      let last ← body (ctx.withScope o.1.scope) round
      perform ctx last (.jump o.2)
      popScopes ctx broken 1
      perform ctx broken (.jump exit)
      closeFrame ctx o.1
      return exit) := by
  simp only [forEachCode, openRound, openFrame, bind_assoc, pure_bind, Bool.false_eq_true, if_false]

theorem forEachCode_does {protocol : Protocol} {value : ExprCode} {target : ElementCode}
    {body : StmtCode} (isAwait : Bool) (loc : Option Location) {evv : Nat → StateM σ V}
    {evt : Nat → V → StateM σ Unit} {evb : Nat → Nat → StateM σ (Outcome V)}
    (hw : ProtocolDoes S B strict protocol W) (hv : ExprDoes S B value evv fs)
    (ht : ElementDoes S B target evt gs) (hb : StmtDoes S B strict [] body evb hs) :
    StmtDoes S B strict [] (forEachCode protocol value target body isAwait loc)
      (fun fuel n => W.loop (evv n) (evt (n + fs.length)) (evb fuel (n + fs.length + gs.length)) fuel)
      (fs ++ (gs ++ hs)) := by
  refine .of_flow fun ctx b n s exit u hready hrun => ?_
  cases isAwait with
  | true => cases hrun
  | false =>
  simp only [forEachCode_eq, run_bind_iff] at hrun
  obtain ⟨v, s1, h1, next, s2, h2, _, s3, h3, broken, s4, h4, hrun⟩ := hrun
  obtain ⟨⟨frame, ending⟩, s8, h8, element, s9, h9, round, s10, h10, last, s11, h11, hrun⟩ := hrun
  obtain ⟨_, s12, h12, _, s13, h13, _, s14, h14, _, s15, h15, hrun⟩ := hrun
  cases hrun
  have p1 := hv ctx b n s v s1 hready h1
  have g1 : Since S.firstId n B ctx b (¬strict) fs s s1 := ⟨hready, p1.keeps.weaken False.elim⟩
  have := hready.block; have := p1.keeps.blockCount; have := p1.keeps.instCount
  have hblock : @LT.lt Nat _ v.block (s1.blockCount ctx.func) := p1.lt
  obtain ⟨g2, a2, _⟩ := g1.newBlock h2
  obtain ⟨g3, a3, _⟩ := g2.newBlock h3
  obtain ⟨g4, a4, _⟩ := g3.newBlock h4
  have o8 := openRound_opens g4 (fun hl _ hrun => .of_setTargets hl hrun) h8
  have := o8.blocks; have := o8.insts
  dsimp only at *
  have hopen : RoundsOpen ctx b s s8 ⟨v.block, next, exit, frame, ending⟩ := by
    refine ⟨p1.next, by dsimp only; omega, by dsimp only; omega, ?_, o8.len_ending⟩
    rw [o8.len _ (by dsimp only; omega), a4.len, a3.len, a2.len_new]
  have w9 := hw o8.since hopen h9
  have := w9.blockCount; have := (w9.keeps fun _ => False).instCount
  have hn9 := o8.nested.same w9.scopes
  have e10 := ht (ctx.withScope frame.scope) frame.body _ s9 element round s10 (w9.since.readyIn hn9) h10
  have g10 := w9.since.inner hn9 e10.grows
  have hn10 := hn9.grown e10.grows.scopes
  have := e10.bounds
  have f11 := hb.flow (g10.readyIn hn10) h11
  have g11 := g10.inner hn10 f11.grows
  have := f11.bounds
  obtain ⟨g12, a12, _⟩ := g11.perform h12
  obtain ⟨p13, g13, _, _⟩ := (popScopes_does (B := B) (K := .any Unit V) 1).follows g12 h13
  obtain ⟨g14, a14, _⟩ := g13.perform h14
  obtain ⟨g15, c15⟩ := closeFrame_closes g14 h15
  have := c15.blockCount; have := c15.keeps.instCount
  have g : Since S.firstId n B ctx b (¬strict) (fs ++ (gs ++ hs)) s u := by
    simpa only [List.append_assoc] using g15
  have k12 : s12.Keeps ctx.func (· = frame.push) u :=
    (p13.keeps.keepsCode.trans a14.keeps).trans c15.keeps
  have k10 : s10.Keeps ctx.func (· = frame.push) u := (f11.grows.keepsCode.trans a12.keeps).trans k12
  have k9 : s9.Keeps ctx.func (· = frame.push) u := e10.grows.keepsCode.trans k10
  have k8 : s8.Keeps ctx.func (· = frame.push) u := (w9.keeps _).trans k9
  have k1 : s1.Keeps ctx.func (· = frame.push) u :=
    (a2.keeps.trans a3.keeps).trans (a4.keeps.trans ((o8.keeps _).trans k8))
  -- The blocks of the loop that only its own instructions fill.
  have hlen12 : ∀ d < s8.blockCount ctx.func, d ∉ [v.block, next, frame.body, ending] →
      s12.len ctx.func d = s8.len ctx.func d := fun d hd hnot => by
    have hsame := w9.len d hd hnot
    simp only [List.mem_cons, List.not_mem_nil, or_false, not_or] at hnot
    rw [a12.len_ne d, f11.grows.len_inner d, e10.grows.len_inner d, hsame]
  have hlen14 : ∀ d < s8.blockCount ctx.func, d ∉ [v.block, next, frame.body, ending] → d ≠ broken →
      s14.len ctx.func d = s8.len ctx.func d := fun d hd hnot hne => by
    rw [a14.len_other d hne, p13.keeps.len (by omega) hne, hlen12 d hd hnot]
  have hentry : s14.len ctx.func frame.entry = 0 := by
    rw [hlen14 _ (by omega) (by simp; omega) (by omega), o8.len_entry]
  have hexit : u.len ctx.func exit = 0 := by
    rw [c15.len_other _ (by omega) (by omega), hlen14 _ (by omega) (by simp; omega) (by omega),
      o8.len _ (by omega), a4.len, a3.len_new]
  have hbroken : s12.len ctx.func broken = 0 := by
    rw [hlen12 _ (by omega) (by simp; omega), o8.len _ (by omega), a4.len_new]
  have hsetup : s8.len ctx.func v.block = s1.len ctx.func v.block := by
    rw [o8.len _ (by omega), a4.len, a3.len, a2.len]
  refine ⟨g.grows, .inr (by omega), by omega, fun hstrict addr hp => ?_⟩
  obtain ⟨names1, hruns1⟩ := p1.plain (announced_nil _ _) hp
  obtain ⟨names9, Start, L, mid, hmid, hmid', hruns9⟩ := w9.runs hstrict addr hp
  obtain ⟨names10, hruns10⟩ := e10.runs addr hp
  obtain ⟨names11, hruns11⟩ := f11.jump g11.func a12 hstrict addr hp
  obtain ⟨names13, hruns13⟩ := p13.jump g13.func a14 (announced_nil _ _) hp
  obtain ⟨names15, henters⟩ := o8.enters g14 c15 k8 (by omega) hentry hstrict hp
  refine ⟨joinAt (s1.instCount ctx.func) names1 (joinAt (s9.instCount ctx.func) names9
    (joinAt (s10.instCount ctx.func) names10 (joinAt (s12.instCount ctx.func) names11
    (joinAt (s14.instCount ctx.func) names13 names15)))),
    fun A F hin fuel prev regs w hcells => ?_⟩
  have hin1 := hin.part names1 k1 le_rfl
  have hin9 := hin.part (t := s8) names9 k9
  have hin10 := hin.part (t := s9) names10 k10
  have hin11 := hin.part (t := s10) names11 k12
  have hin13 := hin.part (t := s12) names13 c15.keeps
  have hin15 := hin.part (t := s14) names15 (.refl _ (fun _ => False) _)
  have hnone9 : ∀ x, (s9.scopes.get frame.scope).own? x = none := w9.scopes ▸ o8.none
  have Q : VisitRuns S ctx ⟨v.block, next, exit, frame, ending⟩ element broken s s9 s14 addr A F fuel
      (evt (n + fs.length)) (evb fuel (n + fs.length + gs.length)) := by
    refine ⟨henters _ A F hin15 hin, fun x prev regs w hx => ?_, fun prev regs w hcells => ?_⟩
    · obtain ⟨prev', regs', hreach, hregs, hcells'⟩ := hruns10 A F hin10 x prev regs w hx
        (cells_of_none hnone9)
      have hends := hruns11 A F hin11 fuel prev' regs' (evt (n + fs.length) x w).2 hcells'
      dsimp only [Ctx.withScope] at hreach hregs hends
      rw [hn10.breakTo, hn10.continueTo, List.length_append, ← Nat.add_assoc] at hends
      exact Ends.after hreach hregs (by omega) hends
    · obtain ⟨regs', hreach, hregs, _⟩ := hruns13 A F hin13 () prev regs w trivial
        (hcells.since g12 hstrict)
      rw [hbroken] at hreach
      exact ⟨_, regs', hreach.mono, hregs.mono⟩
  obtain ⟨prev1, regs1, hreach1, hregs1, hval⟩ := hruns1 A F hin1 () prev regs w trivial hcells
  have hle : s1.instCount ctx.func ≤ s8.instCount ctx.func := by omega
  refine Ends.after hreach1 hregs1 le_rfl ?_
  rw [hexit, ← hsetup]
  exact (hruns9 A F hin9).loop Q (by omega) hmid hmid' (by omega) o8.len_body
    (Context.mono _ hval hle fun _ _ => rfl) (hcells.agree hregs1)

end ScriptIr.Run
