import ScriptIr.Proofs.Uniform.Plain
import ScriptIr.Proofs.Semantics.Flow

/-!
# Code that makes slots

Some code makes slots and declares names in its own scope: the names that a list announces, the
arguments of a function, and the copies of the variables of a loop.

* `Opening.enter`: a slot is made, and a name enters the scope with it.
* `announceNames_opens`, `declareArguments_opens`, `declareRest_opens`, `copyAllIn_opens`: such code.
-/
namespace ScriptIr.Run

open Code Context Lower

variable {x : String} {slot : InstId} {names : List String} {value : Emit InstId}

/-- The code lowered between two states at the end of a block does what `ev` says and leaves its
value as `L` says. It may make slots of names in its scope. -/
structure Opening {V σ β : Type} (S : Setting V σ) (B : FunctionSpec)
    (ctx : Ctx) (b : Nat) (s t : State) (L : Context β V) (ev : StateM σ β) : Prop where
  grows : s.Grows B ctx.func ctx.scope True b [] t
  runs : ∀ addr, Plain S addr → ∃ names, ∀ A F, Inside S ctx.func s t names A F →
    ∀ prev regs w, Cells addr ctx s regs →
      ∃ prev' regs',
        Reaches S.toWorld A F 0 (.running ⟨b, s.len ctx.func b, prev, regs, w⟩)
          (.running ⟨b, t.len ctx.func b, prev', regs', (ev w).2⟩) ∧
        Agree (s.instCount ctx.func) regs regs' ∧ Cells addr ctx t regs' ∧
        L.holds (ev w).1 (t.instCount ctx.func) regs'

variable {V σ : Type} {S : Setting V σ} {B : FunctionSpec} {ι β γ : Type}
  {ctx : Ctx} {b : Nat} {n : Nat} {K : Context ι V} {L : Context β V} {M : Context γ V}
  {s t u : State}

namespace Opening

variable {ev' : StateM σ γ}

theorem andThen {ev : StateM σ β} (hready : Ready S.firstId n ctx b s) (h : Opening S B ctx b s t L ev)
    (h' : Opening S B ctx b t u M ev') :
    Opening S B ctx b s u (L.push M) (do
      let x ← ev
      let y ← ev'
      return (x, y)) := by
  refine ⟨h.grows.after h'.grows hready.func hready.scope (.inl rfl) id, fun addr hp => ?_⟩
  obtain ⟨names, hruns⟩ := h.runs addr hp
  obtain ⟨names', hruns'⟩ := h'.runs addr hp
  refine ⟨joinAt (t.instCount ctx.func) names names', fun A F hin prev regs w hcells => ?_⟩
  obtain ⟨prev1, regs1, hreach, hregs, hcells1, hL⟩ :=
    hruns A F (hin.part _ h'.grows.keepsCode) prev regs w hcells
  obtain ⟨prev2, regs2, hreach', hregs', hcells2, hM⟩ :=
    hruns' A F (hin.part _ (.refl _ _ _) h.grows.instCount) prev1 regs1 (ev w).2 hcells1
  exact ⟨prev2, regs2, hreach.andThen hreach', hregs.trans hregs' h.grows.instCount, hcells2, hM,
    L.mono hL h'.grows.instCount hregs'⟩

theorem imp {ev : StateM σ β} (h : Opening S B ctx b s t L ev)
    (himp : ∀ addr, Plain S addr → ∀ w, (ev' w).2 = (ev w).2 ∧ ∀ m regs, L.holds (ev w).1 m regs →
      M.holds (ev' w).1 m regs) :
    Opening S B ctx b s t M ev' := by
  refine ⟨h.grows, fun addr hp => ?_⟩
  obtain ⟨names, hruns⟩ := h.runs addr hp
  refine ⟨names, fun A F hin prev regs w hcells => ?_⟩
  obtain ⟨prev', regs', hreach, hregs, hcells', hL⟩ := hruns A F hin prev regs w hcells
  obtain ⟨hworld, hM⟩ := himp addr hp w
  rw [hworld]
  exact ⟨prev', regs', hreach, hregs, hcells', hM _ _ hL⟩

theorem forget {ev : StateM σ β} {ev' : StateM σ Unit} (h : Opening S B ctx b s t L ev)
    (hev : ∀ addr, Plain S addr → (do let _ ← ev) = ev') :
    Opening S B ctx b s t (.any Unit V) ev' :=
  h.imp fun addr hp w => ⟨by rw [← hev addr hp]; rfl, fun _ _ _ => trivial⟩

theorem enter {ev : StateM σ β} (hready : Ready S.firstId n ctx b s)
    (h : Piece S B ctx b (.any Unit V) [] s u b L (fun _ => ev) [])
    (hslot : ∀ w m regs, L.holds (ev w).1 m regs → (register slot).holds (S.place x .alloca)
      m regs)
    (he : Entered ctx.scope x slot u t) : Opening S B ctx b s t L ev := by
  have hut := he.grown B ctx.func b
  have hgrows := h.keeps.weaken (fun hf => (False.elim hf : True)) |>.after hut hready.func
    hready.scope (.inl rfl) id
  refine ⟨hgrows, fun addr hp => ?_⟩
  obtain ⟨names, hruns⟩ := h.plain (announced_nil _ _) hp
  refine ⟨names, fun A F hin prev regs w hcells => ?_⟩
  obtain ⟨prev', regs', hreach, hregs, hL⟩ := hruns A F (hin.part _ hut.keepsCode) () prev regs w
    trivial hcells
  have hlen : t.len ctx.func b = u.len ctx.func b := by
    unfold State.len State.block? State.fn?
    rw [he.module]
  have hcells' := hcells.grown h.keeps id hready.scope hregs
  obtain ⟨hlt, hreg⟩ := hslot _ _ _ hL
  rw [hlen]
  refine ⟨prev', regs', hreach, hregs, fun y v hy => ?_, L.mono hL hut.instCount fun _ _ => rfl⟩
  rw [he.own] at hy
  split at hy
  · next hxy =>
    cases hy
    rw [hxy, ← hp.place x .alloca]
    exact ⟨Nat.lt_of_lt_of_le hlt hut.instCount, hreg⟩
  · obtain ⟨hv, ha⟩ := hcells' y v hy
    exact ⟨Nat.lt_of_lt_of_le hv hut.instCount, ha⟩

end Opening

/-- An instruction makes a slot, which is given a name. -/
theorem alloca_does (x : String) :
    Does S B ctx b n K [] (emit ctx b .alloca) (fun _ => b) register
      (fun _ => pure (S.place x .alloca)) [] := by
  intro s v t hready hrun
  rw [emit_eq] at hrun
  cases hrun
  refine .push (fun _ => x) hready fun caps A _ hslot j prev regs w _ _ => ⟨_, rfl, ?_⟩
  rw [hslot]
  rfl

/-! ## Announced names -/

theorem Opening.refl (S : Setting V σ) (B : FunctionSpec) (ctx : Ctx)
    (b : Nat) (s : State) : Opening S B ctx b s s (.any Unit V) (pure ()) :=
  ⟨.refl _ _ _ _ _, fun _ _ => ⟨fun _ => "", fun _ _ _ prev regs _ hcells =>
    ⟨prev, regs, .refl _, .refl _ _, hcells, trivial⟩⟩⟩

theorem Opening.seq {ev ev' : StateM σ Unit} (hready : Ready S.firstId n ctx b s)
    (h : Opening S B ctx b s t (.any Unit V) ev) (h' : Opening S B ctx b t u (.any Unit V) ev') :
    Opening S B ctx b s u (.any Unit V) (do ev; ev') := by
  refine (h.andThen hready h').forget fun _ _ => ?_
  simp only [bind_assoc, pure_bind, bind_pure_unit]

theorem announceNames_opens {constant : Bool} {x : Unit} (hready : Ready S.firstId n ctx b s)
    (hrun : announceNames ctx b constant names s = .ok x t) :
    Opening S B ctx b s t (.any Unit V) (pure ()) ∧ Announced t ctx.scope names := by
  induction names generalizing s n with
  | nil =>
    cases hrun
    exact ⟨.refl S B ctx b _, announced_nil _ _⟩
  | cons name names ih =>
    obtain ⟨slot, s1, h1, hrun⟩ := run_bind hrun
    obtain ⟨_, s2, h2, hrun⟩ := run_bind hrun
    have p1 := alloca_does (B := B) (K := .any Unit V) name s slot s1 hready h1
    obtain ⟨he, hlocal⟩ := forwardDeclare_ok
      (Nat.lt_of_lt_of_le hready.scope p1.keeps.scopes.size) h2
    have o2 : Opening S B ctx b s s2 (.any Unit V) (pure ()) :=
      (Opening.enter hready p1 (fun _ _ _ h => h) he).forget fun _ _ => rfl
    have hready2 := hready.grown o2.grows (Nat.lt_of_lt_of_le hready.block o2.grows.blockCount)
    obtain ⟨o3, hann⟩ := ih hready2 hrun
    refine ⟨o2.seq hready o3, fun y hy => ?_⟩
    rcases List.mem_cons.mp hy with rfl | hy
    · exact o3.grows.scopes.hasLocal _ hready2.scope _ hlocal
    · exact hann y hy

def itemNames : Item → List String
  | .declaration d _ => d.boundNames
  | .function f _ => (f.id.map (·.name)).toList
  | .statement _ => []

theorem announceItem_opens {item : Item} {x : Unit} (hready : Ready S.firstId n ctx b s)
    (hrun : announceItem ctx b item s = .ok x t) :
    Opening S B ctx b s t (.any Unit V) (pure ()) ∧ Announced t ctx.scope (itemNames item) := by
  cases item with
  | declaration d code =>
    have hrun : announce ctx b d s = .ok x t := hrun
    unfold announce checkBlockWide at hrun
    split at hrun
    · cases hrun
    · exact announceNames_opens hready hrun
  | function f closure =>
    obtain ⟨name, s1, hname, hrun⟩ := run_bind hrun
    unfold functionName at hname
    cases hid : f.id with
    | none =>
      rw [hid] at hname
      cases hname
    | some id =>
      rw [hid] at hname
      cases hname
      have hnames : itemNames (.function f closure) = [id.name] := by simp [itemNames, hid]
      rw [hnames]
      exact announceNames_opens hready hrun
  | statement code =>
    cases hrun
    exact ⟨.refl S B ctx b _, announced_nil _ _⟩

theorem announceItems_opens {items : List Item} {x : Unit} (hready : Ready S.firstId n ctx b s)
    (hrun : announceItems ctx b items s = .ok x t) :
    Opening S B ctx b s t (.any Unit V) (pure ()) ∧ Announced t ctx.scope (items.flatMap itemNames) := by
  induction items generalizing s n with
  | nil =>
    cases hrun
    exact ⟨.refl S B ctx b _, announced_nil _ _⟩
  | cons item items ih =>
    obtain ⟨_, s1, h1, hrun⟩ := run_bind hrun
    obtain ⟨o1, hann1⟩ := announceItem_opens (B := B) hready h1
    have hready1 := hready.grown o1.grows (Nat.lt_of_lt_of_le hready.block o1.grows.blockCount)
    obtain ⟨o2, hann2⟩ := ih hready1 hrun
    refine ⟨o1.seq hready o2, fun y hy => ?_⟩
    rw [List.flatMap_cons] at hy
    rcases List.mem_append.mp hy with hy | hy
    · exact o2.grows.scopes.hasLocal _ hready1.scope _ (hann1 y hy)
    · exact hann2 y hy

/-! ## Arguments -/

/-- Stores a value in a slot that is made for a name. -/
def storeNew (S : Setting V σ) (x : String) (v : V) : StateM σ V := do
  discard (S.perform (.store (S.place x .alloca) v))
  return S.place x .alloca

/-- A name enters the scope with a slot that holds a value. -/
theorem stored_opens {code : Emit InstId} {ev : StateM σ V}
    (h : Does S B ctx b n (.any Unit V) [] code (fun _ => b) register (fun _ => ev >>=
      storeNew S x) [])
    (hready : Ready S.firstId n ctx b s) (hrun : code s = .ok slot u)
    (he : Entered ctx.scope x slot u t) :
    Opening S B ctx b s t (.any Unit V) (do S.assign x (← ev)) := by
  refine (Opening.enter hready (h s slot u hready hrun) (fun _ _ _ h => h) he).forget fun addr hp => ?_
  unfold Scene.assign storeNew
  simp only [hp.place, hp.address, pure_bind, bind_assoc]
  rfl

def storeIn (ctx : Ctx) (b : BlockId) (value : Emit InstId) : Emit InstId := do
  let slot ← emit ctx b .alloca
  let v ← value
  perform ctx b (.store slot v)
  return slot

theorem plain_storeIn (h : Lower.Plain ctx.func value) : Lower.Plain ctx.func (storeIn ctx b value) :=
  .bind (.emit rfl) fun _ => h.bind fun _ => .bind (.perform rfl) fun _ => .pure _

theorem storeIn_does (x : String) {ev : ι → StateM σ V}
    (h : Does S B ctx b n K [] value (fun _ => b) register ev []) :
    Does S B ctx b n K [] (storeIn ctx b value) (fun _ => b) register
      (fun i => ev i >>= storeNew S x) [] := by
  have hdoes : Does S B ctx b n K [] (storeIn ctx b value) (fun _ => b) register
      (fun i => pure (S.place x .alloca) >>= fun slot => ev i >>= fun v =>
        discard (S.perform (.store slot v)) >>= fun _ => pure slot) [] := by
    refine .bind (alloca_does x) fun slot => .bind (h.lift (g := Prod.fst) ?_) fun v =>
      .bind (.perform ?_) fun _ => .pure rfl ?_
    · exact fun _ _ _ h => h.2
    · intro p m regs h A prev w
      simp [effect?, h.1.2, h.2.1.2]
    · exact fun _ _ _ h => h.2.2.1
  exact hdoes.congr fun _ _ _ _ => by simp only [pure_bind]; rfl

theorem declareArguments_opens {h : Lower.Header} {x : Unit} (hready : Ready S.firstId n ctx b s)
    (hrun : Lower.declareArguments h names ctx b s = .ok x t) :
    (t.scopes.get ctx.scope).rest = (s.scopes.get ctx.scope).rest ∧ Opening S B ctx b s t (.any Unit V)
        (if h.kind = .function && !names.contains "arguments" then do
          S.assign "arguments" (← S.perform .arguments) else pure ()) := by
  unfold Lower.declareArguments at hrun
  split at hrun
  · next hcond =>
    rw [if_pos hcond]
    have hrun : (storeIn ctx b (Lower.emit ctx b .arguments) >>= fun slot => discard (naming
        (Scope.Naming.declare ctx.scope "arguments" (some slot) false))) s = .ok x t := by
      simpa only [storeIn, bind_assoc, pure_bind] using hrun
    obtain ⟨slot, u, hstore, hrun⟩ := run_bind hrun
    obtain ⟨slot', hdeclare, _⟩ := run_map hrun
    have hdoes : Does S B ctx b n (.any Unit V) [] (storeIn ctx b (Lower.emit ctx b .arguments))
        (fun _ => b) register (fun _ => S.perform .arguments >>= storeNew S "arguments") [] :=
      storeIn_does _ (.act fun _ _ _ _ _ _ _ => rfl)
    have hscope := (hdoes s slot u hready hstore).keeps.scopes.size
    obtain ⟨he, hrest, hslot, _⟩ := Lower.declare_ok (Nat.lt_of_lt_of_le hready.scope hscope) hdeclare
    obtain rfl := hslot slot rfl
    have hsame := (plain_storeIn (.emit rfl)).scopes_eq hstore
    exact ⟨by rw [hrest, hsame], stored_opens hdoes hready hstore he⟩
  · next hcond =>
    rw [if_neg hcond]
    cases hrun
    exact ⟨rfl, .refl S B ctx b _⟩

/-- The arguments after the first `skip`. -/
def restCode (ctx : Ctx) (b : BlockId) (skip : Nat) : Emit InstId := do
  let array ← loadGlobal ctx b "Array"
  let prototype ← getNamed ctx b array "prototype"
  let slice ← getNamed ctx b prototype "slice"
  let arguments ← emit ctx b .arguments
  let start ← emitNumber ctx b skip
  callWith ctx b slice arguments [start]

theorem plain_restCode (skip : Nat) : Lower.Plain ctx.func (restCode ctx b skip) :=
  .bind .loadGlobal fun _ => .bind .getNamed fun _ => .bind .getNamed fun _ => .bind (.emit rfl) fun _ =>
    .bind .emitNumber fun _ => .callWith

theorem restCode_does (skip : Nat) :
    Does S B ctx b n K [] (restCode ctx b skip) (fun _ => b) register
      (fun _ => restArguments S.toScene skip) [] := by
  refine .bind (loadGlobal_does _) fun array => .bind (getNamed_does (.last _ _) _) fun prototype =>
    .bind (getNamed_does (.last _ _) _) fun slice => .bind (.act fun _ _ _ _ _ _ _ => rfl)
    fun arguments => .bind (emitNumber_does _) fun start => ?_
  exact callWith_does (fun _ _ _ h => h.2.2.1) (fun _ _ _ h => h.2.1) fun _ _ _ h => .cons h.1 .nil

theorem declareRest_opens {skip : Nat} {name : String} {x : Unit}
    (hready : Ready S.firstId n ctx b s) (hrest : (s.scopes.get ctx.scope).rest = none)
    (hrun : Lower.declareRest ctx b skip name s = .ok x t) :
    Opening S B ctx b s t (.any Unit V) (do S.assign name (← restArguments S.toScene skip)) := by
  have hrun : ((restCode ctx b skip >>= fun rest => storeIn ctx b (pure rest)) >>= fun slot =>
      naming (Scope.Naming.setRest ctx.scope name slot)) s = .ok x t := by
    simpa only [Lower.declareRest, restCode, storeIn, bind_assoc, pure_bind] using hrun
  obtain ⟨slot, u, hstore, hrun⟩ := run_bind hrun
  have hdoes : Does S B ctx b n (.any Unit V) []
      (restCode ctx b skip >>= fun rest => storeIn ctx b (pure rest)) (fun _ => b) register
      (fun _ => restArguments S.toScene skip >>= fun v => pure v >>= storeNew S name) [] :=
    .bind (restCode_does skip) fun rest => storeIn_does name (.pure rfl (.last _ _))
  have hsame := ((plain_restCode skip).bind fun rest =>
    plain_storeIn (.pure rest)).scopes_eq hstore
  have hscope := (hdoes s slot u hready hstore).keeps.scopes.size
  have he := Lower.setRest_ok (Nat.lt_of_lt_of_le hready.scope hscope) (by rw [hsame, hrest]) hrun
  exact stored_opens (hdoes.congr fun _ _ _ _ => by simp only [pure_bind]) hready hstore he

/-! ## Copies -/

def Context.copy (S : Setting V σ) (c : Copy) : Context String V where
  holds x m regs := (register c.outer).holds (S.place x .alloca) m regs ∧
    (register c.inner).holds (S.place x .alloca) m regs
  mono h hle hregs := ⟨(register c.outer).mono h.1 hle hregs, (register c.inner).mono h.2 hle hregs⟩

/-- Registers hold the slots of names and the slots of their copies. -/
def Context.copies (S : Setting V σ) (cs : List Copy) : Context (List String) V where
  holds xs m regs := List.Forall₂ (fun c x => (copy S c).holds x m regs) cs xs
  mono h hle hregs := h.imp fun _ _ h => (copy S _).mono h hle hregs

theorem copyIn_opens {v : LoopVariable} {copy : Copy}
    (hready : Ready S.firstId n ctx b s) (hrun : copyIn ctx b v s = .ok copy t) :
    Opening S B ctx b s t (.copy S copy) (do
      S.assign v.name (← S.perform (.load (← S.address v.name)))
      return v.name) := by
  obtain ⟨r, s0, hlook, hrun⟩ := run_bind hrun
  cases r with
  | none => cases hrun
  | some r =>
    obtain ⟨outer, s1, hslot, hrun⟩ := run_bind hrun
    have p1 := found_piece (B := B) (K := .any Unit V) hready hlook hslot
    have hrun : ((storeIn ctx b (emit ctx b (.load outer)) >>= fun inner => pure (outer, inner))
        >>= fun p => discard (naming (Scope.Naming.declare ctx.scope v.name (some p.2)
          v.constant)) >>= fun _ => pure ⟨p.1, p.2⟩) s1 = .ok copy t := by
      simpa only [storeIn, bind_assoc, pure_bind] using hrun
    obtain ⟨⟨outer', inner⟩, s2, hstore, hrun⟩ := run_bind hrun
    have hdoes : Does S B ctx b (n + 0) ((any Unit V).push (.register outer)) []
        (storeIn ctx b (emit ctx b (.load outer)) >>= fun inner => pure (outer, inner))
        (fun _ => b) (fun p => .two p.1 p.2)
        (fun p => (S.perform (.load p.2) >>= storeNew S v.name) >>= fun slot => pure (p.2, slot)) [] := by
      refine .bind (storeIn_does v.name (.act ?_)) fun inner => .pure rfl ?_
      · intro p m regs h A prev w
        simp [effect?, h.1.2]
      · exact fun _ _ _ h => ⟨h.2.1, h.1⟩
    have p2 := hdoes s1 _ s2 (hready.grown p1.grows p1.lt) hstore
    have p := p1.andThen (fun _ a => (S.perform (.load a) >>= storeNew S v.name) >>= fun slot =>
      pure (a, slot)) hready p2
    obtain ⟨_, s3, hdeclare, hrun⟩ := run_bind hrun
    obtain ⟨slot, hdeclare, _⟩ := run_map hdeclare
    cases hrun
    obtain ⟨he, _, hgiven, _⟩ := declare_ok
      (Nat.lt_of_lt_of_le hready.scope p.keeps.scopes.size) hdeclare
    obtain rfl := hgiven inner rfl
    refine (Opening.enter hready p (fun _ _ _ h => h.2) he).imp fun addr hp w => ⟨?_, fun m regs h => ?_⟩
    · simp only [Scene.assign, storeNew, hp.address, hp.place, pure_bind, bind_assoc]
      rfl
    · refine ⟨?_, h.2⟩
      have h := h.1
      rw [hp.address] at h
      rw [hp.place]
      exact h

theorem copyAllIn_opens {vars : List LoopVariable} {copies : List Copy}
    (hready : Ready S.firstId n ctx b s) (hrun : copyAllIn ctx b vars s = .ok copies t) :
    Opening S B ctx b s t (.copies S copies) (do
      S.copyNames (vars.map (·.name))
      return vars.map (·.name)) := by
  induction vars generalizing s n copies with
  | nil =>
    cases hrun
    exact (Opening.refl S B ctx b _).imp fun _ _ _ => ⟨rfl, fun _ _ _ => .nil⟩
  | cons v vars ih =>
    obtain ⟨copy, s1, h1, hrun⟩ := run_bind hrun
    obtain ⟨more, s2, h2, hrun⟩ := run_bind hrun
    cases hrun
    have o1 := copyIn_opens (B := B) hready h1
    have o2 := ih (hready.grown o1.grows (Nat.lt_of_lt_of_le hready.block o1.grows.blockCount)) h2
    exact (o1.andThen hready o2).imp fun _ _ _ => ⟨rfl, fun _ _ h => .cons h.2 h.1⟩

def writeBack (S : Setting V σ) : List String → StateM σ Unit
  | [] => return ()
  | x :: xs => do
    discard (S.perform (.store (S.place x .alloca) (← S.perform (.load (S.place x .alloca)))))
    writeBack S xs

theorem writeBack_eq {addr : String → V} (hp : Plain S addr) (xs : List String) :
    writeBack S xs = S.copyNames xs := by
  induction xs with
  | nil => rfl
  | cons x xs ih =>
    simp only [writeBack, Scene.copyNames, Scene.assign, hp.address, hp.place, pure_bind, ih]

theorem copyAllOut_does (copies : List Copy) :
    Does S B ctx b n (.copies S copies) [] (copyAllOut ctx b copies) (fun _ => b)
      (fun _ => .any Unit V) (writeBack S) [] := by
  induction copies with
  | nil =>
    refine .answer rfl fun xs m regs h => ⟨(), ?_, trivial⟩
    cases h
    rfl
  | cons copy copies ih =>
    have hdoes : Does S B ctx b n ((Context.copy S copy).push (.copies S copies)) []
        (copyAllOut ctx b (copy :: copies)) (fun _ => b) (fun _ => .any Unit V)
        (fun p => writeBack S (p.1 :: p.2)) [] := by
      refine .bind (.act ?_) fun value => .bind (.perform ?_) fun _ =>
        ih.lift (g := fun p : ((String × List String) × V) × Unit => p.1.1.2) ?_
      · intro p m regs h A prev v
        simp [effect?, h.2.2.2]
      · intro p m regs h A prev v
        simp [effect?, h.2.2.1.2, h.1.2]
      · exact fun _ _ _ h => h.2.2.1
    refine hdoes.cover fun xs m regs h => ?_
    obtain ⟨x, xs', hx, hxs, rfl⟩ := List.forall₂_cons_left_iff.mp h
    exact ⟨(x, xs'), ⟨hxs, hx⟩, rfl⟩

end ScriptIr.Run
