import ScriptIr.Lower.Tree
import ScriptIr.Proofs.Semantics.Addresses

/-!
# What expressions do

The code of each kind of expression does what the evaluation of the expression does, given that the
code of its parts does. Code that branches is treated in a module of its own.

* `ExprDoes`, `TargetDoes`, `PlaceDoes`: what it means for expressions, members and places.
* `binaryCode_does`, `callCode_does`, `arrayCode_does`: some of the kinds.
-/
namespace ScriptIr.Run

open Code Context Lower ScriptIr.Tree
open Scene (Spot Pieces)

variable {vs : List InstId}

/-! ## Values in registers -/

namespace Context

variable {V : Type}

def two (v w : InstId) : Context (V × V) V where
  holds p n regs := (register v).holds p.1 n regs ∧ (register w).holds p.2 n regs
  mono h hle hregs := ⟨(register v).mono h.1 hle hregs, (register w).mono h.2 hle hregs⟩

/-- Registers hold the addresses or values that make up a place. -/
def spot (place : Place) : Context (Spot V) V where
  holds x n regs :=
    match place, x with
    | .slot v, .slot a => (register v).holds a n regs
    | .member v w, .member o k => (register v).holds o n regs ∧ (register w).holds k n regs
    | _, _ => False
  mono {x n m regs regs'} h hle hregs := by
    cases place <;> cases x <;> simp only at h ⊢
    · exact (register _).mono h hle hregs
    · exact ⟨(register _).mono h.1 hle hregs, (register _).mono h.2 hle hregs⟩

def pieces (s : Segments) : Context (Pieces V) V where
  holds p n regs := (registers s.done).holds p.done n regs ∧ (registers s.pending).holds p.pending n regs
  mono h hle hregs := ⟨(registers _).mono h.1 hle hregs, (registers _).mono h.2 hle hregs⟩

end Context

section

variable {V σ : Type} (S : Setting V σ) (B : FunctionSpec)

/-- The code of an expression computes what the expression does. -/
def ExprDoes (code : ExprCode) (ev : Nat → StateM σ V) (fs : List Callable) : Prop :=
  ∀ ctx b n, Does S B ctx b n (.any Unit V) [] (code ctx b) Lowered.block
    (fun r => .register r.value) (fun _ => ev n) fs

def TargetDoes (code : TargetCode) (ev : Nat → StateM σ (V × V)) (fs : List Callable) : Prop :=
  ∀ ctx b n, Does S B ctx b n (.any Unit V) [] (code ctx b) Target.block
    (fun t => .two t.object t.key) (fun _ => ev n) fs

def PlaceDoes (code : PlaceCode) (ev : Nat → StateM σ (Spot V)) (fs : List Callable) : Prop :=
  ∀ ctx b n, Does S B ctx b n (.any Unit V) [] (code ctx b) Prod.fst (fun p => .spot p.2)
    (fun _ => ev n) fs

end

variable {V σ : Type} {S : Setting V σ} {B : FunctionSpec} {ι : Type}
  {ctx : Ctx} {b : BlockId} {n : Nat} {K : Context ι V}

variable {as : ι → List V} {ev eva : Nat → StateM σ (List V)} {es : List Element}
  {ms : List (Except Error String × ExprCode)} {text : String} {target : Option TargetCode}
  {place : Place} {x : ι → Spot V} {right callee : ExprCode} {evt : Option (Nat → StateM σ (V × V))}
  {args codes : List ExprCode} {fa fs : List Callable}

/-- What a part does is the same whatever has been computed before it. -/
theorem Does.part {α β : Type} {x : Emit α} {next : α → BlockId} {view : α → Context β V} {ev : StateM σ β}
    {decl : List String} (h : Does S B ctx b n (.any Unit V) decl x next view (fun _ => ev) fs) :
    Does S B ctx b n K decl x next view (fun _ => ev) fs :=
  h.lift (g := fun _ => ()) fun _ _ _ _ => trivial

/-- The value of an instruction is the value of an expression. -/
theorem Does.lowered {x : Emit InstId} {ev : ι → StateM σ V} {decl : List String}
    (h : Does S B ctx b n K decl x (fun _ => b) register ev fs) :
    Does S B ctx b n K decl (x >>= fun v => Pure.pure ⟨b, v⟩) Lowered.block (fun r => .register r.value)
      ev fs :=
  h.result (fun _ => rfl) fun _ _ _ _ h => h

/-! ## Common sequences -/

theorem emitNumber_does (k : Nat) :
    Does S B ctx b n K [] (emitNumber ctx b k) (fun _ => b) register
      (fun _ => S.number k) [] :=
  .act fun _ _ _ _ _ _ _ => rfl

theorem loadGlobal_does (name : String) :
    Does S B ctx b n K [] (loadGlobal ctx b name) (fun _ => b) register
      (fun _ => S.loadGlobal name) [] := by
  refine .bind (.act fun _ _ _ _ _ _ _ => rfl) fun _ => .act fun _ _ _ h _ _ _ => ?_
  simp [effect?, h.1.2]

theorem getNamed_does {object : InstId} {o : ι → V} (ho : K.Gives (.register object) o) (name : String) :
    Does S B ctx b n K [] (getNamed ctx b object name) (fun _ => b) register
      (fun i => S.getNamed (o i) name) [] := by
  refine .bind (.act fun _ _ _ _ _ _ _ => rfl) fun v => .act fun _ _ _ h _ _ _ => ?_
  simp [effect?, h.1.2, (ho _ _ _ h.2).2]

theorem callWith_does {callee receiver : InstId} {args : List InstId} {c r : ι → V}
    (hc : K.Gives (.register callee) c) (hr : K.Gives (.register receiver) r)
    (has : K.Gives (.registers args) as) :
    Does S B ctx b n K [] (callWith ctx b callee receiver args) (fun _ => b) register
      (fun i => S.callWith (c i) (r i) (as i)) [] := by
  refine .bind (.act fun _ _ _ h _ _ _ => ?_) fun _ => .act fun _ _ _ h _ _ _ => ?_
  · simp [effect?, registers_read (has _ _ _ h)]
  · simp [effect?, h.1.2, (hc _ _ _ h.2).2, (hr _ _ _ h.2).2]

/-! ## Simple kinds -/

theorem readIdentifier_does (name : String) : ExprDoes S B (readIdentifier name)
      (fun _ => do S.perform (.load (← S.address name))) [] := by
  intro ctx b n
  refine .bind (identifierAddress_does name false) fun _ => .lowered (.act fun _ _ _ h _ _ _ => ?_)
  simp [effect?, h.1.2]

theorem instCode_does {i : Inst} {a : Action V}
    (h : ∀ (A : Activation V) prev regs v, effect? A prev regs v i = some (.act a)) :
    ExprDoes S B (instCode i) (fun _ => S.perform a) [] := fun _ _ _ =>
  .lowered (.act fun _ _ regs _ A prev v => h A prev regs v)

theorem failing_does (e : Error) (ev : Nat → StateM σ V) (fs : List Callable) :
    ExprDoes S B (failing e) ev fs := fun _ _ _ => .throw

theorem literalCode_does (l : Tree.Literal) :
    ExprDoes S B (literalCode l) (fun _ => S.literal l) [] := by
  unfold literalCode Scene.literal
  cases l.regex with
  | some r => exact instCode_does fun _ _ _ _ => rfl
  | none =>
    simp only
    split
    · exact failing_does _ _ _
    · cases l.value with
      | other => exact failing_does _ _ _
      | _ => exact instCode_does fun _ _ _ _ => rfl

/-! ## Lists of expressions -/

/-- The code of each of several expressions comes to its value. -/
inductive ExprsDoes (S : Setting V σ) (B : FunctionSpec) :
    List ExprCode → (Nat → StateM σ (List V)) → List Callable → Prop where
  | nil : ExprsDoes S B [] (fun _ => pure []) []
  | cons {code codes ev evs fs gs} : ExprDoes S B code ev fs → ExprsDoes S B codes evs gs →
    ExprsDoes S B (code :: codes) (fun n => do
        let v ← ev n
        return v :: (← evs (n + fs.length)))
      (fs ++ gs)

theorem evalList_does (h : ExprsDoes S B codes ev fs) (ctx : Ctx) (b : BlockId) (n : Nat) :
    Does S B ctx b n (.any Unit V) [] (evalList ctx b codes) Prod.fst
      (fun p => .registers p.2) (fun _ => ev n) fs := by
  induction h generalizing b n with
  | nil => exact .pure rfl fun _ _ _ _ => .nil
  | cons hcode _ ih =>
    refine .bind (hcode ctx b n) fun r => .bindLast (ih r.block _).part fun p => ?_
    obtain ⟨block, values⟩ := p
    exact .pure rfl fun _ _ _ h => .cons h.2.1 h.1

theorem argumentsCode_does (h : ExprsDoes S B codes ev fs) :
    ExprDoes S B (argumentsCode codes) (fun n => do S.perform (.array (← ev n))) fs := by
  intro ctx b n
  refine .bindLast (evalList_does h ctx b n) fun p => ?_
  obtain ⟨block, values⟩ := p
  refine .lowered (.act fun _ _ _ h _ _ _ => ?_)
  simp [effect?, registers_read h.1]

theorem getLast?_registers {as : List V} {m : InstId} {regs : Registers V}
    (h : (registers vs).holds as m regs) {v : InstId} (hv : vs.getLast? = some v) :
    ∃ a, as.getLast? = some a ∧ (register v).holds a m regs := by
  induction h with
  | nil => cases hv
  | @cons w a ws as hw hs ih =>
    cases hs with
    | nil =>
      cases hv
      exact ⟨a, rfl, hw⟩
    | cons hw' hs' =>
      rw [List.getLast?_cons_cons] at hv ⊢
      exact ih hv

theorem sequenceCode_does (h : ExprsDoes S B codes ev fs) : ExprDoes S B (sequenceCode codes)
      (fun n => do
        let values ← ev n
        match values.getLast? with
        | some v => return v
        | none => S.perform .undefined) fs := by
  intro ctx b n
  refine .bindLast (evalList_does h ctx b n) fun p => ?_
  obtain ⟨block, values⟩ := p
  dsimp only
  split
  · next v hv =>
    refine .answer rfl fun p m regs h => ?_
    obtain ⟨a, ha, hreg⟩ := getLast?_registers h.1 hv
    exact ⟨a, by simp only [ha], hreg⟩
  · exact .throw

/-! ## Arrays -/

/-- The code of the elements of an array literal adds them to the pieces before them. -/
inductive ElementsDoes (S : Setting V σ) (B : FunctionSpec) :
    List Element → (Nat → Pieces V → StateM σ (Pieces V)) → List Callable → Prop where
  | nil : ElementsDoes S B [] (fun _ p => pure p) []
  | hole {es evs gs} : ElementsDoes S B es evs gs →
    ElementsDoes S B (.hole :: es) (fun n p => do
        let v ← S.perform .undefined
        evs n { p with pending := p.pending ++ [v] }) gs
  | value {code es ev evs fs gs} : ExprDoes S B code ev fs → ElementsDoes S B es evs gs →
    ElementsDoes S B (.value code :: es) (fun n p => do
        let v ← ev n
        evs (n + fs.length) { p with pending := p.pending ++ [v] }) (fs ++ gs)
  | spread {code es ev evs fs gs} : ExprDoes S B code ev fs → ElementsDoes S B es evs gs →
    ElementsDoes S B (.spread code :: es) (fun n p => do
        let p ← S.flush p
        let piece ← S.spread (← ev n)
        evs (n + fs.length) { p with done := p.done ++ [piece] }) (fs ++ gs)

theorem isEmpty_registers {as : List V} {m : InstId} {regs : Registers V}
    (h : (registers vs).holds as m regs) : as.isEmpty = vs.isEmpty := by
  cases h <;> rfl

theorem registers_tail {as : List V} {m : InstId} {regs : Registers V}
    (h : (registers vs).holds as m regs) :
    (registers vs.tail).holds as.tail m regs := by
  cases h with
  | nil => exact .nil
  | cons _ h => exact h

theorem array_does (h : K.Gives (.registers vs) as) :
    Does S B ctx b n K [] (emit ctx b (.array vs)) (fun _ => b) register
      (fun i => S.perform (.array (as i))) [] :=
  .act fun i m regs hK _ _ _ => by simp [effect?, registers_read (h i m regs hK)]

theorem flush_does {s : Segments} {p : ι → Pieces V} (hs : K.Gives (.pieces s) p) :
    Does S B ctx b n K [] (flush ctx b s) (fun _ => b) pieces (fun i => S.flush (p i)) [] := by
  unfold flush Scene.flush
  by_cases hempty : s.pending.isEmpty
  · rw [if_pos hempty]
    refine .answer rfl fun i m regs h => ⟨p i, ?_, hs i m regs h⟩
    rw [if_pos ((isEmpty_registers (hs i m regs h).2).trans hempty)]
  · rw [if_neg hempty]
    refine .like (fun i => do
        let piece ← S.perform (.array (p i).pending)
        pure { done := (p i).done ++ [piece] }) (fun i m regs h => ?_)
      (.bind (array_does fun i m regs h => (hs i m regs h).2) fun _ => .pure rfl fun _ _ _ h => ?_)
    · rw [if_neg fun he => hempty ((isEmpty_registers (hs i m regs h).2).symm.trans he)]
    · exact ⟨registers_append (hs _ _ _ h.2).1 (.cons h.1 .nil), .nil⟩

theorem spread_does {value : InstId} {v : ι → V} (hv : K.Gives (.register value) v) :
    Does S B ctx b n K [] (do
        let array ← loadGlobal ctx b "Array"
        let convert ← getNamed ctx b array "from"
        callWith ctx b convert array [value])
      (fun _ => b) register (fun i => S.spread (v i)) [] := by
  refine .bind (loadGlobal_does "Array") fun array => .bind (getNamed_does (.last _ _) "from")
    fun convert => callWith_does (.last _ _) ((Gives.last _ _).old _) ?_
  exact fun p m regs h => .cons (hv _ _ _ h.2.2) .nil

theorem evalElements_does {ev : Nat → Pieces V → StateM σ (Pieces V)} (h : ElementsDoes S B es ev fs)
    {s : Segments} {p : ι → Pieces V} (hs : K.Gives (.pieces s) p) (b : BlockId) (n : Nat) :
    Does S B ctx b n K [] (Lower.evalElements ctx b s es) Prod.fst (fun r => .pieces r.2)
      (fun i => ev n (p i)) fs := by
  induction h generalizing ι b n s with
  | nil => exact .pure rfl hs
  | hole _ ih =>
    refine .bindFirst (.act fun _ _ _ _ _ _ _ => rfl) fun v => ih ?_ b n
    exact fun q m regs h =>
      ⟨(hs _ _ _ h.2).1, registers_append (hs _ _ _ h.2).2 (.cons h.1 .nil)⟩
  | value hcode _ ih =>
    refine .bind (hcode ctx b n).part fun r => ih ?_ r.block _
    exact fun q m regs h =>
      ⟨(hs _ _ _ h.2).1, registers_append (hs _ _ _ h.2).2 (.cons h.1 .nil)⟩
  | spread hcode _ ih =>
    refine .bindFirst (flush_does hs) fun s' => .bind (hcode ctx b n).part fun r => ?_
    rename_i code es ev evs fs gs _
    have hrest : Does S B ctx r.block (n + fs.length) ((K.push (.pieces s')).push (.register r.value)) []
        ((do
          let array ← loadGlobal ctx r.block "Array"
          let convert ← getNamed ctx r.block array "from"
          callWith ctx r.block convert array [r.value]) >>= fun piece =>
            Lower.evalElements ctx r.block { s' with done := s'.done ++ [piece] } es)
        Prod.fst (fun r => .pieces r.2)
        (fun q => S.spread q.2 >>= fun piece =>
          evs (n + fs.length) { q.1.2 with done := q.1.2.done ++ [piece] }) gs := by
      refine .bindFirst (spread_does (.last _ _)) fun piece => ih ?_ r.block _
      exact fun q m regs h => ⟨registers_append h.2.2.1.1 (.cons h.1 .nil), h.2.2.1.2⟩
    simpa only [bind_assoc] using hrest

theorem concat_does {first : InstId} {rest : List InstId} {a : ι → V} (ha : K.Gives (.register first) a)
    (has : K.Gives (.registers rest) as) :
    Does S B ctx b n K [] (concatCode ctx b first rest)
      Lowered.block (fun r => .register r.value) (fun i => S.concat (a i) (as i)) [] := by
  unfold concatCode
  by_cases hempty : rest.isEmpty
  · rw [if_pos hempty]
    refine .answer rfl fun i m regs h => ⟨a i, ?_, ha i m regs h⟩
    unfold Scene.concat
    rw [if_pos ((isEmpty_registers (has i m regs h)).trans hempty)]
  · rw [if_neg hempty]
    refine .like (fun i => do
        let prototype ← S.getNamed (← S.loadGlobal "Array") "prototype"
        S.callWith (← S.getNamed prototype "concat") (a i) (as i)) (fun i m regs h => ?_)
      (.bind (loadGlobal_does "Array") fun _ => .bind (getNamed_does (.last _ _) "prototype") fun _ =>
        .bind (getNamed_does (.last _ _) "concat") fun _ => .lowered (callWith_does (.last _ _)
          (((ha.old _).old _).old _) (((has.old _).old _).old _)))
    unfold Scene.concat
    rw [if_neg fun he => hempty ((isEmpty_registers (has i m regs h)).symm.trans he)]

theorem join_does {s : Segments} {p : ι → Pieces V} (hs : K.Gives (.pieces s) p) : Does S B ctx b n K []
      (do
        let (first, rest) ← closeSegments ctx b s
        concatCode ctx b first rest)
      Lowered.block (fun r => .register r.value) (fun i => S.join (p i)) [] := by
  unfold closeSegments
  cases hd : s.done with
  | nil =>
    simp only [bind_assoc, pure_bind, concatCode, List.isEmpty_nil, if_true]
    refine .congr (.lowered (array_does fun i m regs h => (hs i m regs h).2)) fun i m regs h => ?_
    have hdone := (hs i m regs h).1
    rw [hd] at hdone
    unfold Scene.join
    cases hp : (p i).done with
    | nil => rfl
    | cons a as => rw [hp] at hdone; cases hdone
  | cons first more =>
    simp only [bind_assoc, pure_bind]
    have hjoin : Does S B ctx b n ((pieces s).push (.register first)) [] (do
          let s' ← flush ctx b s
          concatCode ctx b first s'.done.tail)
        Lowered.block (fun r => .register r.value)
        (fun q => do S.concat q.2 (← S.flush q.1).done.tail) [] := by
      refine .bindFirst (flush_does fun _ _ _ h => h.2) fun s' => concat_does ?_ ?_
      · exact (Gives.last _ _).old _
      · exact fun q m regs h => registers_tail h.1.1
    refine hjoin.cover fun i m regs h => ?_
    have hdone := (hs i m regs h).1
    rw [hd] at hdone
    cases hp : (p i).done with
    | nil => rw [hp] at hdone; cases hdone
    | cons a as =>
      rw [hp] at hdone
      refine ⟨(p i, a), ⟨?_, hs i m regs h⟩, ?_⟩
      · cases hdone with
        | cons ha _ => exact ha
      · unfold Scene.join
        rw [hp]

theorem arrayCode_does {ev : Nat → Pieces V → StateM σ (Pieces V)} (h : ElementsDoes S B es ev fs) :
    ExprDoes S B (arrayCode es) (fun n => do S.join (← ev n {})) fs := by
  intro ctx b n
  refine .bindLast (evalElements_does h (s := {}) (p := fun _ => {}) (fun _ _ _ _ => ⟨.nil, .nil⟩) b n)
    fun r => ?_
  obtain ⟨block, s⟩ := r
  exact join_does (.last _ _)

/-! ## Objects -/

/-- The code of the members of an object literal comes to their keys and values. -/
inductive MembersDoes (S : Setting V σ) (B : FunctionSpec) :
    List (Except Error String × ExprCode) → (Nat → StateM σ (List (V × V))) → List Callable →
    Prop where
  | nil : MembersDoes S B [] (fun _ => pure []) []
  | cons {name text code ms ev evs fs gs} : (∀ x, name = .ok x → x = text) → ExprDoes S B code ev fs →
    MembersDoes S B ms evs gs →
    MembersDoes S B ((name, code) :: ms) (fun n => do
        let key ← S.perform (.string text)
        let v ← ev n
        return (key, v) :: (← evs (n + fs.length)))
      (fs ++ gs)

theorem evalMembers_does {ev : Nat → StateM σ (List (V × V))} (h : MembersDoes S B ms ev fs) (ctx : Ctx)
    (b : BlockId) (n : Nat) :
    Does S B ctx b n (.any Unit V) [] (Lower.evalMembers ctx b ms) Prod.fst (fun p => .pairs p.2)
      (fun _ => ev n) fs := by
  induction h generalizing b n with
  | nil => exact .pure rfl fun _ _ _ _ => .nil
  | cons hname hcode _ ih =>
    refine .ofExcept_bind fun x hx => .bindFirst (.act fun _ _ _ _ _ _ _ => ?_) fun key =>
      .bind (hcode ctx b n).part fun r => .bindLast (ih r.block _).part fun p => ?_
    · rw [hname x hx]
      rfl
    · obtain ⟨block, props⟩ := p
      exact .pure rfl fun _ _ _ h => .cons ⟨h.2.2.1, h.2.1⟩ h.1

theorem readProps_pairs {vs : List (InstId × InstId)} {as : List (V × V)} {m : InstId}
    {regs : Registers V} (h : (pairs vs).holds as m regs) : regs.readProps? vs = some as :=
  Registers.readProps?_eq_some (h.imp fun _ _ h => ⟨h.1.2, h.2.2⟩)

theorem objectCode_does {ev : Nat → StateM σ (List (V × V))} (h : MembersDoes S B ms ev fs) :
    ExprDoes S B (Lower.objectCode ms) (fun n => do S.perform (.object (← ev n))) fs := by
  intro ctx b n
  refine .bindLast (evalMembers_does h ctx b n) fun p => ?_
  obtain ⟨block, props⟩ := p
  refine .lowered (.act fun _ _ _ h _ _ _ => ?_)
  simp [effect?, readProps_pairs h.1]

/-! ## Members and places -/

theorem memberTarget_does {object property : Expression} {computed : Bool}
    {objectCode propertyCode : ExprCode} {evo evp : Nat → StateM σ V} {fo fp : List Callable}
    (ho : ExprDoes S B objectCode evo fo) (hp : ExprDoes S B propertyCode evp fp)
    (hkey : ∀ x, memberKey property = .ok x → x = text) :
    TargetDoes S B (memberTarget object property computed objectCode propertyCode)
      (fun n => S.member (evo n) computed text (evp (n + fo.length)))
      (fo ++ if computed then fp else []) := by
  intro ctx b n
  have hmember : Does S B ctx b n (.any Unit V) [] (do
        let o ← objectCode ctx b
        if computed then
          let k ← propertyCode ctx o.block
          return ⟨k.block, o.value, k.value⟩
        else
          let name ← ofExcept (memberKey property)
          return ⟨o.block, o.value, ← emit ctx o.block (.string name)⟩)
      Target.block (fun t => .two t.object t.key)
      (fun _ => S.member (evo n) computed text (evp (n + fo.length)))
      (fo ++ if computed then fp else []) := by
    refine .bind (ho ctx b n) fun o => ?_
    cases computed with
    | true =>
      refine .bindLast (hp ctx o.block _).part fun k => ?_
      exact .pure rfl fun _ _ _ h => ⟨h.2.1, h.1⟩
    | false =>
      refine .ofExcept_bind fun x hx => .bind (.act fun _ _ _ _ _ _ _ => ?_) fun k => ?_
      · rw [hkey x hx]
        rfl
      · exact .pure rfl fun _ _ _ h => ⟨h.2.1, h.1⟩
  unfold memberTarget
  dsimp only
  split
  · exact .throw_bind
  · exact hmember

theorem memberCode_does {target : TargetCode} {ev : Nat → StateM σ (V × V)}
    (h : TargetDoes S B target ev fs) :
    ExprDoes S B (memberCode target) (fun n => do
        let t ← ev n
        S.perform (.getItem t.1 t.2)) fs := by
  intro ctx b n
  refine .bindLast (h ctx b n) fun _ => .lowered (.act fun _ _ _ h _ _ _ => ?_)
  simp [effect?, h.1.1.2, h.1.2.2]

theorem identifierPlace_does (name : String) :
    PlaceDoes S B (identifierPlace name) (fun _ => do return .slot (← S.address name)) [] :=
  fun _ _ _ => .bind (identifierAddress_does name true) fun _ => .pure rfl fun _ _ _ h => h.1

theorem memberPlace_does {target : TargetCode} {ev : Nat → StateM σ (V × V)}
    (h : TargetDoes S B target ev fs) :
    PlaceDoes S B (memberPlace target) (fun n => do
        let t ← ev n
        return .member t.1 t.2) fs := fun ctx b n =>
  .bindLast (h ctx b n) fun _ => .pure rfl fun _ _ _ h => h.1

theorem readPlace_does (hx : K.Gives (.spot place) x) :
    Does S B ctx b n K [] (readPlace ctx b place) (fun _ => b) register
      (fun i => S.read (x i)) [] := by
  cases place with
  | slot v =>
    have hread : Does S B ctx b n (.register v) [] (emit ctx b (.load v)) (fun _ => b)
        register (fun a => S.perform (.load a)) [] := by
      refine .act fun _ _ _ h _ _ _ => ?_
      simp [effect?, h.2]
    refine hread.cover fun i m regs h => ?_
    have hi := hx i m regs h
    cases hspot : x i with
    | slot a => exact ⟨a, by rw [hspot] at hi; exact hi, rfl⟩
    | member o k => rw [hspot] at hi; exact hi.elim
  | member v w =>
    have hread : Does S B ctx b n (.two v w) [] (emit ctx b (.getItem v w)) (fun _ => b)
        register (fun p => S.perform (.getItem p.1 p.2)) [] := by
      refine .act fun _ _ _ h _ _ _ => ?_
      simp [effect?, h.1.2, h.2.2]
    refine hread.cover fun i m regs h => ?_
    have hi := hx i m regs h
    cases hspot : x i with
    | slot a => rw [hspot] at hi; exact hi.elim
    | member o k => exact ⟨(o, k), by rw [hspot] at hi; exact hi, rfl⟩

theorem writePlace_does {value : InstId} {v : ι → V} (hx : K.Gives (.spot place) x)
    (hv : K.Gives (.register value) v) :
    Does S B ctx b n K [] (writePlace ctx b place value) (fun _ => b) (fun _ => .any Unit V)
      (fun i => S.write (v i) (x i)) [] := by
  cases place with
  | slot a =>
    have hwrite : Does S B ctx b n ((register value).push (.register a)) []
        (perform ctx b (.store a value)) (fun _ => b) (fun _ => .any Unit V)
        (fun p => discard (S.perform (.store p.2 p.1))) [] := by
      refine .perform fun _ _ _ h _ _ _ => ?_
      simp [effect?, h.1.2, h.2.2]
    refine hwrite.cover fun i m regs h => ?_
    have hi := hx i m regs h
    cases hspot : x i with
    | slot a => exact ⟨(v i, a), ⟨by rw [hspot] at hi; exact hi, hv i m regs h⟩, rfl⟩
    | member o k => rw [hspot] at hi; exact hi.elim
  | member o k =>
    have hwrite : Does S B ctx b n ((register value).push (.two o k)) []
        (perform ctx b (.setItem o k value)) (fun _ => b) (fun _ => .any Unit V)
        (fun p => discard (S.perform (.setItem p.2.1 p.2.2 p.1))) [] := by
      refine .perform fun _ _ _ h _ _ _ => ?_
      simp [effect?, h.1.1.2, h.1.2.2, h.2.2]
    refine hwrite.cover fun i m regs h => ?_
    have hi := hx i m regs h
    cases hspot : x i with
    | slot a => rw [hspot] at hi; exact hi.elim
    | member o k => exact ⟨(v i, (o, k)), ⟨by rw [hspot] at hi; exact hi, hv i m regs h⟩, rfl⟩

/-! ## Operators -/

theorem operator_binaryOp? {op : Tree.BinaryOperator} {op' : Code.BinaryOp}
    (h : binaryOp? op = some op') : op ≠ .exponent ∧ op'.operator = op := by
  cases op <;> cases h <;> exact ⟨by decide, rfl⟩

theorem applyBinary_does (op : Tree.BinaryOperator) {lhs rhs : InstId} {l r : ι → V}
    (hl : K.Gives (.register lhs) l) (hr : K.Gives (.register rhs) r) :
    Does S B ctx b n K [] (applyBinary ctx b op lhs rhs) (fun _ => b) register
      (fun i => S.binary op (l i) (r i)) [] := by
  unfold applyBinary Scene.binary
  cases hop : binaryOp? op with
  | some op' =>
    obtain ⟨hne, hop'⟩ := operator_binaryOp? hop
    simp only [if_neg hne]
    refine .act fun i m regs h _ _ _ => ?_
    simp [effect?, (hl i m regs h).2, (hr i m regs h).2, hop']
  | none =>
    have hexp : op = .exponent := by cases op <;> first | rfl | cases hop
    simp only [if_pos hexp]
    refine .bind (loadGlobal_does "Math") fun math => .bind (getNamed_does (.last _ _) "pow")
      fun pow => callWith_does (.last _ _) ((Gives.last _ _).old _) ?_
    exact fun p m regs h => .cons (hl _ _ _ h.2.2) (.cons (hr _ _ _ h.2.2) .nil)

theorem binaryCode_does (op : Tree.BinaryOperator) {left : ExprCode} {evl evr : Nat → StateM σ V}
    {fl fr : List Callable} (hl : ExprDoes S B left evl fl) (hr : ExprDoes S B right evr fr) :
    ExprDoes S B (binaryCode op left right) (fun n => do
        let a ← evl n
        let b ← evr (n + fl.length)
        S.binary op a b) (fl ++ fr) := by
  intro ctx b n
  refine .bind (hl ctx b n) fun l => .bindLast (hr ctx l.block _).part fun r =>
    .lowered (applyBinary_does op ((Gives.last _ _).old _) (.last _ _))

theorem applyUnary_does {op : Tree.UnaryOperator} {operand : InstId} {v : ι → V}
    (hv : K.Gives (.register operand) v) :
    Does S B ctx b n K [] (applyUnary ctx b op operand) (fun _ => b) register
      (fun i => S.unary op (v i)) [] := by
  have hact : ∀ op' : Code.UnaryOp, Does S B ctx b n K [] (emit ctx b (.unary op' operand))
      (fun _ => b) register (fun i => S.perform (.unary op'.operator (v i))) [] := by
    intro op'
    refine .act fun i m regs h _ _ _ => ?_
    simp [effect?, (hv i m regs h).2]
  cases op with
  | minus => exact hact .neg
  | logicalNot => exact hact .logicalNot
  | bitNot => exact hact .bitNot
  | typeOf => exact hact .typeOf
  | void => exact .act fun _ _ _ _ _ _ _ => rfl
  | delete => exact .act fun _ _ _ _ _ _ _ => rfl
  | plus =>
    refine .bind (emitNumber_does 0) fun origin => .act fun _ _ _ h _ _ _ => ?_
    simp [effect?, (hv _ _ _ h.2).2, h.1.2, Code.BinaryOp.operator]

/-- What the code of a member does, if an expression is one. -/
inductive TargetDoes? (S : Setting V σ) (B : FunctionSpec) :
    Option TargetCode → Option (Nat → StateM σ (V × V)) → List Callable → Prop where
  | some {code read gs} : TargetDoes S B code read gs → TargetDoes? S B (some code) (some read) gs
  | none (gs) : TargetDoes? S B none none gs

theorem unaryCode_does (op : Tree.UnaryOperator) (e : Expression) {operand : ExprCode}
    {ev : Nat → StateM σ V} (ht : TargetDoes? S B target evt fs) (he : ExprDoes S B operand ev fs) :
    ExprDoes S B (unaryCode op e target operand) (fun n => do
        if op = .delete then S.remove (evt.map (· n)) else S.unary op (← ev n)) fs := by
  intro ctx b n
  unfold unaryCode
  by_cases hop : op = .delete
  · simp only [if_pos hop]
    cases ht with
    | none => exact .throw
    | some ht =>
      refine .bindLast (ht ctx b n) fun _ => .lowered (.act fun _ _ _ h _ _ _ => ?_)
      simp [effect?, h.1.1.2, h.1.2.2]
  · simp only [if_neg hop]
    exact .bindLast (he ctx b n) fun _ => .lowered (applyUnary_does (.last _ _))

theorem updateCode_does (op : Tree.UpdateOperator) (prefixed : Bool) {target : PlaceCode}
    {ev : Nat → StateM σ (Spot V)} (h : PlaceDoes S B target ev fs) :
    ExprDoes S B (updateCode op prefixed target) (fun n => do
        let spot ← ev n
        let old ← S.read spot
        let new ← S.perform (.binary (Scene.stepOperator op) old (← S.number 1))
        S.write new spot
        return if prefixed then new else old) fs := by
  intro ctx b n
  refine .bindLast (h ctx b n) fun p => ?_
  obtain ⟨block, place⟩ := p
  refine .bind (readPlace_does (.last _ _)) fun old => .bind (emitNumber_does 1) fun one =>
    .bind (.act fun _ _ _ h _ _ _ => ?_) fun new =>
    .bind (writePlace_does ?_ (.last _ _)) fun _ => .lowered (.value fun _ _ _ h _ _ _ => ?_)
  · have hop : (stepOp op).operator = Scene.stepOperator op := by cases op <;> rfl
    simp [effect?, h.1.2, h.2.1.2, hop]
  · exact (((Gives.last _ _).old _).old _).old _
  · cases prefixed with
    | true => simp [effect?, h.2.1.2]
    | false => simp [effect?, h.2.2.2.1.2]

theorem assignmentCode_does (op : Tree.AssignmentOperator) (loc : Option Location) {target : PlaceCode}
    {evt : Nat → StateM σ (Spot V)} {ev : Nat → StateM σ V} {ft fe : List Callable}
    (ht : PlaceDoes S B target evt ft) (he : ExprDoes S B right ev fe) :
    ExprDoes S B (assignmentCode op loc target right) (fun n => do
        let spot ← evt n
        match op with
        | .assign | .logical _ =>
          let v ← ev (n + ft.length)
          S.write v spot
          return v
        | .compound op =>
          let old ← S.read spot
          let v ← ev (n + ft.length)
          let new ← S.binary op old v
          S.write new spot
          return new) (ft ++ fe) := by
  intro ctx b n
  cases op with
  | logical op => exact .throw
  | assign =>
    refine .bind (ht ctx b n) fun p => ?_
    obtain ⟨block, place⟩ := p
    refine .bindLast (he ctx block _).part fun r => .bind (writePlace_does ?_ (.last _ _)) fun _ =>
      .lowered (.value fun _ _ _ h _ _ _ => ?_)
    · exact (Gives.last _ _).old _
    · simp [effect?, h.2.1.2]
  | compound op =>
    refine .bind (ht ctx b n) fun p => ?_
    obtain ⟨block, place⟩ := p
    refine .bindFirst (readPlace_does (.last _ _)) fun old => .bindLast (he ctx block _).part fun r =>
      .bind (applyBinary_does op ?_ (.last _ _)) fun value => .bind (writePlace_does ?_ (.last _ _))
      fun _ => .lowered (.value fun _ _ _ h _ _ _ => ?_)
    · exact (Gives.last _ _).old _
    · exact (((Gives.last _ _).old _).old _).old _
    · simp [effect?, h.2.1.2]

/-! ## Calls -/

theorem calleeCode_does {code : ExprCode} {ev : Nat → StateM σ V} (ht : TargetDoes? S B target evt fs)
    (he : ExprDoes S B code ev fs) (ctx : Ctx) (b : BlockId) (n : Nat) :
    Does S B ctx b n (.any Unit V) [] (calleeCode target code ctx b) Prod.fst
      (fun p => .two p.2.1 p.2.2)
      (fun _ => S.callee (evt.map (· n)) (ev n)) fs := by
  cases ht with
  | none =>
    refine .bindLast (he ctx b n) fun r => .bind (.act fun _ _ _ _ _ _ _ => rfl) fun _ => ?_
    exact .pure rfl fun _ _ _ h => ⟨h.2.1, h.1⟩
  | some ht =>
    refine .bindLast (ht ctx b n) fun t => .bind (.act fun _ _ _ h _ _ _ => ?_) fun _ => ?_
    · simp [effect?, h.1.1.2, h.1.2.2]
    · exact .pure rfl fun _ _ _ h => ⟨h.1, h.2.1.1⟩

theorem callCode_does {ev : Nat → StateM σ V} (ht : TargetDoes? S B target evt fs)
    (he : ExprDoes S B callee ev fs) (ha : ExprsDoes S B args eva fa) :
    ExprDoes S B (callCode target callee args) (fun n => do
        let c ← S.callee (evt.map (· n)) (ev n)
        let values ← eva (n + fs.length)
        S.callWith c.1 c.2 values) (fs ++ fa) := by
  intro ctx b n
  refine .bind (calleeCode_does ht he ctx b n) fun p => ?_
  obtain ⟨block, callee, receiver⟩ := p
  simp only [Scene.callWith, ← bind_assoc]
  refine .bindLast (argumentsCode_does ha ctx block _).part fun _ =>
    .lowered (.act fun _ _ _ h _ _ _ => ?_)
  simp [effect?, h.1.2, h.2.1.1.2, h.2.1.2.2]

theorem constructCode_does {ev : Nat → StateM σ V} (he : ExprDoes S B callee ev fs)
    (ha : ExprsDoes S B args eva fa) :
    ExprDoes S B (constructCode callee args) (fun n => do
        let callee ← ev n
        let values ← eva (n + fs.length)
        S.perform (.new callee (← S.perform (.array values)))) (fs ++ fa) := by
  intro ctx b n
  refine .bind (he ctx b n) fun c => ?_
  simp only [← bind_assoc]
  refine .bindLast (argumentsCode_does ha ctx c.block _).part fun _ =>
    .lowered (.act fun _ _ _ h _ _ _ => ?_)
  simp [effect?, h.1.2, h.2.1.2]

/-! ## Templates -/

theorem nextText_ok {loc : Option Location} {texts rest : List (Option String)}
    (h : nextText loc texts = .ok (text, rest)) :
    texts.head?.getD none = some text ∧ texts.tail = rest := by
  unfold nextText at h
  split at h
  · cases h
    exact ⟨rfl, rfl⟩
  · cases h

/-- The code of the expressions of a template adds them and the texts after them to a value. -/
inductive TemplateDoes (S : Setting V σ) (B : FunctionSpec) :
    List ExprCode → (Nat → List (Option String) → V → StateM σ V) → List Callable → Prop where
  | nil : TemplateDoes S B [] (fun _ _ v => pure v) []
  | cons {code codes ev evs fs gs} : ExprDoes S B code ev fs → TemplateDoes S B codes evs gs →
    TemplateDoes S B (code :: codes) (fun n texts v => do
        let r ← ev n
        let sum ← S.perform (.binary .add v r)
        let sum ← addText S.toScene (texts.head?.getD none) sum
        evs (n + fs.length) texts.tail sum) (fs ++ gs)

theorem evalTemplate_does {ev : Nat → List (Option String) → V → StateM σ V}
    (h : TemplateDoes S B codes ev fs) (loc : Option Location) {value : InstId} {v : ι → V}
    (hv : K.Gives (.register value) v) (b : BlockId) (n : Nat) (texts : List (Option String)) :
    Does S B ctx b n K [] (Lower.evalTemplate ctx loc b value texts codes) Lowered.block
      (fun r => .register r.value) (fun i => ev n texts (v i)) fs := by
  induction h generalizing ι b n value texts with
  | nil => exact .pure rfl hv
  | cons hcode _ ih =>
    refine .bind (hcode ctx b n).part fun r => .ofExcept_bind fun p hp => ?_
    obtain ⟨text, rest⟩ := p
    obtain ⟨hhead, htail⟩ := nextText_ok hp
    rw [hhead, htail]
    refine .bindFirst (.act fun _ _ _ h _ _ _ => ?_) fun sum => ?_
    · simp [effect?, h.1.2, (hv _ _ _ h.2).2, Code.BinaryOp.operator]
    · unfold addText
      by_cases hempty : text.isEmpty
      · simp only [if_pos hempty, pure_bind]
        exact ih (.last _ _) r.block _ rest
      · simp only [if_neg hempty, bind_assoc]
        refine .bindFirst (.act fun _ _ _ _ _ _ _ => rfl) fun t =>
          .bindFirst (.act fun _ _ _ h _ _ _ => ?_) fun sum' => ih (.last _ _) r.block _ rest
        simp [effect?, h.1.2, h.2.1.2, Code.BinaryOp.operator]

theorem templateCode_does {ev : Nat → List (Option String) → V → StateM σ V}
    (h : TemplateDoes S B codes ev fs) (texts : List (Option String)) (loc : Option Location) :
    ExprDoes S B (templateCode texts codes loc) (fun n => do
        ev n texts.tail (← S.perform (.string ((texts.head?.getD none).getD "")))) fs := by
  intro ctx b n
  refine .ofExcept_bind fun p hp => ?_
  obtain ⟨text, rest⟩ := p
  obtain ⟨hhead, htail⟩ := nextText_ok hp
  rw [hhead, htail]
  exact .bindFirst (.act fun _ _ _ _ _ _ _ => rfl) fun v =>
    evalTemplate_does h loc (.last _ _) b n rest

end ScriptIr.Run
