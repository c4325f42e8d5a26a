import Mathlib.Data.List.Forall2
import ScriptIr.Proofs.Lower.State
import ScriptIr.Proofs.Scope.Naming
import ScriptIr.Proofs.Tree.Lexical

/-!
# The layout of code under construction

Lowering gives each part of the code a purpose that the code itself does not spell out: every block is
entered in one scope, every scope belongs to a function, and every frame is opened by one instruction.
A `Layout` is the state of lowering together with these purposes.

* `Layout.Extends`: a layout in which more has been built; what is known of the code so far stays true
  in it (`Path.mono`, `Sealed.mono`, `Denotes.mono`).
-/
namespace ScriptIr

variable {i : Inst}

namespace Code.Inst

variable {j : Inst}

/-- Whether it opens or leaves frames. -/
def movesFrames : Inst → Bool
  | pushScope .. | popScope _ => true
  | _ => false

/-- Whether it is completed later by another instruction of its kind. -/
def isPatched : Inst → Bool
  | pushScope .. | phi _ => true
  | _ => false

/-- The captured slots that a frame or a closure is made with. -/
def captured : Inst → List InstId
  | func _ captured | arrow _ captured | pushScope _ captured => captured
  | _ => []

/-- Whether it only computes: it does not end its block, move frames, make a closure or a slot, or choose
between blocks. -/
def isPlain : Inst → Bool
  | ret _ | jump _ | branch .. | pushScope .. | popScope _ | func .. | arrow .. | phi _ | alloca =>
    false
  | _ => true

theorem isTerminator_of_isPlain (h : i.isPlain = true) : i.isTerminator = false := by
  cases i <;> first | rfl | cases h

theorem movesFrames_of_isPlain (h : i.isPlain = true) : i.movesFrames = false := by
  cases i <;> first | rfl | cases h

theorem closure?_of_isPlain (h : i.isPlain = true) : i.closure? = none := by
  cases i <;> first | rfl | cases h

theorem filterMap_value (ids : List InstId) :
    (ids.map Field.value).filterMap (fun | .value id => some id | _ => none) = ids := by
  induction ids with
  | nil => rfl
  | cons id ids ih => exact congrArg (id :: ·) ih

theorem filterMap_value_block (ids : List InstId) :
    (ids.map Field.value).filterMap (fun | .block id => some id | _ => none) = ([] : List BlockId) := by
  induction ids with
  | nil => rfl
  | cons id ids ih => exact ih

theorem blockRefs_of_isPlain (h : i.isPlain = true) : i.blockRefs = [] := by
  cases i with
  | array elements => exact filterMap_value_block elements
  | object props =>
    induction props with
    | nil => rfl
    | cons e props ih => exact ih rfl
  | _ => first | rfl | cases h

theorem operands_array (elements : List InstId) : (array elements).operands = elements :=
  filterMap_value elements

theorem operands_pushScope (size : UInt32) (captured : List InstId) :
    (pushScope size captured).operands = captured :=
  filterMap_value captured

theorem operands_func (id : FuncId) (captured : List InstId) : (func id captured).operands = captured :=
  filterMap_value captured

theorem operands_arrow (id : FuncId) (captured : List InstId) : (arrow id captured).operands = captured :=
  filterMap_value captured

theorem operands_object (props : List (InstId × InstId)) :
    (object props).operands = props.flatMap fun e => [e.1, e.2] := by
  induction props with
  | nil => rfl
  | cons e props ih => exact congrArg (e.1 :: e.2 :: ·) ih

theorem operands_phi (incoming : List (BlockId × InstId)) :
    (phi incoming).operands = incoming.map (·.2) := by
  induction incoming with
  | nil => rfl
  | cons e incoming ih => exact congrArg (e.2 :: ·) ih

theorem blockRefs_phi (incoming : List (BlockId × InstId)) :
    (phi incoming).blockRefs = incoming.map (·.1) := by
  induction incoming with
  | nil => rfl
  | cons e incoming ih => exact congrArg (e.1 :: ·) ih

/-- What may stand in the place of an instruction later: itself, or the completed instruction. -/
inductive Becomes : Inst → Inst → Prop where
  | same (i : Inst) : Becomes i i
  | pushScope (size size' : UInt32) (captured captured' : List InstId) :
      Becomes (.pushScope size captured) (.pushScope size' captured')
  | phi (incoming incoming' : List (BlockId × InstId)) : Becomes (.phi incoming) (.phi incoming')

namespace Becomes

section

variable (h : i.Becomes j)
include h

theorem eq (hi : i.isPatched = false) : j = i := by
  cases h with
  | same => rfl
  | pushScope | phi => cases hi

theorem trans {l : Inst} (h' : j.Becomes l) : i.Becomes l := by
  cases h with
  | same => exact h'
  | pushScope size size' captured captured' =>
    cases h' with
    | same => exact .pushScope ..
    | pushScope => exact .pushScope ..
  | phi incoming incoming' =>
    cases h' with
    | same => exact .phi ..
    | phi => exact .phi ..

theorem hasValue : j.hasValue = i.hasValue := by
  cases h <;> rfl

theorem isTerminator : j.isTerminator = i.isTerminator := by
  cases h <;> rfl

theorem movesFrames : j.movesFrames = i.movesFrames := by
  cases h <;> rfl

end

end Becomes

end Code.Inst

namespace Lower

open Code List Scope

/-- Code under construction, with the purpose of its parts. -/
structure Layout extends State where
  /-- The scope in which a block is entered. -/
  entry : Nat → BlockId → ScopeId
  /-- The function that a scope belongs to. -/
  home : ScopeId → Nat
  /-- The names that are parameters of the function whose body a scope is. -/
  positions : ScopeId → Tree.Positions
  /-- The instruction that opens the frame of a block scope. -/
  frame : ScopeId → Option InstId
  /-- What names mean in a scope, once it has all its names. -/
  env : ScopeId → Option Tree.Env
  /-- The instruction that makes the closure of a function. -/
  maker : Nat → Option (Nat × InstId)

namespace Layout

variable {f : Nat} {k l : ScopeId} {v : InstId} {vs : List InstId} {name : String} (p : Layout)

def own? (k : ScopeId) (name : String) : Option Slot := (p.scopes.get k).own? name

def parent? (k : ScopeId) : Option ScopeId := (p.scopes.get k).parent

/-- Whether a scope is the body of a function. -/
def kind (k : ScopeId) : Scope.Kind := (p.scopes.get k).kind

def scopeCount : Nat := p.scopes.scopes.size

/-- An instruction whose value can be used. -/
def Valued (f : Nat) (v : InstId) : Prop :=
  ∃ i, p.inst? f v = some i ∧ i.hasValue = true

def HasBlock (f : Nat) (b : BlockId) (k : ScopeId) : Prop :=
  b < p.blockCount f ∧ p.entry f b = k

def HasLocal (k : ScopeId) (name : String) : Prop :=
  (p.scopes.get k).locals.has name = true

def HasFunction (id : FuncId) : Prop := ∃ g F, p.fn? g = some F ∧ F.id = id

def Opens (k : ScopeId) (v : InstId) : Prop :=
  k < p.scopeCount ∧ ∃ size captured, p.inst? (p.home k) v = some (.pushScope size captured)

/-- What an instruction refers to is there. -/
structure Refers (p : Layout) (f : Nat) (i : Inst) : Prop where
  operands : ∀ o ∈ i.operands, p.Valued f o
  blocks : ∀ t ∈ i.blockRefs, t < p.blockCount f
  closure : ∀ id, i.closure? = some id → p.HasFunction id

/-! ## Blocks -/

/-- An instruction of function `f` that leads from one scope to another and does not end its block. -/
inductive Moves (p : Layout) (f : Nat) : ScopeId → InstId → ScopeId → Prop where
  | stay {k : ScopeId} {v : InstId} {i : Inst} : p.inst? f v = some i → i.isTerminator = false →
      i.movesFrames = false → Moves p f k v k
  | push {k inner : ScopeId} {v : InstId} {size : UInt32} {captured : List InstId} :
      p.inst? f v = some (.pushScope size captured) → p.kind inner = .block →
      p.parent? inner = some k → p.home inner = f → p.frame inner = some v → Moves p f k v inner
  | pop {k outer : ScopeId} {v : InstId} {n : Nat} : p.inst? f v = some (.popScope n.toUInt32) →
      n ≤ p.blockCount f → p.scopes.Above n k outer → Moves p f k v outer

/-- Instructions of function `f` that lead from one scope to another, one after the other. -/
inductive Path (p : Layout) (f : Nat) : ScopeId → List InstId → ScopeId → Prop where
  | nil (k : ScopeId) : Path p f k [] k
  | cons {k l m : ScopeId} {v : InstId} {vs : List InstId} :
      p.Moves f k v l → Path p f l vs m → Path p f k (v :: vs) m

/-- An instruction that ends its block in scope `k`: control goes on in a block that is entered in that
scope, or leaves the function from its body. -/
def Ends (f : Nat) (v : InstId) (k : ScopeId) : Prop :=
  ∃ i, p.inst? f v = some i ∧ i.isTerminator = true ∧ (∀ t ∈ i.successors, p.HasBlock f t k) ∧
    (i.successors = [] → k < p.scopeCount ∧ p.kind k = .function)

def Sealed (f : Nat) (k : ScopeId) (ids : List InstId) : Prop :=
  ∃ body last l, ids = body ++ [last] ∧ p.Path f k body l ∧ p.Ends f last l

/-- An instruction of block `b` that stands where scope `k` is the innermost one. -/
def SiteIn (f : Nat) (b : BlockId) (v : InstId) (k : ScopeId) : Prop :=
  ∃ before after, p.block? f b = some (before ++ v :: after) ∧ p.Path f (p.entry f b) before k

def Site (f : Nat) (v : InstId) (k : ScopeId) : Prop := ∃ b, p.SiteIn f b v k

/-- A slot that stands where its scope is the innermost one, and in the block that opens the frame of the
scope if it has a frame. -/
structure Allots (p : Layout) (f : Nat) (v : InstId) (k : ScopeId) : Prop where
  scope : k < p.scopeCount
  home : p.home k = f
  site : ∃ b, p.SiteIn f b v k ∧ (p.kind k = .block → p.parent? k = some (p.entry f b))

theorem Path.snoc {p : Layout} {m : ScopeId} (h : p.Path f k vs l) (hv : p.Moves f l v m) :
    p.Path f k (vs ++ [v]) m := by
  induction h with
  | nil k => exact .cons hv (.nil m)
  | cons hstep _ ih => exact .cons hstep (ih hv)

/-! ## Addresses -/

/-- An instruction that is the address of a name seen from scope `k`: the slot of the name if the scope
declares it, and otherwise the capture of the name. -/
inductive Denotes (p : Layout) (f : Nat) (v : InstId) (k : ScopeId) (name : String) : Prop where
  | cell : p.own? k name = some (.cell v) → Denotes p f v k name
  | parameter (i : Nat) : p.own? k name = some (.parameter i) →
      p.inst? f v = some (.arg i.toUInt32) → Denotes p f v k name
  | capture (i : Nat) (c : Capture) : p.own? k name = none → (p.scopes.captures k)[i]? = some c →
      c.name = name → p.inst? f v = some (.capture i.toUInt32) → p.Site f v k →
      Denotes p f v k name

/-- A scope has a number of names. -/
def Counts (k : ScopeId) (n : Nat) : Prop :=
  ∃ names : List String, names.Nodup ∧ names.length = n ∧ ∀ name, (p.own? k name).isSome ↔ name ∈ names

/-- The instruction that opens the frame of a scope or makes the closure of its function, and the slots
that the scope captures. A frame has room for the names of its scope. A closure is made where the scope
around it is the innermost one. -/
inductive Opener (p : Layout) (k : ScopeId) : Nat → InstId → List InstId → Prop where
  | frame {v : InstId} {n : Nat} {captured : List InstId} : p.kind k = .block →
      p.frame k = some v → p.inst? (p.home k) v = some (.pushScope n.toUInt32 captured) →
      p.Counts k n → Opener p k (p.home k) v captured
  | closure {f : Nat} {v : InstId} {i : Inst} {F : Code.Function} {outer : ScopeId} :
      p.kind k = .function → p.fn? (p.home k) = some F → p.maker (p.home k) = some (f, v) →
      p.inst? f v = some i → i.closure? = some F.id → p.parent? k = some outer →
      p.Site f v outer → Opener p k f v i.captured

/-- A scope inside `outer` that is finished: each slot that it captures is the address of the captured
name in `outer`. -/
def Closed (k outer : ScopeId) : Prop :=
  ∃ f v captured, p.Opener k f v captured ∧ f = p.home outer ∧
    Forall₂ (fun w c => p.Denotes f w outer c.name) captured (p.scopes.captures k)

def Resolves (use : Use) (ref : Tree.Reference) : Prop :=
  use.name = ref.name ∧ ∃ k env, k < p.scopeCount ∧ p.env k = some env ∧ p.home k = use.func ∧
    env ref.name = ref.origin ∧
    (ref.origin = none ∧ p.inst? use.func use.address = some (.getGlobal ref.name) ∨
      p.Denotes use.func use.address k ref.name)

/-! ## Growth -/

/-- A layout is kept by a later one, which may have more. -/
structure Extends (strict : Prop) (p q : Layout) : Prop where
  fn : ∀ g F, p.fn? g = some F → ∃ G, q.fn? g = some G ∧ G.id = F.id
  inst : ∀ f v i, p.inst? f v = some i → ∃ j, q.inst? f v = some j ∧ i.Becomes j
  block : ∀ f b ids, p.block? f b = some ids → ∃ more, q.block? f b = some (ids ++ more)
  entry : ∀ f b, b < p.blockCount f → q.entry f b = p.entry f b
  size : p.scopeCount ≤ q.scopeCount
  parent : ∀ k, k < p.scopeCount → q.parent? k = p.parent? k
  kind : ∀ k, k < p.scopeCount → q.kind k = p.kind k
  home : ∀ k, k < p.scopeCount → q.home k = p.home k
  positions : ∀ k, k < p.scopeCount → q.positions k = p.positions k
  own : ∀ k name slot, p.own? k name = some slot → q.own? k name = some slot
  hasLocal : ∀ k name, p.HasLocal k name → q.HasLocal k name
  captures : ∀ k, p.scopes.captures k <+: q.scopes.captures k
  frame : ∀ k v, p.frame k = some v → q.frame k = some v
  env : ∀ k env, p.env k = some env → q.env k = some env
  frozen : strict → ∀ k name, p.env k ≠ none → q.own? k name = p.own? k name
  maker : ∀ g site, p.maker g = some site → q.maker g = some site

variable {strict : Prop} {p q r : Layout}

theorem Extends.refl (p : Layout) : p.Extends strict p where
  fn _ F h := ⟨F, h, rfl⟩
  inst _ _ i h := ⟨i, h, .same i⟩
  block _ _ ids h := ⟨[], by rw [append_nil]; exact h⟩
  entry _ _ _ := rfl
  size := Nat.le_refl _
  parent _ _ := rfl
  kind _ _ := rfl
  home _ _ := rfl
  positions _ _ := rfl
  own _ _ _ h := h
  hasLocal _ _ h := h
  captures _ := prefix_rfl
  frame _ _ h := h
  env _ _ h := h
  frozen _ _ _ _ := rfl
  maker _ _ h := h

section

variable (h : p.Extends strict q)
include h

theorem Extends.blockCount (f : Nat) : p.blockCount f ≤ q.blockCount f := by
  by_contra hlt
  obtain ⟨ids, hids⟩ := State.block?_isSome (Nat.not_le.mp hlt)
  obtain ⟨more, hmore⟩ := h.block f _ ids hids
  exact Nat.lt_irrefl _ (State.lt_blockCount hmore)

theorem Extends.fnCount (hf : f < p.fnCount) : f < q.fnCount := by
  obtain ⟨F, hF⟩ := State.fn?_isSome hf
  obtain ⟨G, hG, _⟩ := h.fn f F hF
  exact State.lt_fnCount hG

theorem Extends.trans (h' : q.Extends strict r) : p.Extends strict r where
  fn g F hF := by
    obtain ⟨G, hG, hid⟩ := h.fn g F hF
    obtain ⟨H, hH, hid'⟩ := h'.fn g G hG
    exact ⟨H, hH, hid'.trans hid⟩
  inst f v i hi := by
    obtain ⟨j, hj, hij⟩ := h.inst f v i hi
    obtain ⟨l, hl, hjl⟩ := h'.inst f v j hj
    exact ⟨l, hl, hij.trans hjl⟩
  block f b ids hids := by
    obtain ⟨more, hmore⟩ := h.block f b ids hids
    obtain ⟨more', hmore'⟩ := h'.block f b _ hmore
    exact ⟨more ++ more', by rw [hmore', append_assoc]⟩
  entry f b hb := (h'.entry f b (Nat.lt_of_lt_of_le hb (h.blockCount f))).trans (h.entry f b hb)
  size := Nat.le_trans h.size h'.size
  parent k hk := (h'.parent k (Nat.lt_of_lt_of_le hk h.size)).trans (h.parent k hk)
  kind k hk := (h'.kind k (Nat.lt_of_lt_of_le hk h.size)).trans (h.kind k hk)
  home k hk := (h'.home k (Nat.lt_of_lt_of_le hk h.size)).trans (h.home k hk)
  positions k hk := (h'.positions k (Nat.lt_of_lt_of_le hk h.size)).trans (h.positions k hk)
  own k name slot ho := h'.own k name slot (h.own k name slot ho)
  hasLocal k name hl := h'.hasLocal k name (h.hasLocal k name hl)
  captures k := (h.captures k).trans (h'.captures k)
  frame k v hv := h'.frame k v (h.frame k v hv)
  env k env he := h'.env k env (h.env k env he)
  frozen hs k name hk := by
    obtain ⟨env, he⟩ := Option.ne_none_iff_exists'.mp hk
    rw [h'.frozen hs k name (by rw [h.env k env he]; exact Option.some_ne_none env)]
    exact h.frozen hs k name hk
  maker g site hg := h'.maker g site (h.maker g site hg)

/-! ## What stays true -/

theorem Extends.inst_eq (hi : p.inst? f v = some i) (hp : i.isPatched = false) : q.inst? f v = some i := by
  obtain ⟨j, hj, hij⟩ := h.inst f v i hi
  rw [hj, hij.eq hp]

end

theorem Valued.mono (hv : p.Valued f v) (h : p.Extends strict q) : q.Valued f v := by
  obtain ⟨i, hi, hval⟩ := hv
  obtain ⟨j, hj, hij⟩ := h.inst f v i hi
  exact ⟨j, hj, hij.hasValue.trans hval⟩

theorem HasBlock.mono {b : BlockId} (hb : p.HasBlock f b k) (h : p.Extends strict q) :
    q.HasBlock f b k :=
  ⟨Nat.lt_of_lt_of_le hb.1 (h.blockCount f), (h.entry f b hb.1).trans hb.2⟩

theorem Opens.mono (hv : p.Opens k v) (h : p.Extends strict q) : q.Opens k v := by
  obtain ⟨hk, size, captured, hi⟩ := hv
  obtain ⟨j, hj, hij⟩ := h.inst _ v _ hi
  refine ⟨Nat.lt_of_lt_of_le hk h.size, ?_⟩
  rw [h.home k hk]
  cases hij with
  | same => exact ⟨size, captured, hj⟩
  | pushScope _ size' _ captured' => exact ⟨size', captured', hj⟩

theorem HasFunction.mono {id : FuncId} (hid : p.HasFunction id) (h : p.Extends strict q) :
    q.HasFunction id := by
  obtain ⟨g, F, hF, rfl⟩ := hid
  obtain ⟨G, hG, hG'⟩ := h.fn g F hF
  exact ⟨g, G, hG, hG'⟩

theorem Refers.mono (hi : p.Refers f i) (h : p.Extends strict q) : q.Refers f i where
  operands o ho := (hi.operands o ho).mono h
  blocks t ht := Nat.lt_of_lt_of_le (hi.blocks t ht) (h.blockCount f)
  closure id hid := (hi.closure id hid).mono h

theorem lt_scopeCount (hk : p.kind k = .block) : k < p.scopeCount :=
  Arena.lt_size_of_kind hk

theorem lt_of_own? {slot : Slot} (h : p.own? k name = some slot) : k < p.scopeCount := by
  rcases Nat.lt_or_ge k p.scopeCount with hk | hk
  · exact hk
  · unfold own? at h
    rw [Arena.get_of_size_le hk] at h
    cases h

section

variable (h : p.Extends strict q)
include h

theorem Extends.above {n : Nat} (hkl : p.scopes.Above n k l) : q.scopes.Above n k l := by
  induction hkl with
  | refl k => exact .refl k
  | step hk hp hlt _ ih =>
    have hlt' := lt_scopeCount hk
    exact .step ((h.kind _ hlt').trans hk) ((h.parent _ hlt').trans hp) hlt ih

theorem Extends.chain (hk : k < p.scopeCount) : q.scopes.chain k = p.scopes.chain k :=
  Arena.chain_congr fun x hx => h.parent x (Nat.lt_of_le_of_lt hx hk)

theorem Extends.scopesToFunction (hk : k < p.scopeCount) :
    q.scopes.scopesToFunction k = p.scopes.scopesToFunction k := by
  unfold Arena.scopesToFunction
  rw [h.chain hk]
  have hkind : ∀ x ∈ p.scopes.chain k, (q.scopes.get x).kind = (p.scopes.get x).kind := fun x hx =>
    h.kind x (Nat.lt_of_le_of_lt (Arena.le_of_mem_chain hx) hk)
  generalize p.scopes.chain k = along at hkind
  induction along with
  | nil => rfl
  | cons x along ih =>
    rw [takeWhile_cons, takeWhile_cons, hkind x (mem_cons_self ..)]
    split
    · rw [length_cons, length_cons, ih fun y hy => hkind y (mem_cons_of_mem x hy)]
    · rfl

end

theorem Moves.mono (hv : p.Moves f k v l) (h : p.Extends strict q) : q.Moves f k v l := by
  cases hv with
  | stay hi hterm hmove =>
    obtain ⟨j, hj, hij⟩ := h.inst f v _ hi
    exact .stay hj (hij.isTerminator.trans hterm) (hij.movesFrames.trans hmove)
  | push hi hk hp hhome hframe =>
    obtain ⟨j, hj, hij⟩ := h.inst f v _ hi
    have hlt := lt_scopeCount hk
    cases hij with
    | same | pushScope =>
      exact .push hj ((h.kind _ hlt).trans hk) ((h.parent _ hlt).trans hp)
        ((h.home _ hlt).trans hhome) (h.frame _ _ hframe)
  | pop hi hn hkl =>
    exact .pop (h.inst_eq hi rfl) (Nat.le_trans hn (h.blockCount f)) (h.above hkl)

theorem Path.mono (hvs : p.Path f k vs l) (h : p.Extends strict q) : q.Path f k vs l := by
  induction hvs with
  | nil k => exact .nil k
  | cons hv _ ih => exact .cons (hv.mono h) ih

theorem Ends.mono (hv : p.Ends f v k) (h : p.Extends strict q) : q.Ends f v k := by
  obtain ⟨i, hi, hterm, hsucc, hret⟩ := hv
  have hpatched : i.isPatched = false := by cases i <;> first | rfl | cases hterm
  refine ⟨i, h.inst_eq hi hpatched, hterm, fun t ht => (hsucc t ht).mono h, fun hnil => ?_⟩
  obtain ⟨hlt, hkind⟩ := hret hnil
  exact ⟨Nat.lt_of_lt_of_le hlt h.size, (h.kind k hlt).trans hkind⟩

theorem Sealed.mono {ids : List InstId} (hs : p.Sealed f k ids) (h : p.Extends strict q) :
    q.Sealed f k ids := by
  obtain ⟨body, last, l, hids, hpath, hends⟩ := hs
  exact ⟨body, last, l, hids, hpath.mono h, hends.mono h⟩

theorem SiteIn.mono {b : BlockId} (hv : p.SiteIn f b v k) (h : p.Extends strict q) :
    q.SiteIn f b v k := by
  obtain ⟨before, after, hb, hpath⟩ := hv
  obtain ⟨more, hmore⟩ := h.block f b _ hb
  refine ⟨before, after ++ more, ?_, ?_⟩
  · rw [hmore, append_assoc, cons_append]
  · rw [h.entry f b (State.lt_blockCount hb)]
    exact hpath.mono h

theorem Site.mono (hv : p.Site f v k) (h : p.Extends strict q) : q.Site f v k :=
  hv.imp fun _ hb => hb.mono h

theorem Allots.mono (hv : p.Allots f v k) (h : p.Extends strict q) : q.Allots f v k := by
  obtain ⟨b, hsite, hparent⟩ := hv.site
  refine ⟨Nat.lt_of_lt_of_le hv.scope h.size, (h.home k hv.scope).trans hv.home, b, hsite.mono h, ?_⟩
  obtain ⟨_, _, hb, _⟩ := hsite
  rw [h.kind k hv.scope, h.parent k hv.scope, h.entry f b (State.lt_blockCount hb)]
  exact hparent

theorem Denotes.mono (hv : p.Denotes f v k name) (h : p.Extends strict q) (hs : strict)
    (hk : p.env k ≠ none) : q.Denotes f v k name := by
  have hown := h.frozen hs k name hk
  cases hv with
  | cell ho => exact .cell (hown.trans ho)
  | parameter i ho hi => exact .parameter i (hown.trans ho) (h.inst_eq hi rfl)
  | capture i c ho hc hname hi hsite =>
    obtain ⟨more, hmore⟩ := h.captures k
    refine .capture i c (hown.trans ho) ?_ hname (h.inst_eq hi rfl) (hsite.mono h)
    rw [← hmore, List.getElem?_append_left (List.getElem?_eq_some_iff.mp hc).1]
    exact hc

theorem Closed.mono {outer : ScopeId} (hk : p.Closed k outer) (h : p.Extends strict q) (hs : strict)
    (houter : outer < p.scopeCount) (henv : p.env outer ≠ none)
    (hcaptures : q.scopes.captures k = p.scopes.captures k)
    (hopen : ∀ f v captured, p.Opener k f v captured → q.Opener k f v captured) :
    q.Closed k outer := by
  obtain ⟨f, v, captured, ho, hf, hall⟩ := hk
  refine ⟨f, v, captured, hopen f v captured ho, hf.trans (h.home outer houter).symm, ?_⟩
  rw [hcaptures]
  exact hall.imp fun w c hw => hw.mono h hs henv

theorem Resolves.mono {use : Use} {ref : Tree.Reference} (hu : p.Resolves use ref)
    (h : p.Extends strict q) (hs : strict) : q.Resolves use ref := by
  obtain ⟨hname, k, env, hk, he, hhome, href, haddr⟩ := hu
  refine ⟨hname, k, env, Nat.lt_of_lt_of_le hk h.size, h.env k env he, (h.home k hk).trans hhome, href, ?_⟩
  rcases haddr with ⟨hnone, hi⟩ | hd
  · exact .inl ⟨hnone, h.inst_eq hi rfl⟩
  · exact .inr (hd.mono h hs (by rw [he]; exact Option.some_ne_none env))

theorem Opener.mono {captured : List InstId} (ho : p.Opener k f v captured) (h : p.Extends strict q)
    (hk : k < p.scopeCount) (hown : q.own? k = p.own? k)
    (hsame : ∀ i, p.inst? f v = some i → q.inst? f v = some i) : q.Opener k f v captured := by
  cases ho with
  | frame hkind hframe hi hcount =>
    have hi' := hsame _ hi
    rw [← h.home k hk] at hi' ⊢
    unfold Counts at hcount
    rw [← hown] at hcount
    exact .frame ((h.kind k hk).trans hkind) (h.frame k v hframe) hi' hcount
  | closure hkind hF hmaker hi hclosure hparent hsite =>
    obtain ⟨G, hG, hid⟩ := h.fn _ _ hF
    refine .closure ((h.kind k hk).trans hkind) ?_ ?_ (hsame _ hi) (hclosure.trans (by rw [hid]))
      ((h.parent k hk).trans hparent) (hsite.mono h)
    · rw [h.home k hk]
      exact hG
    · rw [h.home k hk]
      exact h.maker _ _ hmaker

end Layout

end Lower

end ScriptIr
