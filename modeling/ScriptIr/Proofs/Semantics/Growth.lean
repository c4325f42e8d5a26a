import ScriptIr.Proofs.Lower.State
import ScriptIr.Proofs.Scope.Naming
import ScriptIr.Proofs.Semantics.Source

/-!
# What lowering leaves alone

The code of a part of the program goes to the end of one block and to new blocks, so all other code
stays as it is, and so do the registers that this code sets. Names are captured along the chain of
scopes only, and functions that are finished do not change.
-/
namespace ScriptIr

open Code List

/-- What is known of functions: their position, their code and the part of the tree they come from. -/
abbrev FunctionSpec := Nat → Function → Tree.Callable → Prop

/-! ## Scopes -/

namespace Scope.Arena

variable {a b : Arena} {k : ScopeId}

def bodies (a : Arena) : List ScopeId :=
  (range a.scopes.size).filter fun k => (a.get k).kind == .function

def capturedBy (a : Arena) (g : Nat) : List String :=
  match a.bodies[g]? with
  | some k => (a.captures k).map (·.name)
  | none => []

/-- An arena in which code in scope `k` has been lowered: there may be more scopes, and the scopes
around `k` may have captured more names. Scope `k` may have got names if `free` is set. -/
structure Grows (k : ScopeId) (free : Prop) (a b : Arena) : Prop where
  size : a.scopes.size ≤ b.scopes.size
  sound : a.Sound → b.Sound
  parent : ∀ l < a.scopes.size, (b.get l).parent = (a.get l).parent
  kind : ∀ l < a.scopes.size, (b.get l).kind = (a.get l).kind
  breakTarget : ∀ l < a.scopes.size, (b.get l).breakTarget = (a.get l).breakTarget
  continueTarget : ∀ l < a.scopes.size, (b.get l).continueTarget = (a.get l).continueTarget
  captures : ∀ l < a.scopes.size, a.captures l <+: b.captures l
  closed : ∀ l < a.scopes.size, l ∉ a.chain k → b.captures l = a.captures l
  own : ∀ l < a.scopes.size, (free → l ≠ k) → (b.get l).own? = (a.get l).own?
  hasLocal : ∀ l < a.scopes.size, ∀ name, a.hasLocal l name = true → b.hasLocal l name = true

namespace Grows

variable {c : Arena} {l : ScopeId} {free free' : Prop}

theorem refl (a : Arena) (k : ScopeId) (free : Prop) : a.Grows k free a where
  size := le_rfl
  sound h := h
  parent _ _ := rfl
  kind _ _ := rfl
  breakTarget _ _ := rfl
  continueTarget _ _ := rfl
  captures _ _ := prefix_rfl
  closed _ _ _ := rfl
  own _ _ _ := rfl
  hasLocal _ _ _ h := h

section

variable (h : a.Grows k free b)
include h

theorem chain (hl : l < a.scopes.size) : b.chain l = a.chain l :=
  chain_congr fun x hx => h.parent x (Nat.lt_of_le_of_lt hx hl)

theorem trans (h' : b.Grows l free' c) (hchain : ∀ x ∈ b.chain l, x < a.scopes.size → x ∈ a.chain k)
    (hfree : free' → l < a.scopes.size → l = k ∧ free) : a.Grows k free c where
  size := Nat.le_trans h.size h'.size
  sound hs := h'.sound (h.sound hs)
  parent x hx := (h'.parent x (Nat.lt_of_lt_of_le hx h.size)).trans (h.parent x hx)
  kind x hx := (h'.kind x (Nat.lt_of_lt_of_le hx h.size)).trans (h.kind x hx)
  breakTarget x hx := (h'.breakTarget x (Nat.lt_of_lt_of_le hx h.size)).trans (h.breakTarget x hx)
  continueTarget x hx :=
    (h'.continueTarget x (Nat.lt_of_lt_of_le hx h.size)).trans (h.continueTarget x hx)
  captures x hx := (h.captures x hx).trans (h'.captures x (Nat.lt_of_lt_of_le hx h.size))
  closed x hx hnot :=
    (h'.closed x (Nat.lt_of_lt_of_le hx h.size) fun hm => hnot (hchain x hm hx)).trans (h.closed x hx hnot)
  own x hx hne := by
    refine (h'.own x (Nat.lt_of_lt_of_le hx h.size) fun hf hxl => ?_).trans (h.own x hx hne)
    subst hxl
    obtain ⟨hk, hfr⟩ := hfree hf hx
    exact hne hfr hk
  hasLocal x hx name hn := h'.hasLocal x (Nat.lt_of_lt_of_le hx h.size) name (h.hasLocal x hx name hn)

theorem weaken (hfree : free → free') : a.Grows k free' b :=
  { h with own := fun l hl hne => h.own l hl fun hf => hne (hfree hf) }

/-- The functions that were there keep their numbers. -/
theorem bodies : a.bodies <+: b.bodies := by
  obtain ⟨n, hn⟩ := Nat.exists_eq_add_of_le h.size
  refine ⟨((range n).map (a.scopes.size + ·)).filter fun k => (b.get k).kind == .function, ?_⟩
  unfold Arena.bodies
  rw [hn, range_add, filter_append]
  congr 1
  refine filter_congr fun x hx => ?_
  rw [h.kind x (mem_range.mp hx)]

theorem capturedBy {g : Nat} (hg : a.bodies[g]? = some l)
    (hl : l ∉ a.chain k) : b.capturedBy g = (a.captures l).map (·.name) := by
  obtain ⟨more, hmore⟩ := h.bodies
  have hlt : l < a.scopes.size :=
    List.mem_range.mp (List.mem_of_mem_filter (List.mem_of_getElem? hg))
  unfold Arena.capturedBy
  rw [← hmore, List.getElem?_append_left (List.getElem?_eq_some_iff.mp hg).1, hg]
  simp only [h.closed l hlt hl]

end

end Grows

/-- Looking a name up captures names along the chain. -/
theorem Captured.grows (h : a.Captured (a.chain k) b) (hs : a.Sound → b.Sound) (free : Prop) :
    a.Grows k free b where
  size := Nat.le_of_eq h.size.symm
  sound := hs
  parent l _ := h.parent l
  kind l _ := by
    obtain ⟨more, index, hx, _⟩ := h.get l
    rw [hx]
  breakTarget l _ := by
    obtain ⟨more, index, hx, _⟩ := h.get l
    rw [hx]
  continueTarget l _ := by
    obtain ⟨more, index, hx, _⟩ := h.get l
    rw [hx]
  captures l _ := by
    obtain ⟨more, index, hx, _⟩ := h.get l
    unfold Arena.captures
    rw [hx]
    exact prefix_append _ _
  closed l _ hl := by
    obtain ⟨more, index, hx, hm⟩ := h.get l
    unfold Arena.captures
    rw [hx]
    cases more with
    | nil => exact append_nil _
    | cons c cs => exact absurd (hm (cons_ne_nil c cs)) hl
  own l _ _ := h.own? l
  hasLocal l _ name hn := by
    obtain ⟨more, index, hx, _⟩ := h.get l
    unfold Arena.hasLocal
    rw [hx]
    exact hn

theorem grows_push (a : Arena) {parent : Option ScopeId} (kind : Kind)
    (hparent : ∀ outer, parent = some outer → outer < a.scopes.size) (k : ScopeId) (free : Prop) :
    a.Grows k free (a.push parent kind).2 := by
  have hold : ∀ l < a.scopes.size, (a.push parent kind).2.get l = a.get l := fun l hl => by
    rw [get_push, if_neg (Nat.ne_of_lt hl)]
  refine ⟨by rw [size_push]; omega, fun hs => sound_push hs kind hparent, ?_, ?_, ?_, ?_, ?_, ?_, ?_, ?_⟩
  · exact fun l hl => by rw [hold l hl]
  · exact fun l hl => by rw [hold l hl]
  · exact fun l hl => by rw [hold l hl]
  · exact fun l hl => by rw [hold l hl]
  · intro l hl
    unfold Arena.captures
    simp only [hold l hl, prefix_rfl]
  · intro l hl _
    unfold Arena.captures
    rw [hold l hl]
  · exact fun l hl _ => by rw [hold l hl]
  · intro l hl name hn
    unfold Arena.hasLocal
    rw [hold l hl]
    exact hn

theorem Replaced.grows {new : Scope} (h : a.Replaced k new b) (hparent : new.parent = (a.get k).parent)
    (hkind : new.kind = (a.get k).kind) (hbreak : new.breakTarget = (a.get k).breakTarget)
    (hcontinue : new.continueTarget = (a.get k).continueTarget)
    (hcaptures : new.SameCaptures (a.get k))
    (hknown : ∀ name, ((a.get k).own? name).isSome → (new.own? name).isSome)
    (hlocal : ∀ name, (a.get k).locals.has name = true → new.locals.has name = true) :
    a.Grows k True b := by
  have hget : ∀ {α : Sort _} (f : Scope → α), f new = f (a.get k) → ∀ l, f (b.get l) = f (a.get l) := by
    intro α f hf l
    by_cases hl : l = k
    · rw [hl, h.here, hf]
    · rw [h.other l hl]
  refine ⟨Nat.le_of_eq h.size.symm, fun hs => hs.replaced h hparent hcaptures hknown, ?_, ?_, ?_, ?_,
    ?_, ?_, ?_, ?_⟩
  · exact fun l _ => hget (·.parent) hparent l
  · exact fun l _ => hget (·.kind) hkind l
  · exact fun l _ => hget (·.breakTarget) hbreak l
  · exact fun l _ => hget (·.continueTarget) hcontinue l
  · intro l _
    unfold Arena.captures
    simp only [hget (·.captures) hcaptures.1 l, prefix_rfl]
  · exact fun l _ _ => hget (·.captures) hcaptures.1 l
  · exact fun l _ hne => by rw [h.other l (hne trivial)]
  · intro l _ name hn
    unfold Arena.hasLocal at hn ⊢
    by_cases hl : l = k
    · subst hl
      rw [h.here]
      exact hlocal name hn
    · rw [h.other l hl]
      exact hn

end Scope.Arena

namespace Lower

open Scope
open ScriptIr.Tree (Callable)

variable {s t : State} {ids : List InstId} {c : Nat} {i : Inst} {v : InstId} {ctx : Ctx}

/-! ## Code -/

namespace State

variable {f b : Nat}

/-- How many instructions a block has. -/
def len (s : State) (f : Nat) (b : Nat) : Nat := ((s.block? f b).getD []).length

theorem len_eq (h : s.block? f b = some ids) : s.len f b = ids.length := by
  unfold len
  rw [h]
  rfl

theorem len_push_same (hf : f < s.fnCount) (hb : b < s.blockCount f) (i : Inst) :
    (s.push f b i).len f b = s.len f b + 1 := by
  obtain ⟨ids, hids⟩ := block?_isSome hb
  unfold len
  rw [block?_push hf, if_pos ⟨rfl, rfl⟩, hids]
  simp

theorem len_push_other (hf : f < s.fnCount) (hc : c ≠ b) (i : Inst) :
    (s.push f b i).len f c = s.len f c := by
  unfold len
  rw [block?_push hf, if_neg fun h => hc h.2]

theorem len_addBlock (hf : f < s.fnCount) (c : Nat) : (s.addBlock f).len f c = s.len f c := by
  unfold len
  rw [block?_addBlock hf]
  split
  · next h =>
    cases hb : s.block? f c with
    | none => rfl
    | some ids => exact absurd h.2 (Nat.ne_of_lt (lt_blockCount hb))
  · rfl

theorem len_replace (s : State) (f : Nat) (v : InstId) (i : Inst) (c : Nat) :
    (s.replace f v i).len f c = s.len f c := by
  unfold len
  rw [block?_replace]

/-- A block that is not there yet is empty. -/
theorem len_of_le (h : s.blockCount f ≤ c := by omega) : s.len f c = 0 := by
  unfold len
  cases hb : s.block? f c with
  | none => rfl
  | some ids => exact absurd (lt_blockCount hb) (Nat.not_lt.mpr h)

theorem same_code (h : t.module = s.module) (f : Nat) :
    t.blockCount f = s.blockCount f ∧ t.instCount f = s.instCount f ∧ ∀ b, t.len f b = s.len f b := by
  unfold State.blockCount State.instCount State.len State.block? State.fn?
  rw [h]
  exact ⟨rfl, rfl, fun _ => rfl⟩

def Paired (s : State) : Prop := s.scopes.bodies.length = s.fnCount

/-- A state in which code in scope `k` of function `f` has been lowered, whatever it did to the
function itself. The functions `fs` have been met meanwhile, and they are as `B` says. -/
structure Beside (B : FunctionSpec) (f : Nat) (k : ScopeId) (free : Prop)
    (fs : List Callable) (s t : State) : Prop where
  scopes : s.scopes.Grows k free t.scopes
  count : t.fnCount = s.fnCount + fs.length
  nextId : t.module.nextId = s.module.nextId + fs.length.toUInt32
  others : ∀ g < s.fnCount, g ≠ f → t.fn? g = s.fn? g
  made : ∀ i c, fs[i]? = some c → ∃ F, t.fn? (s.fnCount + i) = some F ∧ B (s.fnCount + i) F c
  paired : s.Paired → t.Paired

/-- A state in which code of function `f` has been lowered from the end of block `b` on. -/
structure Grows (B : FunctionSpec) (f : Nat) (k : ScopeId) (free : Prop)
    (b : Nat) (fs : List Callable) (s t : State) : Prop extends Beside B f k free fs s t where
  insts : ∀ v < s.instCount f, t.inst? f v = s.inst? f v
  instCount : s.instCount f ≤ t.instCount f
  blockCount : s.blockCount f ≤ t.blockCount f
  blocks : ∀ c < s.blockCount f, c ≠ b → t.block? f c = s.block? f c
  block : ∀ ids, s.block? f b = some ids → ∃ more, t.block? f b = some (ids ++ more)

/-- A state in which more code in scope `k` of function `f` has been lowered, wherever it went. -/
structure Follows (f : Nat) (k : ScopeId) (s t : State) : Prop where
  scopes : s.scopes.Grows k True t.scopes
  count : s.fnCount ≤ t.fnCount
  insts : ∀ v < s.instCount f, t.inst? f v = s.inst? f v
  instCount : s.instCount f ≤ t.instCount f
  blockCount : s.blockCount f ≤ t.blockCount f
  block : ∀ b ids, s.block? f b = some ids → ∃ more, t.block? f b = some (ids ++ more)

variable {B : FunctionSpec} {k l : ScopeId} {free free' : Prop} {fs gs : List Callable} {u : State}

theorem Follows.refl (f : Nat) (k : ScopeId) (s : State) : s.Follows f k s where
  scopes := .refl _ _ _
  count := le_rfl
  insts _ _ := rfl
  instCount := le_rfl
  blockCount := le_rfl
  block _ ids h := ⟨[], by rw [append_nil, h]⟩

theorem Grows.follows (h : s.Grows B f k free b fs t) : s.Follows f k t where
  scopes := h.scopes.weaken fun _ => trivial
  count := by rw [h.count]; exact Nat.le_add_right _ _
  insts := h.insts
  instCount := h.instCount
  blockCount := h.blockCount
  block c ids hids := by
    by_cases hc : c = b
    · subst hc
      exact h.block ids hids
    · exact ⟨[], by rw [append_nil, h.blocks c (State.lt_blockCount hids) hc, hids]⟩

theorem Beside.trans (h : s.Beside B f k free fs t) (h' : t.Beside B f l free' gs u)
    (hf : f < s.fnCount) (hchain : ∀ x ∈ t.scopes.chain l, x < s.scopes.scopes.size → x ∈ s.scopes.chain k)
    (hfree : free' → l < s.scopes.scopes.size → l = k ∧ free) :
    s.Beside B f k free (fs ++ gs) u where
  scopes := h.scopes.trans h'.scopes hchain hfree
  count := by rw [h'.count, h.count, length_append, Nat.add_assoc]
  nextId := by
    rw [h'.nextId, h.nextId, length_append, UInt32.add_assoc]
    simp
  others g hg hne := (h'.others g (by rw [h.count]; omega) hne).trans (h.others g hg hne)
  made i c hi := by
    rw [getElem?_append] at hi
    split at hi
    · obtain ⟨F, hF, hB⟩ := h.made i c hi
      refine ⟨F, ?_, hB⟩
      rw [h'.others _ (State.lt_fnCount hF) (by omega), hF]
    · next hlen =>
      obtain ⟨F, hF, hB⟩ := h'.made _ c hi
      rw [h.count, show s.fnCount + fs.length + (i - fs.length) = s.fnCount + i by omega] at hF hB
      exact ⟨F, hF, hB⟩
  paired hp := h'.paired (h.paired hp)

section

variable (h : s.Grows B f k free b fs t)
include h

theorem Grows.trans (h' : t.Grows B f l free' c gs u)
    (hf : f < s.fnCount) (hc : c = b ∨ s.blockCount f ≤ c)
    (hchain : ∀ x ∈ t.scopes.chain l, x < s.scopes.scopes.size → x ∈ s.scopes.chain k)
    (hfree : free' → l < s.scopes.scopes.size → l = k ∧ free) :
    s.Grows B f k free b (fs ++ gs) u where
  toBeside := h.toBeside.trans h'.toBeside hf hchain hfree
  insts v hv := (h'.insts v (Nat.lt_of_lt_of_le hv h.instCount)).trans (h.insts v hv)
  instCount := Nat.le_trans h.instCount h'.instCount
  blockCount := Nat.le_trans h.blockCount h'.blockCount
  blocks d hd hne := by
    refine (h'.blocks d (Nat.lt_of_lt_of_le hd h.blockCount) ?_).trans (h.blocks d hd hne)
    rcases hc with rfl | hc
    · exact hne
    · exact Nat.ne_of_lt (Nat.lt_of_lt_of_le hd hc)
  block ids hids := by
    obtain ⟨more, hmore⟩ := h.block ids hids
    by_cases hcb : b = c
    · obtain ⟨more', hmore'⟩ := h'.block _ (hcb ▸ hmore)
      exact ⟨more ++ more', by rw [hcb, hmore', append_assoc]⟩
    · exact ⟨more, (h'.blocks b (State.lt_blockCount hmore) hcb).trans hmore⟩

theorem Grows.after (h' : t.Grows B f k free' c gs u)
    (hf : f < s.fnCount) (hk : k < s.scopes.scopes.size) (hc : c = b ∨ s.blockCount f ≤ c)
    (hfree : free' → free) : s.Grows B f k free b (fs ++ gs) u :=
  h.trans h' hf hc (fun x hx _ => by rwa [h.scopes.chain hk] at hx) fun hf _ => ⟨rfl, hfree hf⟩

theorem Grows.len (hc : c < s.blockCount f := by omega) (hne : c ≠ b := by omega) : t.len f c = s.len f c := by
  unfold State.len
  rw [h.blocks c hc hne]

theorem Grows.weaken (hfree : free → free') : s.Grows B f k free' b fs t :=
  { h with scopes := h.scopes.weaken hfree }

end

/-- Code in an inner scope leaves the other blocks of its function as long as they were. -/
theorem Grows.len_inner {ctx : Ctx} (h : s.Grows B (ctx.withScope l).func k free b fs t) (d : Nat)
    (hd : d < s.blockCount ctx.func := by omega) (hne : d ≠ b := by omega) :
    t.len ctx.func d = s.len ctx.func d := h.len hd hne

section

variable (hm : t.module = s.module) (hscopes : s.scopes.Grows k free t.scopes)
  (hbodies : t.scopes.bodies.length = s.scopes.bodies.length)
include hm hscopes hbodies

theorem Beside.of_module : s.Beside B f k free [] t where
  scopes := hscopes
  count := by unfold fnCount; rw [hm]; rfl
  nextId := by rw [hm]; simp
  others g _ _ := by unfold fn?; rw [hm]
  made i c hi := by cases hi
  paired hp := by
    unfold Paired fnCount at hp ⊢
    rw [hbodies, hm, hp]

/-- Something happens to the scopes only. -/
theorem Grows.of_module (b : Nat) :
    s.Grows B f k free b [] t := by
  have hfn : t.fn? = s.fn? := by unfold fn?; rw [hm]
  have hinst : t.inst? = s.inst? := by unfold inst?; rw [hfn]
  have hblock : t.block? = s.block? := by unfold block?; rw [hfn]
  refine ⟨.of_module hm hscopes hbodies, ?_, ?_, ?_, ?_, ?_⟩
  · exact fun v _ => by rw [hinst]
  · have hcount : t.instCount = s.instCount := by unfold State.instCount; rw [hfn]
    exact Nat.le_of_eq (congrFun hcount f).symm
  · have hcount : t.blockCount = s.blockCount := by unfold State.blockCount; rw [hfn]
    exact Nat.le_of_eq (congrFun hcount f).symm
  · exact fun c _ _ => by rw [hblock]
  · exact fun ids hids => ⟨[], by rw [hblock, hids, append_nil]⟩

end

theorem Grows.refl (s : State) (f : Nat) (k : ScopeId) (free : Prop) (b : Nat) :
    s.Grows B f k free b [] s := .of_module rfl (.refl _ _ _) rfl b

/-- What happens to the scopes only may be told in another way. -/
theorem Grows.withScopes (h : s.Grows B f k free b fs t) (hm : u.module = t.module)
    (hscopes : s.scopes.Grows k free u.scopes)
    (hbodies : u.scopes.bodies.length = t.scopes.bodies.length) : s.Grows B f k free b fs u := by
  obtain ⟨m, scopes, uses⟩ := u
  cases hm
  exact ⟨⟨hscopes, h.count, h.nextId, h.others, h.made, fun hp => hbodies.trans (h.paired hp)⟩,
    h.insts, h.instCount, h.blockCount, h.blocks, h.block⟩

theorem Beside.of_modifyFn (s : State) (f : Nat) (k : ScopeId) (free : Prop)
    (change : Function → Function) : s.Beside B f k free [] (s.modifyFn f change) where
  scopes := .refl _ k free
  count := fnCount_modifyFn s f change
  nextId := (UInt32.add_zero _).symm
  others g _ hne := by rw [fn?_modifyFn, if_neg hne]
  made i c hi := by cases hi
  paired hp := by
    unfold Paired at hp ⊢
    rw [fnCount_modifyFn]
    exact hp

theorem instCount_addBlock (s : State) (f g : Nat) : (s.addBlock f).instCount g = s.instCount g := by
  unfold instCount addBlock
  rw [fn?_modifyFn]
  split
  · cases s.fn? g <;> rfl
  · rfl

theorem instCount_push (hf : f < s.fnCount) (b : Nat) (i : Inst) :
    (s.push f b i).instCount f = s.instCount f + 1 := by
  obtain ⟨F, hF⟩ := fn?_isSome hf
  unfold instCount push
  rw [fn?_modifyFn, if_pos rfl, hF]
  simp [Function.push]

theorem instCount_replace (s : State) (f : Nat) (v : InstId) (i : Inst) (g : Nat) :
    (s.replace f v i).instCount g = s.instCount g := by
  unfold instCount replace
  rw [fn?_modifyFn]
  split
  · cases s.fn? g <;> simp [Function.replace]
  · rfl

theorem grows_addBlock (hf : f < s.fnCount) (k : ScopeId) (free : Prop) (b : Nat) :
    s.Grows B f k free b [] (s.addBlock f) where
  toBeside := .of_modifyFn s f k free _
  insts v _ := inst?_addBlock s f f v
  instCount := Nat.le_of_eq (instCount_addBlock s f f).symm
  blockCount := by rw [blockCount_addBlock hf, if_pos rfl]; omega
  blocks c hc _ := by rw [block?_addBlock hf, if_neg fun h => Nat.ne_of_lt hc h.2]
  block ids hids := by
    have hne : b ≠ s.blockCount f := Nat.ne_of_lt (lt_blockCount hids)
    exact ⟨[], by rw [block?_addBlock hf, if_neg fun h => hne h.2, hids, append_nil]⟩

/-- What a new block changes. -/
structure Adds (f : Nat) (c : Nat) (s t : State) : Prop where
  block : c = s.blockCount f
  blockCount : t.blockCount f = s.blockCount f + 1
  instCount : t.instCount f = s.instCount f
  len : ∀ d, t.len f d = s.len f d
  grows : ∀ B k free b, s.Grows B f k free b [] t

theorem adds_addBlock (hf : f < s.fnCount) : Adds f (s.blockCount f) s (s.addBlock f) where
  block := rfl
  blockCount := by rw [blockCount_addBlock hf, if_pos rfl]
  instCount := instCount_addBlock s f f
  len := len_addBlock hf
  grows _ k free b := grows_addBlock hf k free b

theorem Adds.len_new (h : Adds f c s t) : t.len f c = 0 := by
  rw [h.len, len_of_le (Nat.le_of_eq h.block.symm)]

theorem grows_push (hf : f < s.fnCount) (k : ScopeId) (free : Prop) (b : Nat) (i : Inst) :
    s.Grows B f k free b [] (s.push f b i) where
  toBeside := .of_modifyFn s f k free _
  insts v hv := by rw [inst?_push hf, if_neg fun h => Nat.ne_of_lt hv h.2]
  instCount := by rw [instCount_push hf]; omega
  blockCount := Nat.le_of_eq (blockCount_push s f b i f).symm
  blocks c _ hne := by rw [block?_push hf, if_neg fun h => hne h.2]
  block ids hids := ⟨[s.instCount f], by rw [block?_push hf, if_pos ⟨rfl, rfl⟩, hids]; rfl⟩

/-- What a new instruction changes. -/
structure Pushes (f c : Nat) (i : Inst) (s t : State) : Prop where
  eq : t = s.push f c i
  blockCount : t.blockCount f = s.blockCount f
  instCount : t.instCount f = s.instCount f + 1
  len_same : t.len f c = s.len f c + 1
  len_other : ∀ d, d ≠ c → t.len f d = s.len f d
  grows : ∀ B k free, s.Grows B f k free c [] t

theorem pushes_push (hf : f < s.fnCount) (hc : c < s.blockCount f) (i : Inst) :
    Pushes f c i s (s.push f c i) where
  eq := rfl
  blockCount := blockCount_push s f c i f
  instCount := instCount_push hf c i
  len_same := len_push_same hf hc i
  len_other _ hd := len_push_other hf hd i
  grows _ k free := grows_push hf k free c i

/-- Blocks that an instruction is not put into keep their lengths. -/
theorem Pushes.len_ne (h : Pushes f c i s t) (d : Nat) (hd : d ≠ c := by omega) :
    t.len f d = s.len f d := h.len_other d hd

theorem Pushes.follows (h : Pushes f c i s t) (k : ScopeId) :
    s.Follows f k t := (h.grows (fun _ _ _ => True) k False).follows

theorem Adds.follows (h : Adds f c s t) (k : ScopeId) : s.Follows f k t :=
  (h.grows (fun _ _ _ => True) k False 0).follows

/-- An instruction of the code lowered so far is replaced. -/
theorem Grows.replace (h : s.Grows B f k free b fs t) (hv : s.instCount f ≤ v) (i : Inst)
    (hf : f < s.fnCount) : s.Grows B f k free b fs (t.replace f v i) where
  toBeside := by
    have hstep : t.Beside B f k False [] (t.replace f v i) := .of_modifyFn t f k False _
    refine ⟨h.scopes, hstep.count.trans h.count, ?_, ?_, ?_, fun hp => hstep.paired (h.paired hp)⟩
    · exact h.nextId
    · exact fun g hg hne => (hstep.others g (by rw [h.count]; omega) hne).trans (h.others g hg hne)
    · intro j c hj
      obtain ⟨F, hF, hB⟩ := h.made j c hj
      exact ⟨F, by rw [hstep.others _ (lt_fnCount hF) (by omega), hF], hB⟩
  insts w hw := by
    have hne : w ≠ v := Nat.ne_of_lt (Nat.lt_of_lt_of_le hw hv)
    rw [inst?_replace, if_neg fun he => hne he.2]
    exact h.insts w hw
  instCount := by rw [instCount_replace]; exact h.instCount
  blockCount := by rw [blockCount_replace]; exact h.blockCount
  blocks c hc hne := (block?_replace t f v i f c).trans (h.blocks c hc hne)
  block ids hids := by
    obtain ⟨more, hmore⟩ := h.block ids hids
    exact ⟨more, (block?_replace t f v i f b).trans hmore⟩

end State

section

variable (hf : ctx.func < s.fnCount)
include hf

theorem newBlock_adds (h : newBlock ctx s = .ok c t) : State.Adds ctx.func c s t := by
  rw [newBlock_eq] at h
  cases h
  exact State.adds_addBlock hf

theorem emit_pushes {v : Nat} (hc : c < s.blockCount ctx.func)
    (h : emit ctx c i s = .ok v t) : v = s.instCount ctx.func ∧ State.Pushes ctx.func c i s t := by
  rw [emit_eq] at h
  cases h
  exact ⟨rfl, State.pushes_push hf hc i⟩

theorem perform_pushes {x : Unit} (hc : c < s.blockCount ctx.func)
    (h : perform ctx c i s = .ok x t) : State.Pushes ctx.func c i s t := by
  have hrun : perform ctx c i s = .ok () (s.push ctx.func c i) := rfl
  rw [hrun] at h
  cases h
  exact State.pushes_push hf hc i

end

/-! ## Finished code -/

/-- The code of function `f` of a state is found again in `F`, its instructions from position `lo`
on. -/
structure Link (f : Nat) (lo : InstId) (s : State) (F : Function) : Prop where
  inst : ∀ v i, lo ≤ v → s.inst? f v = some i → F.insts[v]? = some i
  block : ∀ b ids, s.block? f b = some ids → ∃ more, (F.blocks[b]?).map (·.toList) = some (ids ++ more)

namespace Link

variable {f : Nat} {k : ScopeId} {b : Nat} {lo : InstId} {F : Function}

/-- Code that was there earlier is found again too. -/
theorem back (h : Link f lo t F) (hst : s.Follows f k t) : Link f lo s F where
  inst v i hv hi := h.inst v i hv ((hst.insts v (State.lt_instCount hi)).trans hi)
  block c ids hids := by
    obtain ⟨more, hmore⟩ := hst.block c ids hids
    obtain ⟨more', hmore'⟩ := h.block c _ hmore
    exact ⟨more ++ more', by rw [hmore', append_assoc]⟩

theorem from_ (h : Link f lo s F) {lo' : InstId} (hlo : lo ≤ lo') : Link f lo' s F :=
  ⟨fun v i hv hi => h.inst v i (Nat.le_trans hlo hv) hi, h.block⟩

theorem of_fn? (hF : s.fn? f = some F) (lo : InstId) : Link f lo s F where
  inst v i _ hi := by
    unfold State.inst? at hi
    rwa [hF] at hi
  block b ids hids := by
    unfold State.block? at hids
    rw [hF] at hids
    exact ⟨[], by rw [append_nil]; exact hids⟩

/-- The instruction that the machine finds at a place of the code. -/
theorem fetch? (h : Link f lo s F) {index : Nat} (hids : s.block? f b = some ids)
    (hindex : ids[index]? = some v) (hlo : lo ≤ v) (hi : s.inst? f v = some i) :
    Run.fetch? F b index = some (v, i) := by
  obtain ⟨more, hmore⟩ := h.block b ids hids
  obtain ⟨block, hblock, hlist⟩ := Option.map_eq_some_iff.mp hmore
  have hget : block[index]? = some v := by
    rw [← Array.getElem?_toList, hlist, List.getElem?_append_left (List.getElem?_eq_some_iff.mp hindex).1]
    exact hindex
  unfold Run.fetch?
  rw [hblock]
  show (do let v ← block[index]?; return (v, ← F.insts[v]?)) = _
  rw [hget]
  show (do return (v, ← F.insts[v]?)) = _
  rw [h.inst v i hlo hi]
  rfl

/-- The machine finds an instruction where it was emitted. -/
theorem fetch_push (hf : f < s.fnCount) (h : Link f lo (s.push f b i) F) (hlo : lo ≤ s.instCount f)
    (hb : b < s.blockCount f) : Run.fetch? F b (s.len f b) = some (s.instCount f, i) := by
  obtain ⟨ids, hids⟩ := State.block?_isSome hb
  have hids' : (s.push f b i).block? f b = some (ids ++ [s.instCount f]) := by
    rw [State.block?_push hf, if_pos ⟨rfl, rfl⟩, hids]
    rfl
  refine h.fetch? hids' ?_ hlo ?_
  · rw [State.len_eq hids, getElem?_concat_length]
  · rw [State.inst?_push hf, if_pos ⟨rfl, rfl⟩]

end Link

end Lower

end ScriptIr
