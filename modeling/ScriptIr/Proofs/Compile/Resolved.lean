import ScriptIr.Proofs.Compile.Balanced

/-!
# Names are resolved lexically

The address of a name is a slot, or the number of a captured slot. A number is relative to the frame in
which it is emitted, and in the body of a function to the closure: the slot is the operand of that
number of the instruction that opens the frame or makes the closure, and that operand can be a number
again. In compiled code these chains end, each at the slot of the declaration that the name refers to in
the tree.
-/
namespace ScriptIr

open Code List Option

variable {v : InstId} {i : Inst}

namespace Code

variable {active1 active2 : List InstId}

namespace Function

variable {f : Function}

/-- The open frames, innermost first, after instructions that start with the given ones, `none` if they
leave more frames than are open. -/
def framesAfter? (f : Function) (frames : List InstId) : List InstId → Option (List InstId)
  | [] => some frames
  | v :: vs =>
    match f.insts[v]? with
    | some (.pushScope _ _) => f.framesAfter? (v :: frames) vs
    | some (.popScope n) =>
      if n.toNat ≤ frames.length then f.framesAfter? (frames.drop n.toNat) vs else none
    | _ => f.framesAfter? frames vs

/-- Blocks are entered with the given open frames: none in the first block, and control passes to a
block with the frames it is entered with. -/
structure Framed (f : Function) (frames : BlockId → List InstId) : Prop where
  start : frames 0 = []
  passes : ∀ b ids, f.blocks[b]? = some ids → ∃ body last i active,
    ids.toList = body ++ [last] ∧ f.framesAfter? (frames b) body = some active ∧
      f.insts[last]? = some i ∧ ∀ t ∈ i.successors, frames t = active

/-- An instruction that is executed while the given frames are open. -/
def StandsIn (f : Function) (frames : BlockId → List InstId) (v : InstId) (active : List InstId) :
    Prop :=
  ∃ b ids before after, f.blocks[b]? = some ids ∧ ids.toList = before ++ v :: after ∧
    f.framesAfter? (frames b) before = some active

theorem framesAfter?_stay (hi : f.insts[v]? = some i) (hmove : i.movesFrames = false)
    (frames vs : List InstId) : f.framesAfter? frames (v :: vs) = f.framesAfter? frames vs := by
  rw [framesAfter?, hi]
  cases i <;> first | rfl | cases hmove

/-- An instruction stands in one block, after the same instructions. -/
theorem Placed.place_unique (h : f.Placed) {b c : BlockId} {bs cs : Block}
    {before after before' after' : List InstId} (hb : f.blocks[b]? = some bs)
    (hbs : bs.toList = before ++ v :: after) (hc : f.blocks[c]? = some cs)
    (hcs : cs.toList = before' ++ v :: after') : b = c ∧ before = before' := by
  have hin : ∀ xs ys : List InstId, v ∈ xs ++ v :: ys := fun xs ys => by simp
  obtain rfl := h.block_unique hb hc (hbs ▸ hin ..) (hcs ▸ hin ..)
  cases hb.symm.trans hc
  obtain ⟨_, htail, hapart⟩ := nodup_append.mp (hcs ▸ h.nodup_block hb)
  have hnot : v ∉ before' := fun hmem => hapart v hmem v mem_cons_self rfl
  have hnot' : v ∉ after' := (nodup_cons.mp htail).1
  exact ⟨rfl, ((append_cons_inj_of_notMem hnot hnot').mp (hcs.symm.trans hbs)).1.symm⟩

theorem StandsIn.unique {frames : BlockId → List InstId} (h : f.Placed)
    (h1 : f.StandsIn frames v active1) (h2 : f.StandsIn frames v active2) : active1 = active2 := by
  obtain ⟨b, bs, before, after, hb, hbs, ho⟩ := h1
  obtain ⟨c, cs, before', after', hc, hcs, ho'⟩ := h2
  obtain ⟨rfl, rfl⟩ := h.place_unique hb hbs hc hcs
  exact some.inj (ho.symm.trans ho')

end Function

namespace Module

/-- The slot that an address stands for. Slots and arguments stand for themselves. The number of a
captured slot is looked up in the innermost frame that is open where the number stands, and in the body
of a function in the closure; the operand found there is an address seen from outside the frame, and
from where the closure is made. -/
inductive Leads (m : Module) (frames : Nat → BlockId → List InstId) :
    Nat → List InstId → InstId → Nat → InstId → Prop where
  | slot {f : Nat} {F : Function} {active : List InstId} {v : InstId} : m.functions[f]? = some F →
      F.insts[v]? = some .alloca → Leads m frames f active v f v
  | argument {f : Nat} {F : Function} {active : List InstId} {v : InstId} {i : UInt32} :
      m.functions[f]? = some F → F.insts[v]? = some (.arg i) → Leads m frames f active v f v
  | frame {f g : Nat} {F : Function} {outer captured : List InstId} {v w push slot : InstId}
      {i size : UInt32} : m.functions[f]? = some F → F.insts[v]? = some (.capture i) →
      F.StandsIn (frames f) v (push :: outer) → F.insts[push]? = some (.pushScope size captured) →
      captured[i.toNat]? = some w → Leads m frames f outer w g slot →
      Leads m frames f (push :: outer) v g slot
  | closure {f g h : Nat} {F H : Function} {outer : List InstId} {v w maker slot : InstId}
      {i : UInt32} {made : Inst} : m.functions[f]? = some F → F.insts[v]? = some (.capture i) →
      F.StandsIn (frames f) v [] → m.functions[h]? = some H → H.insts[maker]? = some made →
      made.closure? = some F.id → H.StandsIn (frames h) maker outer →
      made.captured[i.toNat]? = some w → Leads m frames h outer w g slot →
      Leads m frames f [] v g slot

/-- Each instruction stands in one place, and no two instructions make closures of one function. -/
structure Definite (m : Module) : Prop where
  placed : ∀ F ∈ m.functions, F.Placed
  made : ∀ (f g : Nat) (F G : Function) (v w : InstId) (i j : Inst) (id : FuncId),
    m.functions[f]? = some F → m.functions[g]? = some G → F.insts[v]? = some i →
    G.insts[w]? = some j → i.closure? = some id → j.closure? = some id → f = g ∧ v = w

/-- An address stands for one slot. -/
theorem Leads.unique {m : Module} {frames : Nat → BlockId → List InstId} (hm : m.Definite)
    {f g1 g2 : Nat} {slot1 slot2 : InstId} (h1 : m.Leads frames f active1 v g1 slot1)
    (h2 : m.Leads frames f active2 v g2 slot2) : g1 = g2 ∧ slot1 = slot2 := by
  induction h1 generalizing active2 with
  | slot hF hv =>
    cases h2 with
    | slot | argument => exact ⟨rfl, rfl⟩
    | frame hF' hv' | closure hF' hv' =>
      cases some.inj (hF.symm.trans hF')
      cases hv.symm.trans hv'
  | argument hF hv =>
    cases h2 with
    | slot | argument => exact ⟨rfl, rfl⟩
    | frame hF' hv' | closure hF' hv' =>
      cases some.inj (hF.symm.trans hF')
      cases hv.symm.trans hv'
  | frame hF hv hstands hpush hw _ ih =>
    cases h2 with
    | slot hF' hv' | argument hF' hv' =>
      cases some.inj (hF.symm.trans hF')
      cases hv.symm.trans hv'
    | frame hF' hv' hstands' hpush' hw' hrest =>
      cases some.inj (hF.symm.trans hF')
      cases hv.symm.trans hv'
      cases hstands.unique (hm.placed _ (Array.mem_of_getElem? hF)) hstands'
      cases hpush.symm.trans hpush'
      cases hw.symm.trans hw'
      exact ih hrest
    | closure hF' hv' hstands' =>
      cases some.inj (hF.symm.trans hF')
      cases hstands.unique (hm.placed _ (Array.mem_of_getElem? hF)) hstands'
  | closure hF hv hstands hH hmaker hmade hsite hw _ ih =>
    cases h2 with
    | slot hF' hv' | argument hF' hv' =>
      cases some.inj (hF.symm.trans hF')
      cases hv.symm.trans hv'
    | frame hF' hv' hstands' =>
      cases some.inj (hF.symm.trans hF')
      cases hstands.unique (hm.placed _ (Array.mem_of_getElem? hF)) hstands'
    | closure hF' hv' hstands' hH' hmaker' hmade' hsite' hw' hrest =>
      cases some.inj (hF.symm.trans hF')
      cases hv.symm.trans hv'
      obtain ⟨rfl, rfl⟩ := hm.made _ _ _ _ _ _ _ _ _ hH hH' hmaker hmaker' hmade hmade'
      cases some.inj (hH.symm.trans hH')
      cases hmaker.symm.trans hmaker'
      cases hw.symm.trans hw'
      exact ih hrest

/-- Whether the functions, the blocks and the captured slots of a module can be counted with 32 bits. -/
def fits (m : Module) : Bool :=
  decide (m.functions.size ≤ 2 ^ 32) && m.functions.all fun f =>
    decide (f.blocks.size < 2 ^ 32) && f.insts.all fun i => decide (i.captured.length ≤ 2 ^ 32)

end Module

end Code

namespace Lower

open Scope

variable {strict : Prop} {c : Config strict} {f : Nat} {F : Function} {k outer : ScopeId} {n : Nat}

/-! ## Open frames -/

def Config.frames (c : Config strict) (k : ScopeId) : List InstId :=
  ((c.scopes.chain k).takeWhile fun l => c.kind l == .block).filterMap c.frame

theorem Config.frames_function (h : c.kind k = .function) : c.frames k = [] := by
  have hno : ∀ ls, (k :: ls).takeWhile (fun l => c.kind l == .block) = [] := fun ls => by
    rw [takeWhile_cons_of_neg (by simp [h])]
  unfold Config.frames
  rw [Arena.chain]
  split
  · rw [hno]; rfl
  · split <;> (rw [hno]; rfl)

theorem Config.frames_block (h : c.kind k = .block) (hp : c.parent? k = some outer)
    (hv : c.frame k = some v) : c.frames k = v :: c.frames outer := by
  unfold Config.frames
  rw [Arena.chain_inner hp (c.arenaOk.sound.parent_lt _ _ hp),
    takeWhile_cons_of_pos (by simp [h]), filterMap_cons_some hv]

def Config.AllFramed (c : Config strict) : Prop := ∀ k, c.kind k = .block → c.frame k ≠ none

theorem Config.frames_of_above (hall : c.AllFramed) {x : ScopeId} (h : c.scopes.Above n k x) :
    ∃ vs, c.frames k = vs ++ c.frames x ∧ vs.length = n := by
  induction h with
  | refl k => exact ⟨[], rfl, rfl⟩
  | step hk hp _ _ ih =>
    obtain ⟨v, hv⟩ := ne_none_iff_exists'.mp (hall _ hk)
    obtain ⟨vs, hvs, hlen⟩ := ih
    exact ⟨v :: vs, by rw [c.frames_block hk hp hv, hvs]; rfl, congrArg (· + 1) hlen⟩

theorem Config.framesAfter?_path (hall : c.AllFramed) (hF : c.fn? f = some F)
    (hsize : F.blocks.size < 2 ^ 32) {l : ScopeId} {ids : List InstId} (h : c.Path f k ids l) :
    F.framesAfter? (c.frames k) ids = some (c.frames l) := by
  induction h with
  | nil k => rfl
  | cons hmove _ ih =>
    cases hmove with
    | stay hi _ hmove =>
      rw [Function.framesAfter?_stay ((Layout.inst?_eq hF _).symm.trans hi) hmove]
      exact ih
    | push hi hkind hparent _ hframe =>
      rw [Function.framesAfter?, (Layout.inst?_eq hF _).symm.trans hi,
        ← c.frames_block hkind hparent hframe]
      exact ih
    | @pop _ _ n hi hn habove =>
      rw [Config.blockCount_eq hF] at hn
      have hcount : n.toUInt32.toNat = n := Nat.mod_eq_of_lt (hn.trans_lt hsize)
      obtain ⟨vs, hvs, hlen⟩ := Config.frames_of_above hall habove
      rw [Function.framesAfter?, (Layout.inst?_eq hF _).symm.trans hi, hvs]
      simp only [hcount, length_append, hlen, Nat.le_add_right, if_true]
      rw [← hlen, drop_left]
      exact ih

def Config.entryFrames (c : Config strict) (f : Nat) (b : BlockId) : List InstId :=
  if b < c.blockCount f then c.frames (c.entry f b) else []

theorem Config.entryFrames_of_hasBlock {t : BlockId} (h : c.HasBlock f t k) :
    c.entryFrames f t = c.frames k := by
  rw [Config.entryFrames, if_pos h.1, h.2]

theorem Config.framed (hall : c.AllFramed) (hopen : ∀ f b k, .block f b k ∉ c.tokens)
    (hF : c.fn? f = some F) (hsize : F.blocks.size < 2 ^ 32) : F.Framed (c.entryFrames f) where
  start := by
    unfold Config.entryFrames
    split
    · next hpos => exact Config.frames_function (c.codeOk.first f hpos).2
    · rfl
  passes b ids hb := by
    obtain ⟨hblock, body, last, l, hids, hpath, i, hi, _, hsucc, _⟩ := Config.exists_sealed hopen hF hb
    refine ⟨body, last, i, c.frames l, hids, ?_, (Layout.inst?_eq hF last).symm.trans hi,
      fun t ht => Config.entryFrames_of_hasBlock (hsucc t ht)⟩
    rw [Config.entryFrames_of_hasBlock hblock]
    exact Config.framesAfter?_path hall hF hsize hpath

theorem Config.standsIn_of_site (hall : c.AllFramed) (hF : c.fn? f = some F)
    (hsize : F.blocks.size < 2 ^ 32) (h : c.Site f v k) :
    F.StandsIn (c.entryFrames f) v (c.frames k) := by
  obtain ⟨b, before, after, hb, hpath⟩ := h
  have hlt := State.lt_blockCount hb
  unfold State.block? at hb
  rw [hF, bind_some] at hb
  obtain ⟨ids, hids, hb'⟩ := map_eq_some_iff.mp hb
  refine ⟨b, ids, before, after, hids, hb', ?_⟩
  rw [Config.entryFrames_of_hasBlock ⟨hlt, rfl⟩]
  exact Config.framesAfter?_path hall hF hsize hpath

/-! ## Chains of captures -/

/-- Lowering is over, and the numbers in the code fit their fields. -/
structure Config.Final (c : Config strict) : Prop where
  strict : strict
  tokens : c.tokens = {.scope 0 .running}
  count : c.module.functions.size ≤ 2 ^ 32
  blocks : ∀ F ∈ c.module.functions, F.blocks.size < 2 ^ 32
  captured : ∀ F ∈ c.module.functions, ∀ i ∈ F.insts, i.captured.length ≤ 2 ^ 32

section

variable (hc : c.Final)
include hc

theorem Config.Final.closed (hk : k < c.scopeCount) (hp : c.parent? k = some outer) :
    c.Closed k outer := by
  refine (c.lexicalOk hc.strict).closed k outer hk (fun phase hmem => ?_) hp
  rw [hc.tokens, Multiset.mem_singleton] at hmem
  cases hmem
  exact Nat.not_lt_zero _ (c.arenaOk.sound.parent_lt _ _ hp)

theorem Config.Final.allFramed : c.AllFramed := by
  intro k hk
  obtain ⟨outer, hp, _⟩ := c.arenaOk.inner k hk
  obtain ⟨f, v, captured, hopener, _, _⟩ := hc.closed (Layout.lt_scopeCount hk) hp
  cases hopener with
  | frame _ hframe _ _ => rw [hframe]; exact some_ne_none v
  | closure hkind => rw [hk] at hkind; cases hkind

theorem Config.Final.not_open : ∀ f b k, .block f b k ∉ c.tokens := by
  intro f b k hmem
  rw [hc.tokens, Multiset.mem_singleton] at hmem
  cases hmem

theorem Config.Final.size (hF : c.fn? f = some F) : F.blocks.size < 2 ^ 32 :=
  hc.blocks F (Array.mem_of_getElem? hF)

theorem Config.Final.number (hF : c.fn? f = some F) (hi : c.inst? f v = some i)
    {w : InstId} (hw : i.captured[n]? = some w) : n.toUInt32.toNat = n := by
  have hmem : i ∈ F.insts := Array.mem_of_getElem? ((Layout.inst?_eq hF v).symm.trans hi)
  have hlt := (List.getElem?_eq_some_iff.mp hw).1
  exact Nat.mod_eq_of_lt (hlt.trans_le (hc.captured F (Array.mem_of_getElem? hF) i hmem))

theorem Config.Final.eq_of_id {g h : Nat} {G H : Function}
    (hG : c.fn? g = some G) (hH : c.fn? h = some H) (hid : G.id = H.id) : g = h := by
  have hg := c.codeOk.ids g G hG
  have hh := c.codeOk.ids h H hH
  rw [hid, ← hh] at hg
  have hsame := congrArg UInt32.toNat ((UInt32.add_right_inj H.id).mp hg)
  have hcount : c.fnCount ≤ 2 ^ 32 := hc.count
  have hglt := State.lt_fnCount hG
  have hhlt := State.lt_fnCount hH
  simp only [Nat.toUInt32, UInt32.toNat_ofNat'] at hsame
  omega

theorem Config.Final.definite : c.module.Definite where
  placed F hF := by
    obtain ⟨f, hf⟩ := Array.mem_iff_getElem?.mp hF
    exact c.codeOk.placed f F hf
  made f g F G v w i j id hF hG hi hj hid hid' := by
    have hlex := c.lexicalOk hc.strict
    obtain ⟨a, A, hA, hAid, hmaker⟩ := hlex.makers f v i id ((Layout.inst?_eq hF v).trans hi) hid
    obtain ⟨b, B, hB, hBid, hmaker'⟩ := hlex.makers g w j id ((Layout.inst?_eq hG w).trans hj) hid'
    cases hc.eq_of_id hA hB (hAid.trans hBid.symm)
    cases hmaker.symm.trans hmaker'
    exact ⟨rfl, rfl⟩

theorem Config.Final.standsIn (hF : c.fn? f = some F) (h : c.Site f v k) :
    F.StandsIn (c.entryFrames f) v (c.frames k) :=
  Config.standsIn_of_site hc.allFramed hF (hc.size hF) h

/-- The chain of an address that is a number of a captured slot goes on in the scope around. -/
theorem Config.Final.leads_capture {i : Nat} {name : Scope.Capture}
    (hk : k < c.scopeCount) (hp : c.parent? k = some outer)
    (hi : c.inst? (c.home k) v = some (.capture i.toUInt32)) (hsite : c.Site (c.home k) v k)
    (hcapture : (c.scopes.captures k)[i]? = some name) :
    ∃ w, c.Denotes (c.home outer) w outer name.name ∧
      ∀ g slot, c.module.Leads c.entryFrames (c.home outer) (c.frames outer) w g slot →
        c.module.Leads c.entryFrames (c.home k) (c.frames k) v g slot := by
  obtain ⟨F, hF⟩ := State.fn?_isSome (c.arenaOk.home k hk)
  have hv := (Layout.inst?_eq hF v).symm.trans hi
  have hstands := hc.standsIn hF hsite
  obtain ⟨f, u, captured, hopener, hf, hall⟩ := hc.closed hk hp
  obtain ⟨hlt, hget⟩ := List.getElem?_eq_some_iff.mp hcapture
  have hlt' : i < captured.length := hall.length_eq ▸ hlt
  have hw : captured[i]? = some captured[i] := List.getElem?_eq_getElem hlt'
  refine ⟨captured[i], ?_, fun g slot hrest => ?_⟩
  · have := (List.forall₂_iff_get.mp hall).2 i hlt' hlt
    simpa only [List.get_eq_getElem, hget, hf] using this
  cases hopener with
  | frame hkind hframe hpush =>
    rw [c.frames_block hkind hp hframe] at hstands ⊢
    rw [← hf] at hrest
    refine .frame hF hv hstands ((Layout.inst?_eq hF u).symm.trans hpush) ?_ hrest
    rw [hc.number hF hpush hw]
    exact hw
  | @closure _ _ made G outer' hkind hG hmaker hmade hid hp' hsite' =>
    cases hp.symm.trans hp'
    cases hF.symm.trans hG
    subst hf
    have houter := Nat.lt_trans (c.arenaOk.sound.parent_lt _ _ hp) hk
    obtain ⟨H, hH⟩ := State.fn?_isSome (c.arenaOk.home outer houter)
    rw [c.frames_function hkind] at hstands ⊢
    refine .closure hF hv hstands hH ((Layout.inst?_eq hH u).symm.trans hmade) hid
      (hc.standsIn hH hsite') ?_ hrest
    rw [hc.number hH hmade hw]
    exact hw

end

/-- Whether an instruction of function `f` is the slot of a declared name. -/
def State.Holds (s : State) (f : Nat) (v : InstId) : Slot → Prop
  | .cell w => v = w ∧ s.inst? f w = some .alloca
  | .parameter i => s.inst? f v = some (.arg i.toUInt32)

/-- The address of a name that a scope sees leads to the slot of the declaration the name refers to. -/
theorem Config.Final.leads_of_denotes (hc : c.Final) {env : Tree.Env} {name : String}
    (hk : k < c.scopeCount) (henv : c.env k = some env) (hv : c.Denotes (c.home k) v k name) :
    ∃ o slot own, env name = some o ∧ c.own? o.scope name = some own ∧ own.position? = o.position ∧
      c.Holds (c.home o.scope) slot own ∧
      c.module.Leads c.entryFrames (c.home k) (c.frames k) v (c.home o.scope) slot := by
  have hlex := c.lexicalOk hc.strict
  -- A capture is an address in the scope around, whose number is smaller.
  induction k using Nat.strongRecOn generalizing env v with
  | ind k ih =>
    obtain ⟨F, hF⟩ := State.fn?_isSome (c.arenaOk.home k hk)
    cases hv with
    | cell hown =>
      have hv := c.arenaOk.cell k name v hown
      exact ⟨_, v, .cell v, hlex.own k env name _ henv hown, hown, rfl, ⟨rfl, hv⟩,
        .slot hF ((Layout.inst?_eq hF v).symm.trans hv)⟩
    | parameter i hown hv =>
      exact ⟨_, v, .parameter i, hlex.own k env name _ henv hown, hown, rfl, hv,
        .argument hF ((Layout.inst?_eq hF v).symm.trans hv)⟩
    | capture i capture hown hcapture hname hv hsite =>
      obtain ⟨outer, hp, _⟩ := c.arenaOk.sound.visible k capture (mem_of_getElem? hcapture)
      have hlt := c.arenaOk.sound.parent_lt _ _ hp
      obtain ⟨env', henv', hsame⟩ := hlex.outer k env outer henv hp
      obtain ⟨w, hw, hleads⟩ := hc.leads_capture hk hp hv hsite hcapture
      rw [hname] at hw
      obtain ⟨o, slot, own, ho, hown', hposition, hslot, hrest⟩ :=
        ih outer hlt (hlt.trans hk) henv' hw
      exact ⟨o, slot, own, (hsame name hown).trans ho, hown', hposition, hslot, hleads _ _ hrest⟩

/-! ## Uses -/

/-- Scopes lie in functions: a block scope in the function of the scope around it, and the body of a
function in one whose closure is made by the function of the scope around it. No two declarations
share a slot. -/
structure State.LaidOut (s : State) (home : ScopeId → Nat) : Prop where
  inner : ∀ k outer, (s.scopes.get k).kind = .block → (s.scopes.get k).parent = some outer →
    home k = home outer
  body : ∀ k outer, k < s.scopes.scopes.size → (s.scopes.get k).kind = .function →
    (s.scopes.get k).parent = some outer → ∃ F v i, s.fn? (home k) = some F ∧
      s.inst? (home outer) v = some i ∧ i.closure? = some F.id
  bodies : ∀ k l, k < s.scopes.scopes.size → l < s.scopes.scopes.size →
    (s.scopes.get k).kind = .function → (s.scopes.get l).kind = .function → home k = home l → k = l
  apart : ∀ k l name other slot, (s.scopes.get k).own? name = some slot →
    (s.scopes.get l).own? other = some slot → home k = home l → k = l ∧ name = other

/-- A use of a name whose address is right: that of a global variable if no scope around the use
declares the name, and otherwise an address that leads to the slot of the innermost declaration and to
no other. -/
structure State.Locates (s : State) (frames : Nat → BlockId → List InstId) (home : ScopeId → Nat)
    (use : Use) (ref : Tree.Reference) : Prop where
  name : use.name = ref.name
  undeclared : ref.origin = none → s.inst? use.func use.address = some (.getGlobal ref.name)
  declared : ∀ o, ref.origin = some o → ∃ slot own, (s.scopes.get o.scope).own? ref.name = some own ∧
    own.position? = o.position ∧ s.Holds (home o.scope) slot own ∧
    ∀ g w, (∃ active, s.module.Leads frames use.func active use.address g w) ↔ g = home o.scope ∧ w = slot

/-- Code in which the uses of names are those of the given references, each with the right address. -/
def State.NamesResolve (s : State) (refs : List Tree.Reference) : Prop :=
  ∃ frames home, (∀ f F, s.fn? f = some F → F.Framed (frames f)) ∧ s.LaidOut home ∧
    Forall₂ (s.Locates frames home) s.uses.toList refs

section Uses

variable {ctx : Ctx} {block : BlockId} {name : String} {s t : State}

theorem nameAddress_quiet {write : Bool} {address : InstId}
    (h : nameAddress ctx block name write s = .ok address t) : t.uses = s.uses ∧ t.fnCount = s.fnCount := by
  obtain ⟨found, u, hlookup, h⟩ := run_bind h
  have hu : u.uses = s.uses ∧ u.fnCount = s.fnCount := by
    unfold naming at hlookup
    split at hlookup <;> cases hlookup
    exact ⟨rfl, rfl⟩
  have hemit (i : Inst) : (u.push ctx.func block i).uses = s.uses ∧
      (u.push ctx.func block i).fnCount = s.fnCount := ⟨hu.1, (State.fnCount_push ..).trans hu.2⟩
  cases found with
  | none =>
    cases h
    exact hemit _
  | some r =>
    dsimp only at h
    split at h
    · cases h
    · obtain ⟨binding, constant⟩ := r
      cases binding with
      | parameter | capture =>
        cases h
        exact hemit _
      | rest | slot | forward =>
        cases h
        exact hu

/-- The log of uses is about the code: the address that is taken down for a use of a name is the
operand of the instruction that reads or writes the name there. -/
theorem use_is_operand (hf : ctx.func < s.fnCount) :
    (∀ r, readIdentifier name ctx block s = .ok r t → ∃ address,
      t.uses = s.uses.push ⟨ctx.func, name, address⟩ ∧ t.inst? ctx.func r.value = some (.load address)) ∧
    (∀ last place, identifierPlace name ctx block s = .ok (last, place) t → ∃ address,
      t.uses = s.uses.push ⟨ctx.func, name, address⟩ ∧ ∀ u v : State, ctx.func < u.fnCount →
        (∀ value, readPlace ctx last place u = .ok value v → v.inst? ctx.func value = some (.load address)) ∧
        (∀ value, writePlace ctx last place value u = .ok () v →
          v.inst? ctx.func (u.instCount ctx.func) = some (.store address value))) := by
  have hpush (u : State) (hu : ctx.func < u.fnCount) (b : BlockId) (i : Inst) :
      (u.push ctx.func b i).inst? ctx.func (u.instCount ctx.func) = some i := by
    rw [State.inst?_push hu, if_pos ⟨rfl, rfl⟩]
  refine ⟨fun r h => ?_, fun last place h => ?_⟩
  · obtain ⟨_, u, haddress, h⟩ := run_bind h
    obtain ⟨_, v, hname, hrecord⟩ := run_bind haddress
    obtain ⟨huses, hcount⟩ := nameAddress_quiet hname
    cases hrecord
    cases h
    exact ⟨_, congrArg (Array.push · _) huses, hpush _ (hf.trans_eq hcount.symm) ..⟩
  · obtain ⟨_, u, haddress, h⟩ := run_bind h
    obtain ⟨_, v, hname, hrecord⟩ := run_bind haddress
    cases hrecord
    cases h
    refine ⟨_, congrArg (Array.push · _) (nameAddress_quiet hname).1, fun u v hu =>
      ⟨fun value h => ?_, fun value h => ?_⟩⟩
    · cases h
      exact hpush u hu ..
    · cases h
      exact hpush u hu ..

end Uses

theorem Config.Final.laidOut (hc : c.Final) : c.LaidOut c.home where
  inner k outer hk hp := by
    obtain ⟨outer', hp', hhome⟩ := c.arenaOk.inner k hk
    cases hp.symm.trans hp'
    exact hhome.symm
  body k outer hlt hk hp := by
    obtain ⟨f, v, captured, hopener, hf, _⟩ := hc.closed hlt hp
    cases hopener with
    | frame hkind => cases hk.symm.trans hkind
    | closure _ hF _ hmade hid _ _ => exact ⟨_, v, _, hF, hf ▸ hmade, hid⟩
  bodies := c.arenaOk.bodies
  apart := c.arenaOk.slots

theorem Config.Final.locates (hc : c.Final) {use : Use} {ref : Tree.Reference}
    (h : c.toLayout.Resolves use ref) : c.Locates c.entryFrames c.home use ref := by
  obtain ⟨hname, k, env, hk, henv, hhome, horigin, haddress⟩ := h
  rcases haddress with ⟨hnone, hglobal⟩ | hdenotes
  · exact ⟨hname, fun _ => hglobal, fun o ho => by rw [hnone] at ho; cases ho⟩
  · rw [← hhome] at hdenotes
    obtain ⟨o, slot, own, ho, hown, hposition, hholds, hleads⟩ :=
      hc.leads_of_denotes hk henv hdenotes
    rw [horigin] at ho
    refine ⟨hname, fun hnone => absurd (hnone.symm.trans ho) (by simp), fun o' ho' => ?_⟩
    cases ho.symm.trans ho'
    refine ⟨slot, own, hown, hposition, hholds, fun g w => ⟨?_, ?_⟩⟩
    · rintro ⟨active, hw⟩
      rw [← hhome] at hw
      exact hw.unique hc.definite hleads
    · rintro ⟨rfl, rfl⟩
      exact ⟨_, hhome ▸ hleads⟩

/-- Names enter a scope only at its start, and any error may be the outcome. -/
def lexicalMode : Mode where
  strict := True
  allowed _ := True
  external _ _ := trivial

theorem lexicalMode_accepts {p : Tree.Program} (h : p.parserShaped = true) :
    ∀ n ∈ p.nodes, lexicalMode.Accepts n := by
  intro n hn
  have hshaped := all_eq_true.mp h n hn
  cases n with
  | expression e => exact fun _ _ => trivial
  | body s =>
    intro _
    unfold Tree.Node.parserShaped at hshaped
    simpa using hshaped

end Lower

/-- **Names are resolved lexically.** In a compiled program whose block-wide declarations stand where a
parser puts them, each name that is read or written has the address of the declaration it refers to in
the tree: the numbers of captured slots are in range and lead to the slot of that declaration and to no
other, and a name without a declaration is a global variable. -/
theorem compiled_names_resolve (p : Tree.Program) (name : String) (firstId : FuncId)
    (m : Code.Module) (hshape : p.parserShaped = true)
    (h : (compile p name firstId).result = .ok m) (hfits : m.fits = true) :
    ∃ s, Lower.program p { module := .empty name firstId } = .ok () s ∧ s.module = m ∧
      s.NamesResolve p.references := by
  obtain ⟨s, hs, rfl⟩ := exists_of_compile h
  refine ⟨s, hs, rfl, ?_⟩
  obtain ⟨d, rfl, hgrows, htokens⟩ :=
    (Lower.program_sat (Lower.lexicalMode_accepts hshape) name firstId).of_ok hs
  have hfinal : d.Final := by
    simp only [Module.fits, Bool.and_eq_true, decide_eq_true_eq, Array.all_eq_true_iff_forall_mem]
      at hfits
    exact ⟨trivial, htokens, hfits.1, fun F hF => (hfits.2 F hF).1, fun F hF => (hfits.2 F hF).2⟩
  obtain ⟨uses, huses, _, hall⟩ := hgrows.trace trivial
  refine ⟨d.entryFrames, d.home, ?_, hfinal.laidOut, ?_⟩
  · exact fun f F hF => Lower.Config.framed hfinal.allFramed hfinal.not_open hF (hfinal.size hF)
  · rw [huses]
    exact hall.imp fun use ref hr => hfinal.locates hr

/-- A closure in the body of a loop that captures a parameter, a copy of the loop's variable and a slot
of the function around, from inside a loop of its own: `function f(a) { let x; for (let i = a; x; ) {
const h = () => { while (i) { x = a; } y; }; } }`. -/
def nestedCaptures : Tree.Program :=
  ⟨[.function (.mk (some { name := "f" }) [.identifier { name := "a" }]
    [.declaration (.mk .blockWide [.mk (.identifier { name := "x" }) none] none),
      .forLoop (some (.declaration (.mk .blockWide
          [.mk (.identifier { name := "i" }) (some (.identifier { name := "a" }))] none)))
        (some (.identifier { name := "x" })) none
        (.block [.declaration (.mk .constant [.mk (.identifier { name := "h" })
          (some (.arrow [] (.block [.whileLoop (.identifier { name := "i" })
              (.block [.expression (.assignment .assign (.identifier { name := "x" })
                (.identifier { name := "a" }))]),
            .expression (.identifier { name := "y" })]) false none))] none)])]
    false false none)]⟩

theorem nestedCaptures_resolve :
    ∃ (m : Code.Module) (s : Lower.State), (compile nestedCaptures "m" 0).result = .ok m ∧ m.fits = true ∧
      nestedCaptures.references.map (·.origin) = [some ⟨1, some 0⟩, some ⟨1, none⟩,
        some ⟨3, none⟩, some ⟨1, none⟩, some ⟨1, some 0⟩, none] ∧
      s.module = m ∧ s.NamesResolve nestedCaptures.references := by
  have hrun : ∃ m ∈ (compile nestedCaptures "m" 0).result.toOption, m.fits = true := by
    decide +kernel
  obtain ⟨m, hm, hfits⟩ := hrun
  have hm' := eq_ok_of_mem_toOption hm
  obtain ⟨s, _, hs, hresolve⟩ :=
    compiled_names_resolve nestedCaptures "m" 0 m (by decide +kernel) hm' hfits
  exact ⟨m, s, hm', hfits, by decide +kernel, hs, hresolve⟩

end ScriptIr
