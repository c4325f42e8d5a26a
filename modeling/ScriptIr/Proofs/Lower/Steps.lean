import ScriptIr.Proofs.Lower.Contract

/-!
# Steps that build code

Each primitive step keeps the configuration valid and does the work of the tokens it takes.

* `emit_sat`: an instruction that neither moves frames nor ends its block.
-/
namespace ScriptIr.Lower

open Code Layout State List Scope

variable {M : Mode} {strict : Prop} {c : Config strict} {f : Nat} {b : BlockId} {k : ScopeId}
  {R : Multiset Token}

variable {g : Nat} {v : InstId} {j : Inst} {frame : ScopeId → Option InstId} {l : ScopeId}
  {d : Config strict} {p : Layout} {incoming : List (BlockId × InstId)} {ctx : Ctx}

/-! ## An instruction at the end of a block -/

namespace Layout

/-- The layout after an instruction has been added to a block. -/
def pushed (p : Layout) (f : Nat) (b : BlockId) (i : Inst) (frame : ScopeId → Option InstId) :
    Layout :=
  { p with toState := p.toState.push f b i, frame }

section

variable (hf : f < p.fnCount) (b : BlockId) (i : Inst) (frame : ScopeId → Option InstId) (g : Nat)
include hf

theorem inst?_pushed (v : InstId) :
    (p.pushed f b i frame).inst? g v =
      if g = f ∧ v = p.instCount f then some i else p.inst? g v :=
  inst?_push hf b i g v

theorem block?_pushed (a : BlockId) :
    (p.pushed f b i frame).block? g a =
      if g = f ∧ a = b then (p.block? f b).map (· ++ [p.instCount f]) else p.block? g a :=
  block?_push hf b i g a

end

theorem blockCount_pushed (b : BlockId) (i : Inst) (frame : ScopeId → Option InstId) (g : Nat) :
    (p.pushed f b i frame).blockCount g = p.blockCount g :=
  blockCount_push p.toState f b i g

theorem inst?_pushed_old (hf : f < p.fnCount) (b : BlockId) (i : Inst) (frame : ScopeId → Option InstId)
    (hv : p.inst? g v = some j) : (p.pushed f b i frame).inst? g v = some j := by
  rw [inst?_pushed hf, if_neg, hv]
  rintro ⟨rfl, rfl⟩
  exact (lt_instCount hv).false

theorem pushed_extends (strict : Prop) (hf : f < p.fnCount) (b : BlockId) (i : Inst)
    (hframe : ∀ k v, p.frame k = some v → frame k = some v) :
    p.Extends strict (p.pushed f b i frame) where
  __ := Extends.refl p
  fn g F hF := by
    have hg : (p.pushed f b i frame).fn? g = _ := fn?_modifyFn p.toState f g _
    rw [hg, hF]
    split
    · exact ⟨_, rfl, rfl⟩
    · exact ⟨F, rfl, rfl⟩
  inst g v j hj := ⟨j, inst?_pushed_old hf b i frame hj, .same j⟩
  block g a ids hids := by
    rw [block?_pushed hf]
    split
    · next hga =>
      obtain ⟨rfl, rfl⟩ := hga
      exact ⟨[p.instCount g], by rw [hids]; rfl⟩
    · exact ⟨[], by rw [hids, append_nil]⟩
  frame := hframe

theorem site_pushed (hf : f < p.fnCount) {ids : List InstId} (hids : p.block? f b = some ids) {i : Inst}
    (hpath : (p.pushed f b i frame).Path f (p.entry f b) ids k) :
    (p.pushed f b i frame).SiteIn f b (p.instCount f) k := by
  refine ⟨ids, [], ?_, hpath⟩
  rw [block?_pushed hf, if_pos ⟨rfl, rfl⟩, hids]
  rfl

end Layout

namespace Config

variable {a : BlockId}

section

variable (h : c.tokens = {.block f b k} + R)
include h

theorem exists_block : ∃ ids, c.block? f b = some ids ∧ c.Path f (c.entry f b) ids k :=
  c.tokensOk.block f b k (by rw [h, mem_add_singleton]; exact .inl rfl)

theorem fn_lt : f < c.fnCount := by
  obtain ⟨ids, hids, _⟩ := c.exists_block h
  exact lt_fnCount_of_blockCount (Nat.zero_lt_of_lt (lt_blockCount hids))

theorem block_lt : b < c.blockCount f := by
  obtain ⟨ids, hids, _⟩ := c.exists_block h
  exact lt_blockCount hids

theorem other_block (hl : .block g a l ∈ R) : ¬(g = f ∧ a = b) := by
  rintro ⟨rfl, rfl⟩
  have := c.tokensOk.distinct
  rw [h] at this
  exact key_ne_of_distinct this hl rfl

variable {i : Inst}

/-- The paths of the other open blocks are not changed by an instruction. -/
theorem path_pushed (hframe : ∀ k v, c.frame k = some v → frame k = some v) (hl : .block g a l ∈ R) :
    ∃ ids, (c.pushed f b i frame).block? g a = some ids ∧
      (c.pushed f b i frame).Path g ((c.pushed f b i frame).entry g a) ids l := by
  obtain ⟨ids, hids, hpath⟩ := c.tokensOk.block g a l (by rw [h, mem_add_singleton]; exact .inr hl)
  refine ⟨ids, ?_, hpath.mono (pushed_extends strict (c.fn_lt h) b i hframe)⟩
  rw [block?_pushed (c.fn_lt h), if_neg (c.other_block h hl), hids]

theorem placed_pushed (g : Nat) (F : Code.Function)
    (hF : (c.pushed f b i frame).fn? g = some F) : F.Placed := by
  have hg : (c.pushed f b i frame).fn? g = _ := fn?_modifyFn c.toState f g _
  rw [hg] at hF
  split at hF
  · next hgf =>
    subst hgf
    obtain ⟨G, hG, rfl⟩ := Option.map_eq_some_iff.mp hF
    obtain ⟨ids, hids, _⟩ := c.exists_block h
    refine Code.Function.placed_push i (c.codeOk.placed g G hG) ?_
    have := lt_blockCount hids
    unfold blockCount at this
    rwa [hG] at this
  · exact c.codeOk.placed g F hF

theorem refers_pushed
    (hframe : ∀ k v, c.frame k = some v → frame k = some v) (hi : c.Refers f i) (g : Nat) (v : InstId)
    (j : Inst) (hj : (c.pushed f b i frame).inst? g v = some j) :
    c.inst? g v = some j ∨ (c.pushed f b i frame).Refers g j := by
  rw [inst?_pushed (c.fn_lt h)] at hj
  split at hj
  · next hgv =>
    obtain ⟨rfl, rfl⟩ := hgv
    cases hj
    exact .inr (hi.mono (pushed_extends strict (c.fn_lt h) b _ hframe))
  · exact .inl hj

end

theorem lexical_pushed (hs : strict) (h : c.tokens = {.block f b k} + R)
    (hframe : ∀ k v, c.frame k = some v → frame k = some v) (hi : i.closure? = none)
    {U : Multiset Token} (hU : ∀ k phase, .scope k phase ∈ U ↔ .scope k phase ∈ c.tokens)
    (hslots : ∀ g v m, .slot g v m ∈ R → .slot g v m ∈ U)
    (halloca : i = .alloca → ∃ m, (c.pushed f b i frame).Allots f (c.instCount f) m ∧
      .slot f (c.instCount f) m ∈ U) : LexicalOk (c.pushed f b i frame) U := by
  have hext := pushed_extends strict (c.fn_lt h) b i hframe
  refine c.lexical_grow hs hext rfl rfl rfl rfl hU ?_ ?_ ?_
  · exact fun k g v captured hk _ ho =>
      ho.mono hext hk rfl fun j hj => inst?_pushed_old (c.fn_lt h) b i frame hj
  · exact fun g v m hm => hslots g v m (by simpa [h] using hm)
  · intro g v j hj
    rw [inst?_pushed (c.fn_lt h)] at hj
    split at hj
    · next hgv =>
      obtain ⟨rfl, rfl⟩ := hgv
      cases hj
      exact .inr ⟨hi, halloca⟩
    · exact .inl hj

/-- The work that an instruction leaves which is added where scope `k` is the innermost one and which
gives layout `q`: its block is open in the scope that it leads to, or it has ended its block, and a slot is
to hold a name of the scope. -/
inductive Leaves (c : Config strict) (q : Layout) (f : Nat) (b : BlockId) (k : ScopeId) :
    Inst → Multiset Token → Prop where
  | block {i : Inst} {l : ScopeId} : i ≠ .alloca → q.Moves f k (c.instCount f) l →
      Leaves c q f b k i {.block f b l}
  | slot : k < c.scopeCount → c.home k = f →
      (strict → c.kind k = .block → c.parent? k = some (c.entry f b)) →
      q.Moves f k (c.instCount f) k →
      Leaves c q f b k .alloca ({.slot f (c.instCount f) k} + {.block f b k})
  | nothing {i : Inst} : i ≠ .alloca → q.Ends f (c.instCount f) k → Leaves c q f b k i 0

/-- An instruction does the work of its block's token and leaves its own. -/
theorem exists_pushed {S : Multiset Token} (h : c.tokens = {.block f b k} + R)
    (hleaves : c.Leaves (c.pushed f b i frame) f b k i S) (hrefers : c.Refers f i)
    (hclosure : strict → i.closure? = none) (hframe : ∀ k v, c.frame k = some v → frame k = some v)
    (framed : ∀ k v, frame k = some v → c.frame k = some v ∨ (c.pushed f b i frame).Opens k v)
    (frames : ∀ k l v, frame k = some v → frame l = some v → c.home k = c.home l → k = l) :
    ∃ d : Config strict, d.toLayout = c.pushed f b i frame ∧ d.tokens = S + R := by
  have hext := pushed_extends strict (c.fn_lt h) b i hframe
  have hdist := c.tokensOk.distinct
  rw [h] at hdist
  have hscope : ∀ k' phase, .scope k' phase ∈ S + R ↔ .scope k' phase ∈ c.tokens := by
    cases hleaves <;> simp [h]
  have hblock : ∀ g a m, .block g a m ∈ S → (g = f ∧ a = b) ∧
      (c.pushed f b i frame).Moves f k (c.instCount f) m := by
    cases hleaves <;> simp_all
  have hnone : c.inst? f (c.instCount f) = none := inst?_instCount _ _
  obtain ⟨ids, hids, hpath⟩ := c.exists_block h
  have hpushed : (c.pushed f b i frame).block? f b = some (ids ++ [c.instCount f]) := by
    rw [block?_pushed (c.fn_lt h), if_pos ⟨rfl, rfl⟩, hids]
    rfl
  refine ⟨⟨c.pushed f b i frame, S + R, ?_, ?_, ?_, ?_⟩, rfl, rfl⟩
  · refine c.tokensOk.grow hext rfl rfl rfl ?_ ?_ hscope ?_
    · cases hleaves with
      | block => exact distinct_exchange hdist rfl
      | nothing =>
        rw [zero_add]
        exact distinct_rest hdist
      | slot =>
        rw [add_assoc]
        refine distinct_add hdist fun u hu hkey => ?_
        cases u with
        | block g a m => cases hkey
        | scope m phase => cases hkey
        | slot g w m =>
          cases hkey
          have := (c.tokensOk.slot _ _ m (by simpa [h] using hu)).1
          rw [hnone] at this
          cases this
    · intro g a m hm
      rcases Multiset.mem_add.mp hm with hm | hm
      · obtain ⟨⟨rfl, rfl⟩, hmoves⟩ := hblock g a m hm
        exact ⟨_, hpushed, (hpath.mono hext).snoc hmoves⟩
      · exact path_pushed h hframe hm
    · intro g v m hm
      rw [Multiset.mem_add] at hm
      rcases hm with hm | hm
      · cases hleaves with
        | block => simp at hm
        | nothing => cases hm
        | slot =>
          obtain ⟨rfl, rfl, rfl⟩ : g = f ∧ v = c.instCount f ∧ m = k := by simpa using hm
          refine .inr ⟨(inst?_pushed (c.fn_lt h) ..).trans (if_pos ⟨rfl, rfl⟩), ?_⟩
          intro m' name hhome ho
          have := c.arenaOk.cell m' name _ ho
          rw [hhome, hnone] at this
          cases this
      · exact .inl (by simpa [h] using hm)
  · refine c.codeOk.grow hext (fnCount_push _ _ _ _) rfl (placed_pushed h)
      (refers_pushed h hframe hrefers) ?_ ?_
    · intro g a ids' hids' hno
      by_cases hga : g = f ∧ a = b
      · obtain ⟨rfl, rfl⟩ := hga
        cases hpushed.symm.trans hids'
        cases hleaves with
        | @block _ l _ _ => exact absurd (by simp) (hno l)
        | slot => exact absurd (by simp) (hno k)
        | nothing _ hends => exact .inr ⟨ids, c.instCount g, k, rfl, hpath.mono hext, hends⟩
      · rw [block?_pushed (c.fn_lt h), if_neg hga] at hids'
        refine .inl ⟨hids', fun m hm => ?_⟩
        rw [h] at hm
        rcases mem_add_singleton.mp hm with heq | hm
        · cases heq; exact hga ⟨rfl, rfl⟩
        · exact hno m (Multiset.mem_add.mpr (.inr hm))
    · intro g hg
      rw [blockCount_pushed] at hg
      exact .inl hg
  · exact c.arenaOk.grow hext rfl rfl rfl framed frames
  · refine fun hs => lexical_pushed hs h hframe (hclosure hs) hscope
      (fun g v m hm => by simp [hm]) fun hi => ?_
    cases hleaves with
    | block hne => exact absurd hi hne
    | nothing hne => exact absurd hi hne
    | slot hk hhome hparent =>
      exact ⟨k, ⟨hk, hhome, b, site_pushed (c.fn_lt h) hids (hpath.mono hext), hparent hs⟩, by simp⟩

theorem quiet_of_pushed (hf : f < c.fnCount) (hd : d.toLayout = c.pushed f b i c.frame) :
    c.Quiet d := by
  refine ⟨?_, ?_, ?_, ?_⟩
  · show c.toLayout.Extends strict d.toLayout
    rw [hd]
    exact pushed_extends strict hf b i fun _ _ hv => hv
  · rw [hd]; rfl
  · rw [hd]; rfl
  · rw [hd]; rfl

/-- An instruction has been added to an open block, which stays open in the same scope. -/
structure Emitted (c : Config strict) (f : Nat) (b : BlockId) (k : ScopeId) (R : Multiset Token)
    (i : Inst) (v : InstId) (d : Config strict) : Prop where
  quiet : c.Quiet d
  tokens : d.tokens = {.block f b k} + R
  fresh : c.inst? f v = none
  inst : d.inst? f v = some i
  site : d.Site f v k

theorem Emitted.valued (h : c.Emitted f b k R i v d) (hi : i.hasValue = true) :
    d.Valued f v := ⟨i, h.inst, hi⟩

end Config

/-! ## Contracts of instructions -/

section Contracts

variable {c : Config M.strict} {i : Inst} {t : BlockId}

/-- An instruction that leads to no other scope and does not end its block. -/
theorem emit_stay {S T : Multiset Token} (h : c.tokens = {.block ctx.func b k} + R)
    (hleaves : (c.pushed ctx.func b i c.frame).Moves ctx.func k (c.instCount ctx.func) k →
      c.Leaves (c.pushed ctx.func b i c.frame) ctx.func b k i S)
    (hT : S + R = {.block ctx.func b k} + T) (hterm : i.isTerminator = false)
    (hmove : i.movesFrames = false) (hclosure : i.closure? = none)
    (hrefers : c.Refers ctx.func i) :
    Sat M (emit ctx b i) c fun v d => v = c.instCount ctx.func ∧ c.Emitted ctx.func b k T i v d := by
  have hframe : ∀ k v, c.frame k = some v → c.frame k = some v := fun _ _ hv => hv
  have hext := pushed_extends M.strict (c.fn_lt h) b i hframe
  have hinst : (c.pushed ctx.func b i c.frame).inst? ctx.func (c.instCount ctx.func) = some i := by
    rw [inst?_pushed (c.fn_lt h), if_pos ⟨rfl, rfl⟩]
  obtain ⟨ids, hids, hpath⟩ := c.exists_block h
  obtain ⟨d, hd, htokens⟩ := Config.exists_pushed h (hleaves (.stay hinst hterm hmove)) hrefers
    (fun _ => hclosure) hframe (fun _ _ => .inl) c.arenaOk.frames
  refine ⟨d, by rw [hd]; rfl, rfl, Config.quiet_of_pushed (c.fn_lt h) hd, htokens.trans hT,
    inst?_instCount _ _, ?_, ?_⟩
  · rw [hd]; exact hinst
  · rw [hd]; exact ⟨b, site_pushed (c.fn_lt h) hids (hpath.mono hext)⟩

theorem emit_sat (h : c.tokens = {.block ctx.func b k} + R) (hi : i.isPlain = true)
    (ho : ∀ o ∈ i.operands, c.Valued ctx.func o) :
    Sat M (emit ctx b i) c fun v d => c.Emitted ctx.func b k R i v d := by
  refine (emit_stay h (.block ?_) rfl (Inst.isTerminator_of_isPlain hi)
    (Inst.movesFrames_of_isPlain hi) (Inst.closure?_of_isPlain hi) ⟨ho, ?_, ?_⟩).mono
    fun _ _ hd => hd.2
  · rintro rfl
    cases hi
  · rw [Inst.blockRefs_of_isPlain hi]
    exact fun _ ht => absurd ht not_mem_nil
  · rw [Inst.closure?_of_isPlain hi]
    exact fun id hid => by cases hid

theorem Layout.refers_phi (hin : ∀ e ∈ incoming, e.1 < p.blockCount f ∧ p.Valued f e.2) :
    p.Refers f (.phi incoming) := by
  refine ⟨?_, ?_, fun id hid => by cases hid⟩
  · rw [Inst.operands_phi]
    intro o ho
    obtain ⟨e, he, rfl⟩ := mem_map.mp ho
    exact (hin e he).2
  · rw [Inst.blockRefs_phi]
    intro t ht
    obtain ⟨e, he, rfl⟩ := mem_map.mp ht
    exact (hin e he).1

section

variable (h : c.tokens = {.block ctx.func b k} + R)
include h

theorem emitPhi_sat (hin : ∀ e ∈ incoming, e.1 < c.blockCount ctx.func ∧ c.Valued ctx.func e.2) :
    Sat M (emit ctx b (.phi incoming)) c fun v d =>
      c.Emitted ctx.func b k R (.phi incoming) v d :=
  (emit_stay h (.block (by nofun)) rfl rfl rfl rfl (refers_phi hin)).mono fun _ _ hd => hd.2

theorem emitAlloca_sat (hk : k < c.scopeCount) (hhome : c.home k = ctx.func)
    (hblock : M.strict → c.kind k = .block → c.parent? k = some (c.entry ctx.func b)) :
    Sat M (emit ctx b .alloca) c fun v d =>
      c.Emitted ctx.func b k ({.slot ctx.func v k} + R) .alloca v d := by
  refine (emit_stay h (.slot hk hhome hblock) (by rw [add_assoc, add_left_comm]) rfl rfl rfl ?_).mono ?_
  · exact ⟨fun _ ho => absurd ho not_mem_nil, fun _ ht => absurd ht not_mem_nil,
      fun id hid => by cases hid⟩
  · rintro _ d ⟨rfl, hd⟩
    exact hd

theorem perform_sat (hi : i.isPlain = true) (ho : ∀ o ∈ i.operands, c.Valued ctx.func o) :
    Sat M (perform ctx b i) c fun _ d => c.Quiet d ∧ d.tokens = {.block ctx.func b k} + R :=
  Sat.discard ((emit_sat h hi ho).mono fun _ _ he => ⟨he.quiet, he.tokens⟩)

/-- Leaving frames leads to the scope around them. -/
theorem popScopes_sat {n : Nat} (hkl : c.scopes.Above n k l) (hn : n ≤ c.blockCount ctx.func) :
    Sat M (popScopes ctx b n) c fun _ d => c.Quiet d ∧ d.tokens = {.block ctx.func b l} + R := by
  unfold popScopes
  cases n with
  | zero =>
    cases hkl
    exact Sat.pure ⟨.refl c, h⟩
  | succ n =>
    rw [if_pos (Nat.succ_pos n)]
    have hframe : ∀ k v, c.frame k = some v → c.frame k = some v := fun _ _ hv => hv
    have hinst : (c.pushed ctx.func b (.popScope (n + 1).toUInt32) c.frame).inst? ctx.func
        (c.instCount ctx.func) = some (.popScope (n + 1).toUInt32) := by
      rw [inst?_pushed (c.fn_lt h), if_pos ⟨rfl, rfl⟩]
    have hrefers : c.Refers ctx.func (.popScope (n + 1).toUInt32) :=
      ⟨fun _ ho => absurd ho not_mem_nil, fun _ ht => absurd ht not_mem_nil,
        fun id hid => by cases hid⟩
    obtain ⟨d, hd, htokens⟩ := Config.exists_pushed h
      (.block (by nofun) (.pop hinst (by rw [blockCount_pushed]; exact hn) hkl)) hrefers
      (fun _ => rfl) hframe (fun _ _ => .inl) c.arenaOk.frames
    exact Sat.discard ⟨d, by rw [hd]; rfl, Config.quiet_of_pushed (c.fn_lt h) hd, htokens⟩

theorem end_sat (hterm : i.isTerminator = true) (ho : ∀ o ∈ i.operands, c.Valued ctx.func o)
    (hb : ∀ t ∈ i.blockRefs, t < c.blockCount ctx.func)
    (hsucc : ∀ t ∈ i.successors, c.HasBlock ctx.func t k)
    (hret : i.successors = [] → k < c.scopeCount ∧ c.kind k = .function) :
    Sat M (perform ctx b i) c fun _ d => c.Quiet d ∧ d.tokens = R := by
  have hframe : ∀ k v, c.frame k = some v → c.frame k = some v := fun _ _ hv => hv
  have hext := pushed_extends M.strict (c.fn_lt h) b i hframe
  have hclosure : i.closure? = none := by cases i <;> first | rfl | cases hterm
  have hends : (c.pushed ctx.func b i c.frame).Ends ctx.func (c.instCount ctx.func) k := by
    refine ⟨i, ?_, hterm, fun t ht => (hsucc t ht).mono hext, hret⟩
    rw [inst?_pushed (c.fn_lt h), if_pos ⟨rfl, rfl⟩]
  obtain ⟨d, hd, htokens⟩ := Config.exists_pushed h (.nothing (by rintro rfl; cases hterm) hends)
    ⟨ho, hb, fun id hid => by rw [hclosure] at hid; cases hid⟩ (fun _ => hclosure) hframe
    (fun _ _ => .inl) c.arenaOk.frames
  exact Sat.discard ⟨d, by rw [hd]; rfl, Config.quiet_of_pushed (c.fn_lt h) hd, htokens.trans (zero_add R)⟩

theorem jump_sat (ht : c.HasBlock ctx.func t k) :
    Sat M (perform ctx b (.jump t)) c fun _ d => c.Quiet d ∧ d.tokens = R := by
  refine end_sat h rfl (fun _ ho => absurd ho not_mem_nil) ?_ ?_ (nofun)
  · exact fun t' ht' => mem_singleton.mp ht' ▸ ht.1
  · exact fun t' ht' => mem_singleton.mp ht' ▸ ht

/-- A choice between two blocks that are entered in the current scope. -/
theorem branch_sat {cond : InstId} {u : BlockId}
    (hc : c.Valued ctx.func cond) (ht : c.HasBlock ctx.func t k) (hu : c.HasBlock ctx.func u k) :
    Sat M (perform ctx b (.branch cond t u)) c fun _ d => c.Quiet d ∧ d.tokens = R := by
  have hboth : ∀ x ∈ [t, u], c.HasBlock ctx.func x k := by
    intro x hx
    rcases mem_cons.mp hx with rfl | hx
    · exact ht
    · exact mem_singleton.mp hx ▸ hu
  exact end_sat h rfl (fun _ ho => mem_singleton.mp ho ▸ hc)
    (fun x hx => (hboth x hx).1) hboth (nofun)

theorem ret_sat {value : InstId}
    (hv : c.Valued ctx.func value) (hk : k < c.scopeCount) (hkind : c.kind k = .function) :
    Sat M (perform ctx b (.ret value)) c fun _ d => c.Quiet d ∧ d.tokens = R :=
  end_sat h rfl (fun _ ho => mem_singleton.mp ho ▸ hv)
    (fun _ ht => absurd ht not_mem_nil) (fun _ ht => absurd ht not_mem_nil)
    fun _ => ⟨hk, hkind⟩

end

end Contracts

/-! ## New blocks -/

namespace Layout

def withBlock (p : Layout) (f : Nat) (k : ScopeId) : Layout :=
  { p with
    toState := p.toState.addBlock f
    entry := fun g b => if g = f ∧ b = p.blockCount f then k else p.entry g b }

theorem block?_withBlock (hf : f < p.fnCount) (k : ScopeId) (g : Nat) (b : BlockId) :
    (p.withBlock f k).block? g b =
      if g = f ∧ b = p.blockCount f then some [] else p.block? g b :=
  block?_addBlock hf g b

theorem blockCount_withBlock (hf : f < p.fnCount) (k : ScopeId) (g : Nat) :
    (p.withBlock f k).blockCount g =
      if g = f then p.blockCount f + 1 else p.blockCount g :=
  blockCount_addBlock hf g

theorem withBlock_extends (strict : Prop) (hf : f < p.fnCount) (k : ScopeId) :
    p.Extends strict (p.withBlock f k) where
  __ := Extends.refl p
  fn g F hF := by
    have hg : (p.withBlock f k).fn? g = _ := fn?_modifyFn p.toState f g _
    rw [hg, hF]
    split
    · exact ⟨_, rfl, rfl⟩
    · exact ⟨F, rfl, rfl⟩
  inst g v i hi := ⟨i, (inst?_addBlock p.toState f g v).trans hi, .same i⟩
  block g b ids hids := by
    rw [block?_withBlock hf, if_neg, hids]
    · exact ⟨[], by rw [append_nil]⟩
    · rintro ⟨rfl, rfl⟩
      exact (lt_blockCount hids).false
  entry g b hb := by
    refine if_neg ?_
    rintro ⟨rfl, rfl⟩
    exact hb.false

end Layout

/-- A new block is open. Control may be in any scope when it is entered, but a function starts in its
body. -/
theorem newBlock_sat {c : Config M.strict} (k : ScopeId) (hf : ctx.func < c.fnCount)
    (hfirst : 0 < c.blockCount ctx.func ∨ (k < c.scopeCount ∧ c.kind k = .function)) :
    Sat M (newBlock ctx) c fun b d =>
      c.Quiet d ∧ d.tokens = {.block ctx.func b k} + c.tokens ∧ d.HasBlock ctx.func b k ∧
        c.blockCount ctx.func < d.blockCount ctx.func := by
  have hext := withBlock_extends M.strict hf k
  have hentry : (c.withBlock ctx.func k).entry ctx.func (c.blockCount ctx.func) = k :=
    if_pos ⟨rfl, rfl⟩
  have hcount : (c.withBlock ctx.func k).blockCount ctx.func = c.blockCount ctx.func + 1 := by
    rw [blockCount_withBlock hf, if_pos rfl]
  have hold : ∀ {g b l}, .block g b l ∈ c.tokens → ¬(g = ctx.func ∧ b = c.blockCount ctx.func) := by
    rintro g b l hl ⟨rfl, rfl⟩
    obtain ⟨ids, hids, _⟩ := c.tokensOk.block _ _ _ hl
    exact (lt_blockCount hids).false
  have hscope : ∀ l phase,
      .scope l phase ∈ ({.block ctx.func (c.blockCount ctx.func) k} + c.tokens : Multiset Token) ↔
        .scope l phase ∈ c.tokens := fun l phase =>
    mem_add_singleton.trans ⟨fun ho => ho.resolve_left (by rintro ⟨⟩), .inr⟩
  refine ⟨⟨c.withBlock ctx.func k, {.block ctx.func (c.blockCount ctx.func) k} + c.tokens,
    ?_, ?_, ?_, ?_⟩, rfl, ⟨hext, rfl, rfl, rfl⟩, rfl, ⟨?_, hentry⟩, ?_⟩
  · refine c.tokensOk.grow hext rfl rfl rfl ?_ ?_ hscope ?_
    · refine distinct_add c.tokensOk.distinct fun u hu hkey => ?_
      cases u with
      | block g b l =>
        cases hkey
        exact hold hu ⟨rfl, rfl⟩
      | scope l phase => cases hkey
      | slot g v m => cases hkey
    · intro g b l hl
      rw [block?_withBlock hf]
      rcases mem_add_singleton.mp hl with heq | hl
      · cases heq
        exact ⟨[], if_pos ⟨rfl, rfl⟩, by rw [hentry]; exact .nil k⟩
      · rw [if_neg (hold hl)]
        obtain ⟨ids, hids, hpath⟩ := c.tokensOk.block g b l hl
        refine ⟨ids, hids, ?_⟩
        rw [hext.entry g b (lt_blockCount hids)]
        exact hpath.mono hext
    · exact fun g v m hm => .inl (by simpa using hm)
  · refine c.codeOk.grow hext (fnCount_addBlock _ _) rfl ?_ ?_ ?_ ?_
    · intro g F hF
      have hg : (c.withBlock ctx.func k).fn? g = _ := fn?_modifyFn c.toState ctx.func g _
      rw [hg] at hF
      split at hF
      · obtain ⟨G, hG, rfl⟩ := Option.map_eq_some_iff.mp hF
        exact Code.Function.placed_newBlock (c.codeOk.placed g G hG)
      · exact c.codeOk.placed g F hF
    · intro g v i hi
      exact .inl ((inst?_addBlock c.toState ctx.func g v).symm.trans hi)
    · intro g b ids hids hno
      rw [block?_withBlock hf] at hids
      split at hids
      · next hgb =>
        obtain ⟨rfl, rfl⟩ := hgb
        exact absurd (mem_add_singleton.mpr (.inl rfl)) (hno k)
      · exact .inl ⟨hids, fun l hl => hno l (mem_add_singleton.mpr (.inr hl))⟩
    · intro g hg
      by_cases hgf : g = ctx.func
      · subst hgf
        rcases Nat.eq_zero_or_pos (c.blockCount ctx.func) with hzero | hpos
        · have hbody := hfirst.resolve_left (by rw [hzero]; exact Nat.lt_irrefl 0)
          have hk : (c.withBlock ctx.func k).entry ctx.func 0 = k := if_pos ⟨rfl, hzero.symm⟩
          rw [hk]
          exact .inr hbody
        · exact .inl hpos
      · rw [blockCount_withBlock hf, if_neg hgf] at hg
        exact .inl hg
  · exact c.arenaOk.grow hext rfl rfl rfl (fun _ _ => .inl) c.arenaOk.frames
  · refine fun hs => c.lexical_grow hs hext rfl rfl rfl rfl hscope ?_ (fun _ _ _ hm => by simp [hm]) ?_
    · exact fun l g v captured hl _ ho => ho.mono hext hl rfl fun i hi =>
        (inst?_addBlock c.toState ctx.func g v).trans hi
    · exact fun g v i hi => .inl ((inst?_addBlock c.toState ctx.func g v).symm.trans hi)
  · show _ < (c.withBlock ctx.func k).blockCount ctx.func
    rw [hcount]
    exact Nat.lt_succ_self _
  · show _ < (c.withBlock ctx.func k).blockCount ctx.func
    rw [hcount]
    exact Nat.lt_succ_self _

/-! ## Completed instructions -/

namespace Layout

variable {i : Inst}

/-- The layout after an instruction has been completed. -/
def replaced (p : Layout) (f : Nat) (v : InstId) (i : Inst) : Layout :=
  { p with toState := p.toState.replace f v i }

theorem inst?_replaced (hv : p.inst? f v = some j) (g : Nat) (w : InstId) :
    (p.replaced f v i).inst? g w = if g = f ∧ w = v then some i else p.inst? g w := by
  have := inst?_replace p.toState f v i g w
  rw [hv] at this
  exact this

theorem replaced_extends (strict : Prop) (hv : p.inst? f v = some j) (hj : j.Becomes i) :
    p.Extends strict (p.replaced f v i) where
  __ := Extends.refl p
  fn g F hF := by
    have hg : (p.replaced f v i).fn? g = _ := fn?_modifyFn p.toState f g _
    rw [hg, hF]
    split
    · exact ⟨_, rfl, rfl⟩
    · exact ⟨F, rfl, rfl⟩
  inst g w l hl := by
    rw [inst?_replaced hv]
    split
    · next hgw =>
      obtain ⟨rfl, rfl⟩ := hgw
      rw [hv] at hl
      cases hl
      exact ⟨i, rfl, hj⟩
    · exact ⟨l, hl, .same l⟩
  block g b ids hids :=
    ⟨[], by rw [append_nil]; exact (block?_replace p.toState f v i g b).trans hids⟩

end Layout

/-- An instruction that does not open a closed scope can be completed. -/
theorem Config.exists_replaced {i : Inst} (hv : c.inst? f v = some j) (hj : j.Becomes i)
    (hrefers : c.Refers f i)
    (hopen : ∀ k captured, (∀ phase, .scope k phase ∉ c.tokens) → ¬c.Opener k f v captured) :
    ∃ d : Config strict, d.toLayout = c.replaced f v i ∧ d.tokens = c.tokens := by
  have hext := replaced_extends strict hv hj
  have hblock : ∀ g b, (c.replaced f v i).block? g b = c.block? g b :=
    block?_replace c.toState f v i
  refine ⟨⟨c.replaced f v i, c.tokens, ?_, ?_, ?_, ?_⟩, rfl, rfl⟩
  · refine c.tokensOk.grow hext rfl rfl rfl c.tokensOk.distinct ?_ (fun _ _ => Iff.rfl)
      fun g w _ hw => .inl hw
    intro g b k hk
    obtain ⟨ids, hids, hpath⟩ := c.tokensOk.block g b k hk
    exact ⟨ids, (hblock g b).trans hids, hpath.mono hext⟩
  · refine c.codeOk.grow hext (fnCount_replace _ _ _ _) rfl ?_ ?_ ?_ ?_
    · intro g F hF
      have hg : (c.replaced f v i).fn? g = _ := fn?_modifyFn c.toState f g _
      rw [hg] at hF
      split at hF
      · obtain ⟨G, hG, rfl⟩ := Option.map_eq_some_iff.mp hF
        exact Code.Function.placed_replace v i (c.codeOk.placed g G hG)
      · exact c.codeOk.placed g F hF
    · intro g w l hl
      rw [inst?_replaced hv] at hl
      split at hl
      · next hgw =>
        obtain ⟨rfl, rfl⟩ := hgw
        cases hl
        exact .inr (hrefers.mono hext)
      · exact .inl hl
    · exact fun g b ids hids hno => .inl ⟨(hblock g b).symm.trans hids, hno⟩
    · intro g hg
      rw [← blockCount_replace c.toState f v i g]
      exact .inl hg
  · exact c.arenaOk.grow hext rfl rfl rfl (fun _ _ => .inl) c.arenaOk.frames
  · refine fun hs => c.lexical_grow hs hext rfl rfl rfl rfl (fun _ _ => Iff.rfl) ?_ (fun _ _ _ hm => hm) ?_
    · intro k g w captured hk hno ho
      refine ho.mono hext hk rfl fun l hl => ?_
      rw [inst?_replaced hv, if_neg, hl]
      rintro ⟨rfl, rfl⟩
      exact hopen k captured hno ho
    · intro g w l hl
      rw [inst?_replaced hv] at hl
      split at hl
      · next hgw =>
        obtain ⟨rfl, rfl⟩ := hgw
        cases hl
        cases hj with
        | same => exact .inl hv
        | pushScope | phi => exact .inr ⟨rfl, nofun⟩
      · exact .inl hl

/-- A choice of values is completed when the blocks that control comes from are there. -/
theorem patchPhi_sat {c : Config M.strict} {before : List (BlockId × InstId)}
    (hv : c.inst? ctx.func v = some (.phi before))
    (hin : ∀ e ∈ incoming, e.1 < c.blockCount ctx.func ∧ c.Valued ctx.func e.2) :
    Sat M (patch ctx v (.phi incoming)) c fun _ d => c.Quiet d ∧ d.tokens = c.tokens := by
  have hopen : ∀ k captured, (∀ phase, .scope k phase ∉ c.tokens) → ¬c.Opener k ctx.func v captured := by
    intro k captured _ ho
    generalize hf : ctx.func = f at ho hv
    cases ho with
    | frame _ _ hi => rw [hv] at hi; cases hi
    | closure _ _ _ hi hid => rw [hv] at hi; cases hi; cases hid
  obtain ⟨d, hd, htokens⟩ := Config.exists_replaced hv (.phi before incoming) (refers_phi hin) hopen
  refine ⟨d, by rw [hd]; rfl, ⟨?_, ?_, ?_, ?_⟩, htokens⟩
  · show c.toLayout.Extends M.strict d.toLayout
    rw [hd]
    exact replaced_extends M.strict hv (.phi before incoming)
  · rw [hd]; rfl
  · rw [hd]; rfl
  · rw [hd]; rfl

end ScriptIr.Lower
