import ScriptIr.Lower.Function
import ScriptIr.Lower.Frame
import ScriptIr.Proofs.Lower.Addresses

/-!
# Frames and closures

A scope is closed once the instruction that opens its frame, or makes its closure, holds the slots of the
names it captures. From then on it captures nothing more.

* `openFrame_sat`, `closeFrame_sat`: the frame of a block scope.
-/
namespace ScriptIr.Lower

open Code Layout List Scope

variable {M : Mode} {strict : Prop} {b : BlockId} {captured : List InstId} {p : Layout} {g : Nat}

/-! ## Closing a scope -/

section Closing

variable {k : ScopeId} {R : Multiset Token}

theorem TokensOk.drop (h : TokensOk p ({.scope k .running} + R)) : TokensOk p R := by
  refine ⟨distinct_rest h.distinct, ?_, ?_, ?_, ?_, ?_⟩
  · exact fun f b l hl => h.block f b l (mem_add_singleton.mpr (.inr hl))
  · exact fun l phase hl => h.scope l phase (mem_add_singleton.mpr (.inr hl))
  · exact fun l names hl => h.naming l names (mem_add_singleton.mpr (.inr hl))
  · intro l hl hno
    refine h.settled l hl fun names hn => ?_
    rcases mem_add_singleton.mp hn with heq | hn
    · cases heq
    · exact hno names hn
  · exact fun f v l hv => h.slot f v l (mem_add_singleton.mpr (.inr hv))

theorem CodeOk.drop (h : CodeOk p ({.scope k .running} + R)) : CodeOk p R :=
  { h with
    finished := fun f b ids hids hno => h.finished f b ids hids fun l hl => by
      rcases mem_add_singleton.mp hl with heq | hl
      · cases heq
      · exact hno l hl }

/-- A scope whose captured slots are in place needs no more work. -/
theorem Config.exists_closed {c : Config strict} (h : c.tokens = {.scope k .running} + R)
    (hclosed : strict → ∀ outer, c.parent? k = some outer → c.Closed k outer) :
    ∃ d : Config strict, d.toLayout = c.toLayout ∧ d.tokens = R := by
  have htokens := c.tokensOk
  have hcode := c.codeOk
  rw [h] at htokens hcode
  refine ⟨⟨c.toLayout, R, htokens.drop, hcode.drop, c.arenaOk, fun hs => ?_⟩, rfl, rfl⟩
  refine { c.lexicalOk hs with
    closed := fun l outer hl hno hp => ?_
    unmade := fun l phase hl => ?_
    slots := by simpa [h] using (c.lexicalOk hs).slots }
  · by_cases hlk : l = k
    · subst hlk
      exact hclosed hs outer hp
    · refine (c.lexicalOk hs).closed l outer hl (fun phase ht => ?_) hp
      rw [h, mem_add_singleton] at ht
      rcases ht with heq | ht
      · cases heq
        exact hlk rfl
      · exact hno phase ht
  · exact (c.lexicalOk hs).unmade l phase (by rw [h, mem_add_singleton]; exact .inr hl)

end Closing

/-! ## Frames -/

namespace Config

variable {c d : Config strict} {ctx : Ctx} {k : ScopeId} {fr : Frame}

/-- A block scope inside the current one that has no frame yet. -/
structure Blank (c : Config strict) (ctx : Ctx) (k : ScopeId) : Prop where
  kind : c.kind k = .block
  parent : c.parent? k = some ctx.scope
  home : c.home k = ctx.func
  positions : c.positions k = fun _ => none
  frame : c.frame k = none

theorem Opened.blank (h : c.Opened (some ctx.scope) .block ctx.func k d) : d.Blank ctx k where
  kind := by unfold Layout.kind; rw [h.get]
  parent := by unfold Layout.parent?; rw [h.get]
  home := h.home
  positions := h.positions
  frame := h.frame

theorem Blank.quiet (h : c.Blank ctx k) (hq : c.Quiet d) : d.Blank ctx k where
  kind := (hq.le.kind k (lt_scopeCount h.kind)).trans h.kind
  parent := (hq.le.parent k (lt_scopeCount h.kind)).trans h.parent
  home := (hq.le.home k (lt_scopeCount h.kind)).trans h.home
  positions := (hq.le.positions k (lt_scopeCount h.kind)).trans h.positions
  frame := by rw [hq.frame]; exact h.frame

/-- The frame of a block scope inside the current one. -/
structure Framed (c : Config strict) (ctx : Ctx) (fr : Frame) : Prop where
  kind : c.kind fr.scope = .block
  parent : c.parent? fr.scope = some ctx.scope
  home : c.home fr.scope = ctx.func
  frame : c.frame fr.scope = some fr.push
  entry : c.HasBlock ctx.func fr.entry ctx.scope
  body : c.HasBlock ctx.func fr.body ctx.scope

theorem Framed.mono (h : c.Framed ctx fr) (hcd : c ≤ d) : d.Framed ctx fr where
  kind := (hcd.kind _ (lt_scopeCount h.kind)).trans h.kind
  parent := (hcd.parent _ (lt_scopeCount h.kind)).trans h.parent
  home := (hcd.home _ (lt_scopeCount h.kind)).trans h.home
  frame := hcd.frame _ _ h.frame
  entry := h.entry.mono hcd
  body := h.body.mono hcd

end Config

section Frames

variable {c : Config M.strict} {ctx : Ctx} {env : Tree.Env} {k : ScopeId} {R : Multiset Token}
  {fr : Frame} {size : UInt32}

theorem emitPush_sat (h : c.tokens = {ctx.here b} + R) (hk : c.Blank ctx k) :
    Sat M (emit ctx b (.pushScope 0 [])) c fun v d =>
      c.Still d ∧ d.tokens = {.block ctx.func b k} + R ∧ d.frame k = some v := by
  let frame : ScopeId → Option InstId := fun l =>
    if l = k then some (c.instCount ctx.func) else c.frame l
  have hsame : frame k = some (c.instCount ctx.func) := if_pos rfl
  have hother : ∀ l, l ≠ k → frame l = c.frame l := fun l hl => if_neg hl
  have hframe : ∀ l v, c.frame l = some v → frame l = some v := by
    intro l v hv
    rw [hother, hv]
    rintro rfl
    rw [hk.frame] at hv
    cases hv
  have hext := pushed_extends M.strict (c.fn_lt h) b (.pushScope 0 []) hframe
  have hinst : (c.pushed ctx.func b (.pushScope 0 []) frame).inst? ctx.func (c.instCount ctx.func) =
      some (.pushScope 0 []) := by
    rw [inst?_pushed (c.fn_lt h), if_pos ⟨rfl, rfl⟩]
  -- the instructions of older frames are older
  have hold : ∀ l, l ≠ k → frame l = some (c.instCount ctx.func) → c.home l ≠ ctx.func := by
    intro l hl hv hhome
    rw [hother l hl] at hv
    obtain ⟨_, _, _, hi⟩ := c.arenaOk.framed l _ hv
    rw [hhome] at hi
    exact Nat.lt_irrefl _ (State.lt_instCount hi)
  have hrefers : c.Refers ctx.func (.pushScope 0 []) :=
    ⟨fun _ ho => absurd ho not_mem_nil, fun _ ht => absurd ht not_mem_nil, nofun⟩
  have hmoves : (c.pushed ctx.func b (.pushScope 0 []) frame).Moves ctx.func ctx.scope
      (c.instCount ctx.func) k := .push hinst hk.kind hk.parent hk.home hsame
  have hframed : ∀ l v, frame l = some v → c.frame l = some v ∨
      (c.pushed ctx.func b (.pushScope 0 []) frame).Opens l v := by
    intro l v hv
    by_cases hl : l = k
    · subst hl
      cases hsame.symm.trans hv
      refine .inr ⟨lt_scopeCount hk.kind, 0, [], ?_⟩
      rw [show (c.pushed ctx.func b (.pushScope 0 []) frame).home l = ctx.func from hk.home]
      exact hinst
    · exact .inl ((hother l hl).symm.trans hv)
  have hframes : ∀ l m v, frame l = some v → frame m = some v → c.home l = c.home m → l = m := by
    intro l m v hl hm hhome
    by_cases hlk : l = k
    · by_cases hmk : m = k
      · rw [hlk, hmk]
      · subst hlk
        cases hsame.symm.trans hl
        exact absurd (hhome.symm.trans hk.home) (hold m hmk hm)
    · by_cases hmk : m = k
      · subst hmk
        cases hsame.symm.trans hm
        exact absurd (hhome.trans hk.home) (hold l hlk hl)
      · rw [hother l hlk] at hl
        rw [hother m hmk] at hm
        exact c.arenaOk.frames l m v hl hm hhome
  obtain ⟨d, hd, htokens⟩ :=
    c.exists_pushed h (.block (by nofun) hmoves) hrefers (fun _ => rfl) hframe hframed hframes
  refine ⟨d, by rw [hd]; rfl, ⟨?_, by rw [hd]; rfl, by rw [hd]; rfl⟩, htokens, by rw [hd]; exact hsame⟩
  show c.toLayout.Extends M.strict d.toLayout
  rw [hd]
  exact hext

/-- A frame whose contents are still to come: control is inside it, and its entry is open. -/
theorem openFrame_sat (hat : c.At ctx env R) (hk : c.Blank ctx k) : Sat M (openFrame ctx k) c fun fr d =>
      fr.scope = k ∧ c.Still d ∧ d.tokens = {.block ctx.func fr.body k} +
          ({ctx.here fr.entry} + c.tokens) ∧
        d.Framed ctx fr ∧ d.Fresh (ctx.withScope k) fr.body env R := by
  have hpos : 0 < c.blockCount ctx.func := Nat.zero_lt_of_lt hat.room
  have hf := State.lt_fnCount_of_blockCount hpos
  unfold openFrame
  refine (newBlock_sat ctx.scope hf (.inl hpos)).bind ?_
  rintro entry d ⟨hq, ht, hentry, hmore⟩
  have hpos' := hpos.trans hmore
  refine (newBlock_sat ctx.scope (hq.le.fnCount hf) (.inl hpos')).bind ?_
  rintro body e ⟨hq', ht', hbody, hmore'⟩
  have hk' := (hk.quiet hq).quiet hq'
  refine (emitPush_sat (ht'.trans (by rw [ht])) hk').bind ?_
  rintro push e' ⟨hstill, ht'', hframe⟩
  have hle := (hq.trans hq').le.trans hstill.le
  have hlt := lt_scopeCount hk'.kind
  have hparent := (hstill.le.parent k hlt).trans hk'.parent
  have hkind := (hstill.le.kind k hlt).trans hk'.kind
  refine .pure ⟨rfl, ((hq.trans hq').still).trans hstill, ht'', ?_, ?_⟩
  · exact ⟨hkind, hparent, (hstill.le.home k hlt).trans hk'.home, hframe,
      (hentry.mono hq'.le).mono hstill.le, hbody.mono hstill.le⟩
  · have hat' := hat.mono hle
    refine ⟨hlt.trans_le hstill.le.size, (hstill.le.home k hlt).trans hk'.home,
      (hstill.le.positions k hlt).trans hk'.positions, (nofun),
      .inr ⟨ctx.scope, hparent, hat'.env, hat'.running⟩, ?_,
      fun _ => ⟨(hbody.mono hstill.le).1, hparent.trans (congrArg some (hbody.mono hstill.le).2.symm)⟩⟩
    have hdepth := Arena.scopesToFunction_block hkind hparent
      (e'.arenaOk.sound.parent_lt k ctx.scope hparent)
    have hsame := hle.scopesToFunction hat.scope
    have hroom := hat.room
    have hgrow := hstill.le.blockCount ctx.func
    show e'.scopes.scopesToFunction k < e'.blockCount ctx.func
    omega

theorem Config.known_captures {c : Config strict} {outer : ScopeId} (hp : c.parent? k = some outer) :
    ∀ name ∈ (c.scopes.captures k).map (·.name), ((c.scopes.get outer).binding? name).isSome := by
  intro name hname
  obtain ⟨cap, hcap, rfl⟩ := mem_map.mp hname
  obtain ⟨p, hp', hb⟩ := c.arenaOk.sound.visible k cap hcap
  rw [show p = outer from Option.some.inj (hp'.symm.trans hp)] at hb
  exact hb

/-- The instruction that opens a frame can be completed as long as its scope is not closed. -/
theorem patchPush_sat (hfr : c.Framed ctx fr) (hopen : ∃ phase, .scope fr.scope phase ∈ c.tokens)
    (hcaptured : ∀ v ∈ captured, c.Valued ctx.func v) :
    Sat M (patch ctx fr.push (.pushScope size captured)) c fun _ d =>
      c.Quiet d ∧ d.tokens = c.tokens ∧ d.inst? ctx.func fr.push = some (.pushScope size captured) := by
  obtain ⟨_, size', captured', hinst⟩ := c.arenaOk.framed _ _ hfr.frame
  rw [hfr.home] at hinst
  have hrefers : c.Refers ctx.func (.pushScope size captured) := by
    refine ⟨?_, ?_, fun id hid => by cases hid⟩
    · rw [Inst.operands_pushScope]
      exact hcaptured
    · intro t ht
      rw [show (Inst.pushScope size captured).blockRefs = [] from
        Inst.filterMap_value_block captured] at ht
      cases ht
  have hclosed : ∀ l cs, (∀ phase, .scope l phase ∉ c.tokens) → ¬c.Opener l ctx.func fr.push cs := by
    intro l cs hno ho
    have hhome := hfr.home
    generalize hf : ctx.func = f at ho hinst hhome
    cases ho with
    | frame _ hframe _ _ =>
      have hl := c.arenaOk.frames l fr.scope fr.push hframe hfr.frame hhome.symm
      obtain ⟨phase, hp⟩ := hopen
      exact hno phase (hl ▸ hp)
    | closure _ _ _ hi hid =>
      rw [hinst] at hi
      cases hi
      cases hid
  obtain ⟨d, hd, htokens⟩ := c.exists_replaced hinst (.pushScope size' size captured' captured)
    hrefers hclosed
  refine ⟨d, by rw [hd]; rfl, ⟨?_, by rw [hd]; rfl, by rw [hd]; rfl, by rw [hd]; rfl⟩, htokens, ?_⟩
  · show c.toLayout.Extends M.strict d.toLayout
    rw [hd]
    exact replaced_extends M.strict hinst (.pushScope size' size captured' captured)
  · rw [hd, inst?_replaced hinst, if_pos ⟨rfl, rfl⟩]

/-- A scope is closed as soon as its captured slots are in place. -/
theorem fillFrame_sat (hat : c.At ctx env R) {S : Multiset Token} (hfr : c.Framed ctx fr)
    (h : c.tokens = {.scope fr.scope .running} + S) (hcaptured : ∀ v ∈ captured, c.Valued ctx.func v)
    (hdenotes : M.strict → Forall₂ (fun v name => c.Denotes ctx.func v ctx.scope name) captured
      ((c.scopes.captures fr.scope).map (·.name))) :
    Sat M (patch ctx fr.push (.pushScope (c.scopes.variableCount fr.scope).toUInt32 captured)) c
      fun _ d => c.Quiet d ∧ d.tokens = S := by
  refine (patchPush_sat hfr ⟨.running, by rw [h]; simp⟩ hcaptured).settle ?_
  rintro _ d ⟨hq, ht, hpush⟩
  have hfr' := hfr.mono hq.le
  have hclosed : M.strict → ∀ outer, d.parent? fr.scope = some outer → d.Closed fr.scope outer := by
    intro hs outer hp
    cases hfr'.parent.symm.trans hp
    refine ⟨ctx.func, fr.push, captured, ?_, (hat.mono hq.le).home.symm, ?_⟩
    · rw [← hfr'.home] at hpush ⊢
      rw [← hq.scopes] at hpush
      exact .frame hfr'.kind hfr'.frame hpush (d.arenaOk.counted _ hfr'.kind)
    · rw [hq.captures]
      refine (forall₂_map_right_iff.mp (hdenotes hs)).imp fun v cap hv => hv.mono hq.le hs ?_
      rw [hat.env]
      exact Option.some_ne_none env
  obtain ⟨e, he, htokens⟩ := Config.exists_closed (ht.trans h) hclosed
  refine ⟨e, by rw [he], ⟨?_, by rw [he]; exact hq.scopes, by rw [he]; exact hq.uses,
    by rw [he]; exact hq.frame⟩, htokens⟩
  show c.toLayout.Extends M.strict e.toLayout
  rw [he]
  exact hq.le

theorem closeFrame_sat (hat : c.At ctx env R) (hfr : c.Framed ctx fr)
    (h : c.tokens = {ctx.here fr.entry} + ({.scope fr.scope .running} + R)) :
    Sat M (closeFrame ctx fr) c fun _ d => c.Quiet d ∧ d.tokens = R := by
  have hlarger : R ⊆ {.scope fr.scope .running} + R := fun _ ht => mem_add_singleton.mpr (.inr ht)
  unfold closeFrame capturedNames
  refine .scopes_bind ?_
  refine (capturedAddresses_sat h (hat.weaken hlarger) (Config.known_captures hfr.parent)).bind ?_
  rintro captured d ⟨hq, ht, hvalued, hdenotes⟩
  have hfr' := hfr.mono hq.le
  obtain ⟨_, _, _, hinst⟩ := d.arenaOk.framed _ _ hfr'.frame
  rw [hfr'.home] at hinst
  refine .scopes_bind (.instAt?_bind ?_)
  rw [hinst]
  rw [← hq.captures] at hdenotes
  have hinner : d.tokens = {.scope fr.scope .running} + ({ctx.here fr.entry} + R) := by
    rw [ht]
    ac_rfl
  refine (fillFrame_sat (hat.mono hq.le) hfr' hinner hvalued hdenotes).bind ?_
  rintro _ e ⟨hq', ht'⟩
  refine (jump_sat ht' (hfr'.mono hq'.le).body).mono ?_
  rintro _ e' ⟨hq'', ht''⟩
  exact ⟨(hq.trans hq').trans hq'', ht''⟩

end Frames

/-! ## Closures -/

/-- The layout in which the closure of function `g` is made at a place, unless it is made elsewhere. -/
def Layout.remade (p : Layout) (g : Nat) (site : Nat × InstId) : Layout :=
  { p with maker := fun g' => (p.maker g').or (if g' = g then some site else none) }

theorem Layout.remade_extends (strict : Prop) (p : Layout) (g : Nat) (site : Nat × InstId) :
    p.Extends strict (p.remade g site) :=
  { (Extends.refl p : p.Extends strict p) with
    maker := fun g' site' hg => by
      show (p.maker g').or _ = some site'
      rw [hg]
      rfl
    frozen := fun _ _ _ _ => rfl }

theorem Layout.maker_remade (site : Nat × InstId) (h : p.maker g = none) :
    (p.remade g site).maker g = some site := by
  show (p.maker g).or _ = some site
  rw [h, if_pos rfl]
  rfl

theorem Layout.maker_remade_other {g' : Nat} (site : Nat × InstId) (h : g' ≠ g) :
    (p.remade g site).maker g' = p.maker g' := by
  show (p.maker g').or _ = p.maker g'
  rw [if_neg h, Option.or_none]

namespace Config

variable {c d : Config strict} {f : Nat} {k outer : ScopeId} {F : Code.Function} {i : Inst}
  {R : Multiset Token}

/-- The same code, of which nothing is promised about names. -/
def loose (c : Config strict) : Config False :=
  { c with lexicalOk := False.elim }

/-- What names mean after the closure of a finished function has been made. -/
theorem lexicalOk_made (hs : strict) (h : c.tokens = {.block f b outer} + ({.scope k .running} + R))
    (hkind : c.kind k = .function) (hparent : c.parent? k = some outer)
    (hF : c.fn? (c.home k) = some F) (hi : i.closure? = some F.id)
    (hclosed : f = c.home outer ∧ c.env outer ≠ none ∧
      Forall₂ (fun w cap => c.Denotes f w outer cap.name) i.captured (c.scopes.captures k)) :
    LexicalOk ((c.pushed f b i c.frame).remade (c.home k) (f, c.instCount f))
      ({.block f b outer} + R) := by
  have hlex := c.lexicalOk hs
  have hf := c.fn_lt h
  have hpushed := pushed_extends strict hf b i fun _ _ (hv : c.frame _ = _) => hv
  have hext := hpushed.trans (remade_extends strict (c.pushed f b i c.frame) (c.home k)
    (f, c.instCount f))
  have hk : .scope k .running ∈ c.tokens := by simp [h]
  have hnone : c.maker (c.home k) = none := hlex.unmade k .running hk hkind
  have hmade := maker_remade (p := c.pushed f b i c.frame) (f, c.instCount f) hnone
  have hinst : ((c.pushed f b i c.frame).remade (c.home k) (f, c.instCount f)).inst? f
      (c.instCount f) = some i :=
    (inst?_pushed hf b i c.frame f _).trans (if_pos ⟨rfl, rfl⟩)
  obtain ⟨ids, hids, hpath⟩ := c.exists_block h
  have hsite := (site_pushed hf hids (hpath.mono hpushed)).mono
    (remade_extends strict (c.pushed f b i c.frame) (c.home k) (f, c.instCount f))
  obtain ⟨G, hG, hid⟩ := hext.fn _ F hF
  have hdist := c.tokensOk.distinct
  rw [h] at hdist
  refine ⟨hlex.own, hlex.root, hlex.outer, ?_, ?_, ?_, ?_, ?_⟩
  · intro l around hl hno hp
    by_cases hlk : l = k
    · subst hlk
      cases hparent.symm.trans hp
      obtain ⟨hhome, henv, hall⟩ := hclosed
      refine ⟨f, c.instCount f, i.captured, ?_, hhome, hall.imp fun w cap hw => hw.mono hext hs henv⟩
      exact .closure hkind hG hmade hinst (by rw [hi, hid]) hp ⟨b, hsite⟩
    · have hT : ∀ phase, .scope l phase ∉ c.tokens := by
        intro phase ht
        have : .scope l phase ∈ R := by simpa [h, hlk] using ht
        exact hno phase (by simp [this])
      exact c.closed_grow hs hext hl hT hp rfl fun g v captured ho =>
        ho.mono hext hl rfl fun j hj => inst?_pushed_old hf b i c.frame hj
  · intro g v j id hj hjid
    have hj' : (c.pushed f b i c.frame).inst? g v = some j := hj
    rw [inst?_pushed hf] at hj'
    split at hj'
    · next hgv =>
      obtain ⟨rfl, rfl⟩ := hgv
      cases hj'
      exact ⟨c.home k, G, hG, by rw [hid]; exact Option.some.inj (hi.symm.trans hjid), hmade⟩
    · obtain ⟨g', F', hF', hid', hm⟩ := hlex.makers g v j id hj' hjid
      obtain ⟨G', hG', hGid⟩ := hext.fn g' F' hF'
      exact ⟨g', G', hG', hGid.trans hid', hext.maker g' _ hm⟩
  · intro g site hg
    by_cases hgk : g = c.home k
    · rw [hgk]
      exact State.lt_fnCount hG
    · rw [maker_remade_other _ hgk] at hg
      exact hext.fnCount (hlex.made g site hg)
  · intro l phase hl hlf
    have hlR : .scope l phase ∈ R := by simpa using hl
    have hlt : .scope l phase ∈ c.tokens := by simp [h, hlR]
    have hne : l ≠ k := fun heq =>
      key_ne_of_distinct (distinct_rest hdist) hlR (by rw [heq]; rfl)
    have hhome : c.home l ≠ c.home k := fun heq => hne (c.arenaOk.bodies l k
      (c.tokensOk.scope l phase hlt) (c.tokensOk.scope k _ hk) hlf hkind heq)
    exact (maker_remade_other _ hhome).trans (hlex.unmade l phase hlt hlf)
  · intro g v hv
    have hv' : (c.pushed f b i c.frame).inst? g v = _ := hv
    rw [inst?_pushed hf] at hv'
    split at hv'
    · cases hv'
      cases hi
    · obtain ⟨m, hm, hkept⟩ := hlex.slots g v hv'
      exact ⟨m, hm.mono hext, hkept.imp_left fun ht => by simpa [h] using ht⟩

theorem exists_made (h : c.tokens = {.block f b outer} + ({.scope k .running} + R))
    (hkind : c.kind k = .function) (hparent : c.parent? k = some outer)
    (hF : c.fn? (c.home k) = some F) (hi : i.closure? = some F.id)
    (hterm : i.isTerminator = false) (hmove : i.movesFrames = false) (hrefers : c.Refers f i)
    (hclosed : strict → f = c.home outer ∧ c.env outer ≠ none ∧
      Forall₂ (fun w cap => c.Denotes f w outer cap.name) i.captured (c.scopes.captures k)) :
    ∃ d : Config strict, d.toLayout = (c.pushed f b i c.frame).remade (c.home k) (f, c.instCount f) ∧
      d.tokens = {.block f b outer} + R := by
  have hf := c.fn_lt h
  have hmoves : (c.loose.pushed f b i c.frame).Moves f outer (c.instCount f) outer :=
    .stay ((inst?_pushed hf b i c.frame f _).trans (if_pos ⟨rfl, rfl⟩)) hterm hmove
  obtain ⟨d, hd, ht⟩ := c.loose.exists_pushed h
    (.block (fun ha => by rw [ha] at hi; cases hi) hmoves) hrefers False.elim (fun _ _ hv => hv)
    (fun _ _ => .inl) c.arenaOk.frames
  have hremade := remade_extends strict (c.pushed f b i c.frame) (c.home k) (f, c.instCount f)
  have htokens := d.tokensOk
  have hcode := d.codeOk
  have harena := d.arenaOk
  rw [ht, add_left_comm, hd] at htokens hcode
  rw [hd] at harena
  refine ⟨⟨(c.pushed f b i c.frame).remade (c.home k) (f, c.instCount f), {.block f b outer} + R,
    ?_, ?_, ?_, fun hs => lexicalOk_made hs h hkind hparent hF hi (hclosed hs)⟩, rfl, rfl⟩
  · refine htokens.drop.grow hremade rfl rfl rfl htokens.drop.distinct ?_ (fun _ _ => Iff.rfl)
      fun _ _ _ => .inl
    intro g a l hl
    obtain ⟨ids, hids, hpath⟩ := htokens.drop.block g a l hl
    exact ⟨ids, hids, hpath.mono hremade⟩
  · exact hcode.drop.grow hremade rfl rfl hcode.placed (fun _ _ _ => .inl)
      (fun _ _ _ hids hno => .inl ⟨hids, hno⟩) fun _ => .inl
  · exact harena.grow hremade rfl rfl rfl (fun _ _ => .inl) harena.frames

end Config

theorem makeClosure_sat {c : Config M.strict} {ctx : Ctx} {env : Tree.Env} {k : ScopeId}
    {R : Multiset Token} {F : Code.Function} {i : Inst}
    (h : c.tokens = {ctx.here b} + ({.scope k .running} + R)) (hat : c.At ctx env R)
    (hkind : c.kind k = .function) (hparent : c.parent? k = some ctx.scope)
    (hF : c.fn? (c.home k) = some F) (hi : i = .func F.id captured ∨ i = .arrow F.id captured)
    (hcaptured : ∀ v ∈ captured, c.Valued ctx.func v)
    (hdenotes : M.strict → Forall₂ (fun v name => c.Denotes ctx.func v ctx.scope name) captured
      ((c.scopes.captures k).map (·.name))) :
    Sat M (emit ctx b i) c fun v d => c.Yields ctx.func b ctx.scope R v d := by
  have hclosure : i.closure? = some F.id := by rcases hi with rfl | rfl <;> rfl
  have hterm : i.isTerminator = false := by rcases hi with rfl | rfl <;> rfl
  have hmove : i.movesFrames = false := by rcases hi with rfl | rfl <;> rfl
  have hvalue : i.hasValue = true := by rcases hi with rfl | rfl <;> rfl
  have hcap : i.captured = captured := by rcases hi with rfl | rfl <;> rfl
  have hops : i.operands = captured := by
    rcases hi with rfl | rfl
    · exact Inst.operands_func _ _
    · exact Inst.operands_arrow _ _
  have hblocks : i.blockRefs = [] := by
    rcases hi with rfl | rfl <;> exact Inst.filterMap_value_block captured
  have hrefers : c.Refers ctx.func i := by
    refine ⟨?_, ?_, fun id hid => ⟨c.home k, F, hF, Option.some.inj (hclosure.symm.trans hid)⟩⟩
    · rw [hops]
      exact hcaptured
    · rw [hblocks]
      exact fun _ ht => absurd ht not_mem_nil
  obtain ⟨d, hd, ht⟩ := c.exists_made h hkind hparent hF hclosure hterm hmove hrefers (by
    intro hs
    refine ⟨hat.home.symm, by rw [hat.env]; exact Option.some_ne_none env, ?_⟩
    rw [hcap]
    exact forall₂_map_right_iff.mp (hdenotes hs))
  have hf := c.fn_lt h
  refine ⟨d, by rw [hd]; rfl, ⟨?_, by rw [hd]; rfl, by rw [hd]; rfl, by rw [hd]; rfl⟩, ht, i, ?_, hvalue⟩
  · show c.toLayout.Extends M.strict d.toLayout
    rw [hd]
    exact (pushed_extends M.strict hf b i fun _ _ hv => hv).trans
      (remade_extends M.strict _ _ _)
  · rw [hd]
    exact (inst?_pushed hf b i c.frame ctx.func _).trans (if_pos ⟨rfl, rfl⟩)

end ScriptIr.Lower
