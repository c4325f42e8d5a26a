import ScriptIr.Proofs.Lower.Loops

/-!
# Contracts of loops over elements

A loop over keys or items opens a frame for each round, in which the element is bound. The blocks that
look for the next element and the exit are entered outside of it.

* `ElementOk`, `assignElement_ok`, `declareElement_ok`: what receives each element.
* `ProtocolOk`, `keysProtocol_ok`, `itemsProtocol_ok`: how a loop gets its elements.
* `forEachCode_ok`: the loops.
-/
namespace ScriptIr.Lower

open Code Layout

variable {M : Mode}

/-! ## Targets -/

/-- The contract of a target that declares some names, with the references of a walk. It starts in a
scope that takes names and settles them. -/
def ElementOk (M : Mode) (code : ElementCode) (names : List String) (w : Tree.Walk) : Prop :=
  ∀ (c : Config M.strict) (ctx : Ctx) (env : Tree.Env) (b : BlockId) (R : Multiset Token)
    (element : InstId),
    c.tokens = {ctx.here b} + ({.scope ctx.scope (.naming [])} + R) →
    c.Fresh ctx b env R → c.Valued ctx.func element →
    Sat M (code ctx b element) c fun b' d =>
      c.Runs ctx (env.declare names ctx.scope) ({.scope ctx.scope .running} + R) w b' d ∧
        d.At ctx (env.declare names ctx.scope) ({.scope ctx.scope .running} + R)

theorem assignElement_ok {place : PlaceCode} {w : Tree.Walk} (h : PlaceOk M place w) :
    ElementOk M (assignElement place) [] w := by
  intro c ctx env b R element ht hfresh helement
  obtain ⟨d, hstate, hq, htd, hatd⟩ :=
    Config.exists_settled (ht.trans (add_left_comm ..)) hfresh
  refine .of_same_state hstate ?_
  unfold assignElement
  refine .bind (h d ctx _ b _ (htd.trans (add_left_comm ..)) hatd) ?_
  rintro ⟨b', target⟩ e ⟨he, htarget⟩
  refine .bind (writePlace_sat he.tokens htarget (helement.mono (hq.le.trans he.le))) ?_
  rintro _ g ⟨hqg, htg⟩
  exact .pure ⟨⟨hq.still.then (he.grows.still hqg.still), htg⟩, hatd.mono (he.le.trans hqg.le)⟩

theorem declareElement_ok {decl : Tree.Declaration} {binders : List Binder} {w : Tree.Walk}
    (h : ∀ binder, binders = [binder] → BindOk M binder.bind decl.boundNames w) :
    ElementOk M (declareElement decl binders) decl.boundNames w := by
  intro c ctx env b R element ht hfresh helement
  unfold declareElement
  refine .bind (checkBlockWide_sat decl) ?_
  rintro _ c' rfl
  split
  · next binder =>
    refine .bind (announce_sat decl ht hfresh) ?_
    rintro _ d ⟨hd, htd, hlocal⟩
    rw [List.nil_append] at htd
    obtain ⟨e, hstate, hq, hte, hate⟩ :=
      Config.exists_settled (htd.trans (add_left_comm ..)) (hfresh.mono hd.le)
    refine .of_same_state hstate ?_
    refine .mono (h binder rfl e ctx _ b _ element decl.isConstant (hte.trans (add_left_comm ..))
      hate (helement.mono (hd.le.trans hq.le))
      fun _ n hn => hq.le.hasLocal _ _ (hlocal n hn)) ?_
    intro b' g hg
    exact ⟨⟨(hd.trans hq.still).then hg.grows, hg.tokens⟩, hate.mono hg.le⟩
  · exact .unsupported ..

/-! ## Protocols -/

/-- The contract of a protocol: it ends the blocks that look for a next element and the block that
ends a round, and leaves the element in the body of the round's frame. -/
def ProtocolOk (M : Mode) (protocol : Protocol) : Prop :=
  ∀ (c : Config M.strict) (ctx : Ctx) (r : Rounds) (value : InstId) (R : Multiset Token),
    c.tokens = {ctx.here r.setup} + ({ctx.here r.next} + ({.block ctx.func r.ending r.frame.scope} +
        ({.block ctx.func r.frame.body r.frame.scope} + R))) →
    c.Framed ctx r.frame → c.HasBlock ctx.func r.next ctx.scope →
    c.HasBlock ctx.func r.exit ctx.scope → c.Valued ctx.func value →
    Sat M (protocol ctx r value) c fun element d =>
      c.Quiet d ∧ d.tokens = {.block ctx.func r.frame.body r.frame.scope} + R ∧ d.Valued ctx.func element

theorem itemsProtocol_ok : ProtocolOk M itemsProtocol := by
  intro c ctx r value R ht hfr hnext hexit hvalue
  simp only [itemsProtocol, itemsStart, itemsNext, bind_assoc, pure_bind]
  refine .bind (loadGlobal_sat "Symbol" ht) ?_
  intro symbol c1 hc1
  refine .bind (getNamed_sat "iterator" hc1.tokens hc1.valued) ?_
  intro key c2 hc2
  have hy2 := hc1.trans hc2
  refine .bind (emitValue_sat hc2.tokens rfl rfl (valued_two (hvalue.mono hy2.le) hc2.valued)) ?_
  intro method c3 hc3
  have hy3 := hy2.trans hc3
  refine .bind (callWith_sat hc3.tokens hc3.valued (hvalue.mono hy3.le) valued_nil) ?_
  intro iterator c4 hc4
  have hy4 := hy3.trans hc4
  refine .bind (jump_sat hc4.tokens (hnext.mono hy4.le)) ?_
  rintro _ c5 ⟨hq5, ht5⟩
  have hquiet5 := hy4.quiet.trans hq5
  refine .bind (getNamed_sat "next" ht5 (hc4.valued.mono hq5.le)) ?_
  intro method c6 hc6
  refine .bind (callWith_sat hc6.tokens hc6.valued (hc4.valued.mono (hq5.le.trans hc6.le))
    valued_nil) ?_
  intro step c7 hc7
  refine .bind (getNamed_sat "done" hc7.tokens hc7.valued) ?_
  intro done c8 hc8
  have hquiet8 := hquiet5.trans ((hc6.trans hc7).trans hc8).quiet
  refine .bind (branch_sat hc8.tokens hc8.valued (hexit.mono hquiet8.le) (hfr.mono hquiet8.le).entry) ?_
  rintro _ c9 ⟨hq9, ht9⟩
  have hstep := (hc7.valued.mono hc8.le).mono hq9.le
  refine .bind (getNamed_sat "value" (ht9.trans (add_left_comm ..)) hstep) ?_
  intro element d1 hd1
  have hquiet1 := (hquiet8.trans hq9).trans hd1.quiet
  refine .bind (popFrame_sat (hfr.mono hquiet1.le) (hd1.tokens.trans (add_left_comm ..))) ?_
  rintro _ d2 ⟨hq2, ht2⟩
  have hquiet2 := hquiet1.trans hq2
  refine .bind (jump_sat ht2 (hnext.mono hquiet2.le)) ?_
  rintro _ d3 ⟨hq3, ht3⟩
  exact .pure ⟨hquiet2.trans hq3, ht3, (hd1.valued.mono hq2.le).mono hq3.le⟩

theorem keysProtocol_ok : ProtocolOk M keysProtocol := by
  intro c ctx r value R ht hfr hnext hexit hvalue
  simp only [keysProtocol, keysStart, keysAgain, bind_assoc, pure_bind]
  refine .bind (loadGlobal_sat "Object" ht) ?_
  intro object c1 hc1
  refine .bind (getNamed_sat "keys" hc1.tokens hc1.valued) ?_
  intro method c2 hc2
  refine .bind (callWith_sat hc2.tokens hc2.valued (hc1.valued.mono hc2.le)
    (valued_one (hvalue.mono (hc1.trans hc2).le))) ?_
  intro keys c3 hc3
  refine .bind (emitNumber_sat 0 hc3.tokens) ?_
  intro origin c4 hc4
  refine .bind (getNamed_sat "length" hc4.tokens (hc3.valued.mono hc4.le)) ?_
  intro length c5 hc5
  have hy5 := (((hc1.trans hc2).trans hc3).trans hc4).trans hc5
  refine .bind (jump_sat hc5.tokens (hnext.mono hy5.le)) ?_
  rintro _ c6 ⟨hq6, ht6⟩
  have hquiet6 := hy5.quiet.trans hq6
  -- The test of the index comes before the block that bumps it, so its second source is unknown.
  refine .bind (emitPhi_sat ht6 (nofun)) ?_
  intro index c7 hc7
  have hindex7 := hc7.valued rfl
  refine .bind (emitValue_sat hc7.tokens rfl rfl
    (valued_two hindex7 (hc5.valued.mono (hq6.le.trans hc7.quiet.le)))) ?_
  intro more c8 hc8
  have hquiet8 := hquiet6.trans (hc7.quiet.trans hc8.quiet)
  refine .bind (branch_sat hc8.tokens hc8.valued (hfr.mono hquiet8.le).entry (hexit.mono hquiet8.le)) ?_
  rintro _ c9 ⟨hq9, ht9⟩
  have hle9 := hc8.le.trans hq9.le
  have hkeys : c9.Valued ctx.func keys :=
    hc3.valued.mono ((hc4.trans hc5).le.trans (hq6.le.trans (hc7.quiet.le.trans hle9)))
  refine .bind (emitValue_sat (ht9.trans (add_left_comm ..)) rfl rfl
    (valued_two hkeys (hindex7.mono hle9))) ?_
  intro element d1 hd1
  have hquiet1 := (hquiet8.trans hq9).trans hd1.quiet
  refine .bind (popFrame_sat (hfr.mono hquiet1.le) (hd1.tokens.trans (add_left_comm ..))) ?_
  rintro _ d2 ⟨hq2, ht2⟩
  refine .bind (emitNumber_sat 1 ht2) ?_
  intro one d3 hd3
  have hle3 := hle9.trans (hd1.le.trans (hq2.le.trans hd3.le))
  refine .bind (emitValue_sat hd3.tokens rfl rfl (valued_two (hindex7.mono hle3) hd3.valued)) ?_
  intro bumped d4 hd4
  have hquiet4 := hquiet1.trans (hq2.trans (hd3.trans hd4).quiet)
  refine .bind (jump_sat hd4.tokens (hnext.mono hquiet4.le)) ?_
  rintro _ d5 ⟨hq5, ht5⟩
  have hquiet5 := hquiet4.trans hq5
  obtain ⟨before, hphi⟩ : ∃ before, d5.inst? ctx.func index = some (.phi before) := by
    obtain ⟨j, hj, hbecomes⟩ := (hle3.trans (hd4.le.trans hq5.le)).inst _ _ _ hc7.inst
    cases hbecomes with
    | same => exact ⟨[], hj⟩
    | phi _ incoming => exact ⟨incoming, hj⟩
  have horigin : d5.Valued ctx.func origin := hc4.valued.mono (hc5.le.trans
    (hq6.le.trans (hc7.quiet.le.trans (hle3.trans (hd4.le.trans hq5.le)))))
  refine .bind (patchPhi_sat hphi (List.forall_mem_cons.mpr
    ⟨⟨?_, horigin⟩, List.forall_mem_singleton.mpr ⟨?_, hd4.valued.mono hq5.le⟩⟩)) ?_
  · exact (c.block_lt ht).trans_le (hquiet5.le.blockCount _)
  · exact (d4.block_lt hd4.tokens).trans_le (hq5.le.blockCount _)
  rintro _ d ⟨hq, htd⟩
  refine .pure ⟨hquiet5.trans hq, htd.trans ht5, ?_⟩
  exact hd1.valued.mono (hq2.le.trans ((hd3.trans hd4).le.trans (hq5.le.trans hq.le)))

/-! ## Loops -/

/-- A round is over: its frame is completed, and a jump out of the loop leaves the frame. -/
theorem endElements_sat {c : Config M.strict} {ctx : Ctx} {env : Tree.Env} {R : Multiset Token}
    {fr : Frame} {last ending broken exit : BlockId} (hat : c.At ctx env R) (hfr : c.Framed ctx fr)
    (ht : c.tokens = {.block ctx.func last fr.scope} + ({.scope fr.scope .running} +
      ({.block ctx.func broken fr.scope} + ({ctx.here fr.entry} + ({ctx.here exit} + R)))))
    (hending : c.HasBlock ctx.func ending fr.scope) (hexit : c.HasBlock ctx.func exit ctx.scope) :
    Sat M (do
      perform ctx last (.jump ending)
      popScopes ctx broken 1
      perform ctx broken (.jump exit)
      closeFrame ctx fr
      return exit) c fun b d => c.Quiet d ∧ d.tokens = {ctx.here b} + R := by
  refine .bind (jump_sat ht hending) ?_
  rintro _ c1 ⟨hq1, ht1⟩
  refine .bind (popFrame_sat (hfr.mono hq1.le) (ht1.trans (add_left_comm ..))) ?_
  rintro _ c2 ⟨hq2, ht2⟩
  have hquiet2 := hq1.trans hq2
  refine .bind (jump_sat ht2 (hexit.mono hquiet2.le)) ?_
  rintro _ c3 ⟨hq3, ht3⟩
  have hquiet3 := hquiet2.trans hq3
  refine .bind (closeFrame_sat ((hat.mono hquiet3.le).add _) (hfr.mono hquiet3.le)
    (ht3.trans (add_left_comm ..))) ?_
  rintro _ d ⟨hq, htd⟩
  exact .pure ⟨hquiet3.trans hq, htd⟩

theorem forEachCode_ok {protocol : Protocol} {value : ExprCode} {target : ElementCode}
    {body : StmtCode} {names : List String} {u v w : Tree.Walk} (hp : ProtocolOk M protocol)
    (hv : ExprOk M value u) (ht : ElementOk M target names v) (hb : StmtOk M body [] w)
    (isAwait : Bool) (loc : Option Location) :
    StmtOk M (forEachCode protocol value target body isAwait loc) [] (u ++ .declaring names (v ++ w)) := by
  intro c ctx env b R htok hat _
  unfold forEachCode
  extract_lets rest
  split
  · exact .unsupported_bind ..
  show Sat M (rest ()) c _
  refine .bind (hv c ctx env b R htok hat) ?_
  rintro value c1 ⟨hc1, hvalue⟩
  have hat1 := hat.mono hc1.le
  refine .bind hat1.newBlock_sat ?_
  rintro next c2 ⟨hq2, ht2, hnext⟩
  refine .bind (hat1.mono hq2.le).newBlock_sat ?_
  rintro exit c3 ⟨hq3, ht3, hexit⟩
  -- Jumps out of a round reach this block in the scope that is opened next.
  refine .bind (((hat1.mono hq2.le).mono hq3.le).newBlockIn_sat c1.scopeCount) ?_
  rintro broken c4 ⟨hq4, ht4, hbroken⟩
  have hquiet4 := (hq2.trans hq3).trans hq4
  have hat4 := hat1.mono hquiet4.le
  refine .bind hat4.newScope_sat ?_
  intro k c5 hc5
  refine .bind (hc5.openFrame_sat (.refl c5) hat4) ?_
  rintro fr c6 ⟨rfl, _, hc6, ht6⟩
  refine .bind ((hat4.mono hc6.le).newBlockIn_sat fr.scope) ?_
  rintro ending c7 ⟨hq7, ht7, hending⟩
  have hc7 := hc6.still hq7.still
  rw [← hquiet4.still.count, ← hc7.scope] at hbroken ht4
  have hbroken7 := hbroken.mono hc7.le
  refine .bind (setTargets_sat hc7.fresh.scope (hc7.framed.home ▸ hbroken7) (hc7.framed.home ▸ hending)) ?_
  rintro _ c8 ⟨hstill8, ht8⟩
  have hc8 := hc7.still hstill8
  have hle8 := hquiet4.le.trans hc8.le
  have hopen : c8.tokens = {ctx.here value.block} + ({ctx.here next} + ({.block ctx.func ending fr.scope} +
        ({.block ctx.func fr.body fr.scope} + ({.scope fr.scope (.naming [])} +
          ({.block ctx.func broken fr.scope} + ({ctx.here fr.entry} + ({ctx.here exit} + R))))))) := by
    rw [ht8, ht7, ht6, hc5.tokens, ht4, ht3, ht2, hc1.tokens]
    ac_rfl
  refine .bind (hp c8 ctx ⟨value.block, next, exit, fr, ending⟩ value.value _ hopen hc8.framed
    (((hnext.mono hq3.le).mono hq4.le).mono hc8.le) ((hexit.mono hq4.le).mono hc8.le)
    (hvalue.mono hle8)) ?_
  rintro element c9 ⟨hq9, ht9, helement⟩
  have hc9 := hc8.still hq9.still
  refine .bind (ht c9 (ctx.withScope fr.scope) env fr.body _ element ht9
    (((hc9.fresh.add _).add _).add _) helement) ?_
  rintro round d1 ⟨hd1, hatd1⟩
  refine .bind (hb d1 (ctx.withScope fr.scope) _ round _ hd1.tokens hatd1 fun _ => nofun) ?_
  intro last d2 hd2
  have hle2 := hd1.le.trans hd2.le
  refine .mono (endElements_sat (hat.mono (hc1.le.trans (hquiet4.le.trans (hc9.le.trans hle2))))
    (hc9.framed.mono hle2) hd2.tokens (((hending.mono hstill8.le).mono hq9.le).mono hle2)
    (((hexit.mono hq4.le).mono hc9.le).mono hle2)) ?_
  rintro b' d ⟨hq, htd⟩
  refine ⟨hc1.grows.trans (hquiet4.still.then (hc9.declaring ?_)), htd⟩
  exact hd1.grows.trans (hd2.grows.still hq.still)

end ScriptIr.Lower
