import ScriptIr.Lower.Statement
import ScriptIr.Proofs.Lower.Functions

/-!
# Contracts of statements

A list of statements announces its names, and from then on they mean what the list declares. A
statement that leaves frames ends its block in the scope it jumps to, and control goes on in a block
that nothing jumps to.

* `blockCode_ok`: a list in a frame of its own.
* `returnCode_ok`, `breakCode_ok`, `continueCode_ok`: statements that leave frames.
* `ifCode_ok`, `expressionCode_ok`, `bareCode_ok`: the other statements.
-/
namespace ScriptIr.Lower

open Code Config ScriptIr.Tree List Scope

variable {M : Mode} {strict : Prop} {items : List Item} {v w : Walk} {k l : ScopeId} {n : Nat}

/-! ## Lists -/

def Item.declared : Item → List String
  | declaration decl _ => decl.boundNames
  | function f _ => (f.id.map (·.name)).toList
  | statement _ => []

/-- Members of a list that meet their contracts, with the references of the functions among them and
those of the other members. -/
inductive ItemsOk (M : Mode) : List Item → Tree.Walk → Tree.Walk → Prop where
  | nil : ItemsOk M [] .skip .skip
  | declaration {decl : Tree.Declaration} {code : StmtCode} {items : List Item}
      {v w w' : Tree.Walk} : StmtOk M code decl.boundNames w → ItemsOk M items v w' →
      ItemsOk M (.declaration decl code :: items) v (w ++ w')
  | function {f : Tree.Function} {closure : ExprCode} {items : List Item} {v v' w : Tree.Walk} :
      ExprOk M closure v → ItemsOk M items v' w →
      ItemsOk M (.function f closure :: items) (v ++ v') w
  | statement {code : StmtCode} {items : List Item} {v w w' : Tree.Walk} :
      StmtOk M code [] w → ItemsOk M items v w' →
      ItemsOk M (.statement code :: items) v (w ++ w')

section Lists

variable {c : Config M.strict} {ctx : Ctx} {env : Env} {b : BlockId} {R : Multiset Token}
  {ns : List String} {ps : Positions}

theorem functionName_sat (f : Tree.Function) :
    Sat M (functionName f) c fun name d => c = d ∧ (f.id.map (·.name)).toList = [name] := by
  unfold functionName
  split
  · next id hid => exact .pure ⟨rfl, by rw [hid]; rfl⟩
  · exact .unsupported ..

theorem announceItem_sat (item : Item)
    (ht : c.tokens = {ctx.here b} + ({.scope ctx.scope (.naming ns)} + R))
    (hfresh : c.Fresh ctx b env R ps) :
    Sat M (announceItem ctx b item) c fun _ d =>
      c.Still d ∧ d.tokens = {ctx.here b} + ({.scope ctx.scope (.naming (ns ++ item.declared))} + R) ∧
        ∀ name ∈ item.declared, d.HasLocal ctx.scope name := by
  cases item with
  | declaration decl code => exact announce_sat decl ht hfresh
  | function f closure =>
    refine .bind (functionName_sat f) ?_
    rintro name _ ⟨rfl, hname⟩
    have hdeclared : (Item.function f closure).declared = [name] := hname
    rw [hdeclared]
    exact announceNames_sat false [name] ht hfresh
  | statement code =>
    refine .pure ⟨(Quiet.refl c).still, ?_, nofun⟩
    rw [Item.declared, append_nil]
    exact ht

theorem announceItems_sat (items : List Item)
    (ht : c.tokens = {ctx.here b} + ({.scope ctx.scope (.naming ns)} + R))
    (hfresh : c.Fresh ctx b env R ps) :
    Sat M (announceItems ctx b items) c fun _ d =>
      c.Still d ∧ d.tokens = {ctx.here b} +
          ({.scope ctx.scope (.naming (ns ++ items.flatMap Item.declared))} + R) ∧
        ∀ name ∈ items.flatMap Item.declared, d.HasLocal ctx.scope name := by
  induction items generalizing c ns with
  | nil =>
    refine .pure ⟨(Quiet.refl c).still, ?_, nofun⟩
    rw [flatMap_nil, append_nil]
    exact ht
  | cons item items ih =>
    unfold announceItems
    refine .bind (announceItem_sat item ht hfresh) ?_
    rintro _ d ⟨hd, htd, hlocal⟩
    refine .mono (ih htd (hfresh.mono hd.le)) ?_
    rintro _ e ⟨he, hte, hlocals⟩
    rw [flatMap_cons, ← append_assoc]
    refine ⟨hd.trans he, hte, forall_mem_append.mpr ⟨fun n hn => ?_, hlocals⟩⟩
    exact he.le.hasLocal _ _ (hlocal n hn)

theorem functionDeclarationCode_sat {f : Tree.Function} {closure : ExprCode}
    (h : ExprOk M closure v) (ht : c.tokens = {ctx.here b} + R)
    (hat : c.At ctx env R)
    (hlocal : ∀ name ∈ (f.id.map (·.name)).toList, c.HasLocal ctx.scope name) :
    Sat M (functionDeclarationCode f closure ctx b) c fun b' d => c.Runs ctx env R v b' d := by
  unfold functionDeclarationCode
  refine .bind (functionName_sat f) ?_
  rintro name _ ⟨rfl, hname⟩
  refine .bind (h c ctx env b R ht hat) ?_
  rintro r d ⟨hd, hr⟩
  have hatd := hat.mono hd.le
  refine .bind (declareAnnounced_sat false hatd.scope
    (hd.le.hasLocal _ _ (hlocal name (by rw [hname]; exact mem_singleton_self name)))) ?_
  rintro slot e ⟨he, hte, hown⟩
  have hslot : e.Valued ctx.func slot := (hatd.mono he.le).home ▸ valued_cell hown
  refine .bind (perform_sat (hte.trans hd.tokens) rfl (Layout.valued_two hslot (hr.mono he.le))) ?_
  rintro _ g ⟨hq, htg⟩
  exact .pure ⟨hd.grows.still (he.trans hq.still), htg⟩

section

variable (h : ItemsOk M items v w) (ht : c.tokens = {ctx.here b} + R) (hat : c.At ctx env R)
  (hlocal : ∀ name ∈ items.flatMap Item.declared, c.HasLocal ctx.scope name)
include h ht hat hlocal

theorem hoisted_sat :
    Sat M (runAll ctx b (items.filterMap Item.hoisted?)) c fun b' d => c.Runs ctx env R v b' d := by
  induction h generalizing c b with
  | nil => exact .pure ⟨(Quiet.refl c).still.grows, ht⟩
  | declaration _ _ ih =>
    rw [filterMap_cons_none rfl]
    exact ih ht hat fun n hn => hlocal n (mem_append_right _ hn)
  | statement _ _ ih =>
    rw [filterMap_cons_none rfl]
    exact ih ht hat hlocal
  | function hclosure _ ih =>
    rw [filterMap_cons_some (f := Item.hoisted?) rfl]
    unfold runAll
    refine .bind (functionDeclarationCode_sat hclosure ht hat
      fun n hn => hlocal n (mem_append_left _ hn)) ?_
    intro b' d hd
    refine .mono (ih hd.tokens (hat.mono hd.le)
      fun n hn => hd.le.hasLocal _ _ (hlocal n (mem_append_right _ hn))) ?_
    intro b'' e he
    exact hd.trans he

theorem inPlace_sat :
    Sat M (runAll ctx b (items.filterMap Item.inPlace?)) c fun b' d => c.Runs ctx env R w b' d := by
  induction h generalizing c b with
  | nil => exact .pure ⟨(Quiet.refl c).still.grows, ht⟩
  | function _ _ ih =>
    rw [filterMap_cons_none rfl]
    exact ih ht hat fun n hn => hlocal n (mem_append_right _ hn)
  | declaration hcode _ ih =>
    rw [filterMap_cons_some (f := Item.inPlace?) rfl]
    unfold runAll
    refine .bind (hcode c ctx env b R ht hat fun _ n hn => hlocal n (mem_append_left _ hn)) ?_
    intro b' d hd
    refine .mono (ih hd.tokens (hat.mono hd.le)
      fun n hn => hd.le.hasLocal _ _ (hlocal n (mem_append_right _ hn))) ?_
    intro b'' e he
    exact hd.trans he
  | statement hcode _ ih =>
    rw [filterMap_cons_some (f := Item.inPlace?) rfl]
    unfold runAll
    refine .bind (hcode c ctx env b R ht hat fun _ => nofun) ?_
    intro b' d hd
    refine .mono (ih hd.tokens (hat.mono hd.le) fun n hn => hd.le.hasLocal _ _ (hlocal n hn)) ?_
    intro b'' e he
    exact hd.trans he

end

end Lists

/-- A list of statements settles the names of its scope once it has announced its own. -/
theorem listCode_ok (h : ItemsOk M items v w) :
    ListOk M (listCode items) (items.flatMap Item.declared) (v ++ w) := by
  intro c ctx env b ns R ps ht hfresh
  unfold listCode
  have hsettled : Sat M (announceItems ctx b items) c fun _ e =>
      c.Still e ∧ e.tokens = {ctx.here b} + ({.scope ctx.scope .running} + R) ∧
      e.At ctx (env.declare (ns ++ items.flatMap Item.declared) ctx.scope ps)
        ({.scope ctx.scope .running} + R) ∧
      ∀ name ∈ items.flatMap Item.declared, e.HasLocal ctx.scope name := by
    refine .settle (announceItems_sat items ht hfresh) ?_
    rintro _ d ⟨hd, htd, hlocal⟩
    obtain ⟨e, hstate, hq, hte, hate⟩ :=
      exists_settled (htd.trans (add_left_comm ..)) (hfresh.mono hd.le)
    refine ⟨e, hstate, hd.trans hq.still, hte.trans (add_left_comm ..), hate, fun n hn => ?_⟩
    exact hq.le.hasLocal _ _ (hlocal n hn)
  refine .bind hsettled ?_
  rintro _ d ⟨hd, htd, hatd, hlocal⟩
  refine .bind (hoisted_sat h htd hatd hlocal) ?_
  intro b' e he
  refine .mono (inPlace_sat h he.tokens (hatd.mono he.le) fun n hn => he.le.hasLocal _ _ (hlocal n hn)) ?_
  intro b'' g hg
  exact ⟨hd.then (he.grows.trans hg.grows), hg.tokens⟩

/-! ## Blocks -/

@[simp] theorem Ctx.withScope_func (ctx : Ctx) (k : ScopeId) : (ctx.withScope k).func = ctx.func := rfl

@[simp] theorem Ctx.withScope_scope (ctx : Ctx) (k : ScopeId) : (ctx.withScope k).scope = k := rfl

section Blocks

variable {c : Config M.strict} {ctx : Ctx} {env : Env} {b : BlockId} {R : Multiset Token}
  {fr : Frame} {d e : Config strict}

theorem Config.At.newScope_sat (hat : c.At ctx env R) :
    Sat M (newScope (some ctx.scope) .block) c fun k d =>
      c.Opened (some ctx.scope) .block ctx.func k d :=
  Lower.newScope_sat (State.lt_fnCount_of_blockCount (Nat.zero_lt_of_lt hat.room))
    (fun _ ho => Option.some.inj ho ▸ hat.scope) (fun _ => ⟨ctx.scope, rfl, hat.home⟩)
    fun hk => by cases hk

theorem Config.Framed.above {c : Config strict} (hfr : c.Framed ctx fr) :
    c.scopes.Above 1 fr.scope ctx.scope :=
  .step hfr.kind hfr.parent (c.arenaOk.sound.parent_lt _ _ hfr.parent) (.refl ctx.scope)

/-- A frame has been opened in a new scope inside the current one, and the scope takes names. -/
structure Config.Entered (c : Config strict) (ctx : Ctx) (env : Env) (R : Multiset Token)
    (fr : Frame) (d : Config strict) : Prop where
  le : c ≤ d
  uses : d.uses = c.uses
  scope : fr.scope = c.scopeCount
  count : d.scopeCount = c.scopeCount + 1
  framed : d.Framed ctx fr
  fresh : d.Fresh (ctx.withScope fr.scope) fr.body env R

theorem Config.Entered.still {c : Config strict} (h : c.Entered ctx env R fr d) (hde : d.Still e) :
    c.Entered ctx env R fr e :=
  ⟨h.le.trans hde.le, hde.uses.trans h.uses, h.scope, hde.count.trans h.count,
    h.framed.mono hde.le, h.fresh.mono hde.le⟩

theorem Config.Entered.declaring {c : Config strict} {names : List String}
    (h : c.Entered ctx env R fr d) (hde : d.Grows (env.declare names fr.scope) w e) :
    c.Grows env (.declaring names w) e :=
  .declaring h.le h.uses h.count (h.scope ▸ hde)

theorem Config.Opened.openFrame_sat {d e : Config M.strict}
    (hd : c.Opened (some ctx.scope) .block ctx.func k d) (hde : d.Quiet e) (hat : c.At ctx env R) :
    Sat M (openFrame ctx k) e fun fr g =>
      k = fr.scope ∧ e.Still g ∧ c.Entered ctx env R fr g ∧
        g.tokens = {.block ctx.func fr.body fr.scope} + ({ctx.here fr.entry} + e.tokens) := by
  have hle := hd.le.trans hde.le
  refine .mono (Lower.openFrame_sat (hat.mono hle) (hd.blank.quiet hde)) ?_
  rintro fr g ⟨rfl, hstill, ht, hfr, hfresh⟩
  have hstill' := hde.still.trans hstill
  exact ⟨rfl, hstill, ⟨hle.trans hstill.le, hstill'.uses.trans hd.uses, hd.scope,
    hstill'.count.trans hd.count, hfr, hfresh⟩, ht⟩

theorem popFrame_sat (hfr : c.Framed ctx fr) (ht : c.tokens = {.block ctx.func b fr.scope} + R) :
    Sat M (popScopes ctx b 1) c fun _ d =>
      c.Quiet d ∧ d.tokens = {ctx.here b} + R :=
  popScopes_sat ht hfr.above (Nat.zero_lt_of_lt (c.block_lt ht))

end Blocks

theorem blockCode_ok (h : ItemsOk M items v w) :
    StmtOk M (blockCode items) [] (.declaring (items.flatMap Item.declared) (v ++ w)) := by
  intro c ctx env b R ht hat _
  unfold blockCode
  refine .bind hat.newScope_sat ?_
  intro k c1 hc1
  refine .bind (hc1.openFrame_sat (.refl c1) hat) ?_
  rintro fr c2 ⟨rfl, _, hentered2, ht2⟩
  have hopen : c2.tokens = {ctx.here b} + ({.block ctx.func fr.body fr.scope} +
      ({.scope fr.scope (.naming [])} + ({ctx.here fr.entry} + R))) := by
    rw [ht2, hc1.tokens, ht]
    ac_rfl
  refine .bind (jump_sat hopen hentered2.framed.entry) ?_
  rintro _ c3 ⟨hq3, ht3⟩
  have hentered := hentered2.still hq3.still
  refine .bind (listCode_ok h c3 (ctx.withScope fr.scope) env fr.body [] _ _ ht3 (hentered.fresh.add _)) ?_
  rintro last d ⟨hgrows, htd⟩
  have hlast : d.tokens = {ctx.here fr.entry} + ({.scope fr.scope .running} +
      ({.block ctx.func last fr.scope} + R)) := by
    rw [htd, Ctx.here, Ctx.withScope_func, Ctx.withScope_scope]
    ac_rfl
  have hfrd := hentered.framed.mono hgrows.le
  have hatd := hat.mono (hentered.le.trans hgrows.le)
  refine .bind (closeFrame_sat (hatd.add _) hfrd hlast) ?_
  rintro _ e ⟨hqe, hte⟩
  refine .bind (popFrame_sat (hfrd.mono hqe.le) hte) ?_
  rintro _ g ⟨hqg, htg⟩
  exact .pure ⟨hentered.declaring (hgrows.still (hqe.trans hqg).still), htg⟩

/-! ## Leaving frames -/

theorem Config.home_of_above {c : Config strict} (h : c.scopes.Above n k l) : c.home l = c.home k :=
  h.induct (P := fun x => c.home x = c.home k) rfl fun x outer hx hp hhome => by
    obtain ⟨outer', hp', hhome'⟩ := c.arenaOk.inner x hx
    rw [show outer = outer' from Option.some.inj (hp.symm.trans hp'), hhome', hhome]

theorem Config.At.above_le {c : Config strict} {ctx : Ctx} {env : Env} {R : Multiset Token}
    (hat : c.At ctx env R) (h : c.scopes.Above n ctx.scope l) : n ≤ c.blockCount ctx.func := by
  have hroom := hat.room
  rw [Arena.scopesToFunction_of_above h] at hroom
  exact ((Nat.le_add_right n _).trans_lt hroom).le

theorem Config.exists_body (c : Config strict) (k : ScopeId) :
    ∃ l, c.scopes.Above (c.scopes.scopesToFunction k) k l ∧ c.kind l = .function :=
  Arena.exists_above_function fun x hx =>
    let ⟨outer, hp, _⟩ := c.arenaOk.inner x hx
    ⟨outer, hp, c.arenaOk.sound.parent_lt x outer hp⟩

theorem returnCode_ok {argument : Option ExprCode} (h : ExprOk M (initCode argument) w) :
    StmtOk M (returnCode argument) [] w := by
  intro c ctx env b R ht hat _
  unfold returnCode
  refine .bind (h c ctx env b R ht hat) ?_
  rintro r d ⟨hd, hr⟩
  have hatd := hat.mono hd.le
  obtain ⟨l, habove, hkind⟩ := d.exists_body ctx.scope
  have hl : l < d.scopeCount :=
    (Arena.le_of_mem_chain habove.mem_chain).trans_lt hatd.scope
  refine .scopes_bind (.bind (popScopes_sat hd.tokens habove (hatd.above_le habove)) ?_)
  rintro _ d1 ⟨hq1, ht1⟩
  refine .bind (ret_sat ht1 (hr.mono hq1.le) (hl.trans_le hq1.le.size) ((hq1.le.kind l hl).trans hkind)) ?_
  rintro _ d2 ⟨hq2, ht2⟩
  have hquiet := hq1.trans hq2
  refine .mono (hatd.mono hquiet.le).newBlock_sat ?_
  rintro b' e ⟨hq, hte, _⟩
  exact hd.quiet (hquiet.trans hq) (by rw [hte, ht2])

variable (label : Option Identifier) (loc : Option Location)

theorem jumpCode_ok (labeled : Construct) {missing : Error} (hmissing : M.allowed missing)
    {find : Arena → ScopeId → Option (BlockId × Nat)}
    (hfind : ∀ (c : Config M.strict) k t n, find c.scopes k = some (t, n) →
      ∃ l, c.scopes.Above n k l ∧ c.HasBlock (c.home l) t l) :
    StmtOk M (jumpCode label loc labeled missing find) [] .skip := by
  intro c ctx env b R ht hat _
  unfold jumpCode
  extract_lets rest
  split
  · exact .unsupported_bind ..
  · refine .scopes_bind ?_
    cases hf : find c.scopes ctx.scope with
    | none => exact .throw hmissing
    | some r =>
      obtain ⟨t, n⟩ := r
      obtain ⟨l, habove, htarget⟩ := hfind c ctx.scope t n hf
      rw [home_of_above habove, hat.home] at htarget
      refine .bind (popScopes_sat ht habove (hat.above_le habove)) ?_
      rintro _ d1 ⟨hq1, ht1⟩
      refine .bind (jump_sat ht1 (htarget.mono hq1.le)) ?_
      rintro _ d2 ⟨hq2, ht2⟩
      have hquiet := hq1.trans hq2
      refine .mono (hat.mono hquiet.le).newBlock_sat ?_
      rintro b' e ⟨hq, hte, _⟩
      exact ⟨(hquiet.trans hq).still.grows, by rw [hte, ht2]⟩

theorem Config.exists_target {c : Config strict} {target : Scope → Option BlockId}
    (htarget : ∀ s t, target s = some t → s.breakTarget = some t ∨ s.continueTarget = some t)
    {t : BlockId} (h : c.scopes.targetAlong target (c.scopes.chain k) 0 = some (t, n)) :
    ∃ l, c.scopes.Above n k l ∧ c.HasBlock (c.home l) t l := by
  obtain ⟨j, l, rfl, habove, hl⟩ := Arena.exists_above_of_targetAlong h
  rw [Nat.zero_add]
  exact ⟨l, habove, c.arenaOk.target l t (htarget _ t hl)⟩

theorem breakCode_ok : StmtOk M (breakCode label loc) [] .skip :=
  jumpCode_ok label loc _ M.allows fun _ _ _ _ h =>
    exists_target (fun _ _ => .inl) h

theorem continueCode_ok : StmtOk M (continueCode label loc) [] .skip :=
  jumpCode_ok label loc _ M.allows fun _ _ _ _ h =>
    exists_target (fun _ _ => .inr) h

/-! ## Other statements -/

theorem expressionCode_ok {code : ExprCode} (h : ExprOk M code w) :
    StmtOk M (expressionCode code) [] w := by
  intro c ctx env b R ht hat _
  unfold expressionCode
  refine .bind (h c ctx env b R ht hat) ?_
  rintro r d ⟨hd, _⟩
  exact .pure hd

theorem bareCode_ok (kind : BareStatement) (loc : Option Location) :
    StmtOk M (bareCode kind loc) [] .skip := by
  intro c ctx env b R ht hat _
  unfold bareCode
  extract_lets last rest
  split
  · exact .unsupported_bind ..
  · show Sat M (rest ()) c _
    unfold rest
    split
    · refine .bind (perform_sat ht rfl Layout.valued_nil) ?_
      rintro _ d ⟨hq, htd⟩
      exact .pure ⟨hq.still.grows, htd⟩
    · exact .pure_bind (.pure ⟨(Quiet.refl c).still.grows, ht⟩)

/-- The contract of the other side of a choice, if it has one. -/
def AlternateOk (M : Mode) : Option StmtCode → Walk → Prop
  | none, w => w = .skip
  | some code, w => StmtOk M code [] w

theorem ifCode_ok {test : ExprCode} {consequent : StmtCode} {alternate : Option StmtCode}
    {u : Walk} (ht : ExprOk M test u) (ha : StmtOk M consequent [] v)
    (hb : AlternateOk M alternate w) :
    StmtOk M (ifCode test consequent alternate) [] (u ++ (v ++ w)) := by
  intro c ctx env b R htok hat _
  unfold ifCode
  refine .bind (ht c ctx env b R htok hat) ?_
  rintro t d ⟨hd, htv⟩
  have hatd := hat.mono hd.le
  refine .bind hatd.newBlock_sat ?_
  rintro first d1 ⟨hq1, ht1, hfirst⟩
  refine .bind (hatd.mono hq1.le).newBlock_sat ?_
  rintro following d2 ⟨hq2, ht2, hfollowing⟩
  have hq := hq1.trans hq2
  have hfirst2 := hfirst.mono hq2.le
  cases alternate with
  | none =>
    have hopen : d2.tokens = {ctx.here t.block} + ({ctx.here first} + ({ctx.here following} + R)) := by
      rw [ht2, ht1, hd.tokens]
      ac_rfl
    refine .bind (branch_sat hopen (htv.mono hq.le) hfirst2 hfollowing) ?_
    rintro _ d3 ⟨hq3, ht3⟩
    have hquiet := hq.trans hq3
    refine .bind (ha d3 ctx env first _ ht3 ((hatd.mono hquiet.le).add _) fun _ => nofun) ?_
    intro last e he
    refine .bind (jump_sat he.tokens ((hfollowing.mono hq3.le).mono he.le)) ?_
    rintro _ g ⟨hqg, htg⟩
    refine .pure ⟨hd.grows.trans (hquiet.still.then ?_), htg⟩
    rw [show w = .skip from hb, Walk.append_skip]
    exact he.grows.still hqg.still
  | some code =>
    refine .bind (hatd.mono hq.le).newBlock_sat ?_
    rintro second d3 ⟨hq3, ht3, hsecond⟩
    have hopen : d3.tokens = {ctx.here t.block} + ({ctx.here first} + ({ctx.here second} +
          ({ctx.here following} + R))) := by
      rw [ht3, ht2, ht1, hd.tokens]
      ac_rfl
    refine .bind (branch_sat hopen (htv.mono (hq.trans hq3).le) (hfirst2.mono hq3.le) hsecond) ?_
    rintro _ d4 ⟨hq4, ht4⟩
    have hquiet := (hq.trans hq3).trans hq4
    have hat4 := (hatd.mono hquiet.le).add (ctx.here following)
    have hfollowing4 := (hfollowing.mono hq3.le).mono hq4.le
    refine .bind (ha d4 ctx env first _ ht4 (hat4.add _) fun _ => nofun) ?_
    intro last e he
    refine .bind (jump_sat he.tokens (hfollowing4.mono he.le)) ?_
    rintro _ e1 ⟨hq5, ht5⟩
    have hle := he.le.trans hq5.le
    refine .bind (hb e1 ctx env second _ ht5 (hat4.mono hle) fun _ => nofun) ?_
    intro last' g hg
    refine .bind (jump_sat hg.tokens ((hfollowing4.mono hle).mono hg.le)) ?_
    rintro _ g1 ⟨hq6, ht6⟩
    refine .pure ⟨hd.grows.trans (hquiet.still.then ?_), ht6⟩
    exact (he.grows.still hq5.still).trans (hg.grows.still hq6.still)

end ScriptIr.Lower
