import ScriptIr.Compile
import ScriptIr.Proofs.Lower.Trees

/-!
# Contracts of programs

The lowering of a program starts from nothing and leaves no work but the scope of the program itself.

* `program_sat`: the contract of a program.
-/
namespace ScriptIr.Lower

open Code (FuncId)

variable {M : Mode} {strict : Prop}

/-- Nothing has been built. -/
def Layout.empty (name : String) (firstId : FuncId) : Layout where
  module := .empty name firstId
  entry _ _ := 0
  home _ := 0
  positions _ _ := none
  frame _ := none
  env _ := none
  maker _ := none

section Empty

variable (name : String) (firstId : FuncId)

theorem tokensOk_empty : TokensOk (.empty name firstId) 0 where
  distinct := Multiset.nodup_zero
  block _ _ _ h := absurd h (Multiset.notMem_zero _)
  scope _ _ h := absurd h (Multiset.notMem_zero _)
  naming _ _ h := absurd h (Multiset.notMem_zero _)
  settled _ hk := absurd hk (Nat.not_lt_zero _)
  slot _ _ _ h := absurd h (Multiset.notMem_zero _)

theorem codeOk_empty : CodeOk (.empty name firstId) 0 where
  placed _ _ h := by cases h
  refers _ _ _ h := by cases h
  finished _ _ _ h := by cases h
  first _ h := absurd h (Nat.not_lt_zero _)
  ids _ _ h := by cases h

theorem arenaOk_empty : ArenaOk (.empty name firstId) where
  sound := Scope.Arena.sound_empty
  inner _ h := by cases h
  home _ h := absurd h (Nat.not_lt_zero _)
  cell _ _ _ h := by cases h
  params _ _ _ h := by cases h
  slots _ _ _ _ _ h := by cases h
  bodies _ _ h := absurd h (Nat.not_lt_zero _)
  target _ _ h := by rcases h with h | h <;> cases h
  named _ _ h := by cases h
  framed _ _ h := by cases h
  frames _ _ _ h := by cases h
  counted _ h := by cases h

theorem lexicalOk_empty : LexicalOk (.empty name firstId) 0 where
  own _ _ _ _ h := by cases h
  root _ _ _ h := by cases h
  outer _ _ _ h := by cases h
  closed _ _ h := absurd h (Nat.not_lt_zero _)
  makers _ _ _ _ h := by cases h
  made _ _ h := by cases h
  unmade _ _ h := absurd h (Multiset.notMem_zero _)
  slots _ _ h := by cases h

end Empty

/-- A module without functions. -/
def Config.empty (strict : Prop) (name : String) (firstId : FuncId) : Config strict where
  toLayout := .empty name firstId
  tokens := 0
  tokensOk := tokensOk_empty name firstId
  codeOk := codeOk_empty name firstId
  arenaOk := arenaOk_empty name firstId
  lexicalOk _ := lexicalOk_empty name firstId

/-! ## Programs -/

theorem program_sat {p : Tree.Program} (h : ∀ n ∈ p.nodes, M.Accepts n) (name : String)
    (firstId : FuncId) :
    Sat M (program p) (.empty M.strict name firstId) fun _ d =>
      (Config.empty M.strict name firstId).Grows (fun _ => none) p.walk d ∧
        d.tokens = {.scope 0 .running} := by
  unfold program
  refine .bind (newFunction_sat mainName 0) ?_
  rintro g c1 ⟨hq1, ht1, hg, _⟩
  refine .bind (newScope_sat hg.lt (fun _ ho => by cases ho) (fun hk => by cases hk) fun _ => hg) ?_
  intro k c2 hc2
  have hroot : c2.parent? k = none := by unfold Layout.parent?; rw [hc2.get]
  have hkind : c2.kind k = .function := by unfold Layout.kind; rw [hc2.get]
  refine .bind (newBlock_sat k (hc2.le.fnCount hg.lt) (.inr ⟨hc2.lt, hkind⟩)) ?_
  rintro entry c3 ⟨hq3, ht3, _, hroom⟩
  have hkind3 := (hq3.le.kind k hc2.lt).trans hkind
  have hfresh : c3.Fresh ⟨g, k⟩ entry (fun _ => none) 0 := by
    refine ⟨hc2.lt.trans_le hq3.le.size, (hq3.le.home k hc2.lt).trans hc2.home,
      (hq3.le.positions k hc2.lt).trans hc2.positions, (nofun),
      .inl ⟨(hq3.le.parent k hc2.lt).trans hroot, rfl⟩, ?_, fun hk => by rw [hkind3] at hk; cases hk⟩
    rw [Scope.Arena.scopesToFunction_function hkind3]
    exact Nat.zero_lt_of_lt hroom
  have hscope : k = (Config.empty M.strict name firstId).scopeCount :=
    hc2.scope.trans hq1.still.count
  have hbody := statementBody_ok (listCode_ok (items_ok p.body h))
  rw [declared_items] at hbody
  rw [hc2.tokens, ht1] at ht3
  refine .mono (hbody c3 ⟨g, k⟩ _ entry [] 0 _ ht3 hfresh hkind3) ?_
  rintro _ d ⟨hd, htd⟩
  refine ⟨?_, ?_⟩
  · refine .declaring (hq1.le.trans (hc2.le.trans hq3.le)) ?_ ?_ (hscope ▸ hd)
    · rw [hq3.uses, hc2.uses, hq1.uses]
    · rw [hq3.still.count, hc2.count, hq1.still.count]
  · rw [htd, add_zero, hscope]
    rfl

end ScriptIr.Lower
