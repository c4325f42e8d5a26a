import ScriptIr.Proofs.Compile.Verified

/-!
# Frames are balanced

Every block of compiled code is entered with a fixed number of open frames. A block never leaves more
frames than are open, it passes control to its successors with the number of frames they are entered
with, and control leaves a function with no frame open.
-/
namespace ScriptIr

open Code List

/-- Only an instruction that ends a block passes control. -/
theorem Inst.successors_eq_nil {i : Inst} (h : i.isTerminator = false) : i.successors = [] := by
  cases i <;> first | rfl | cases h

namespace Code.Function

/-- The number of open frames after instructions that start with `depth` open frames, `none` if they
leave more frames than are open. -/
def depthAfter? (f : Function) (depth : Nat) : List InstId → Option Nat
  | [] => some depth
  | v :: vs =>
    match f.insts[v]? with
    | some (.pushScope _ _) => f.depthAfter? (depth + 1) vs
    | some (.popScope n) => if n.toNat ≤ depth then f.depthAfter? (depth - n.toNat) vs else none
    | _ => f.depthAfter? depth vs

/-- Blocks are entered with the given numbers of open frames, also those that control never reaches:
none in the first block, no block leaves more frames than are open, and control passes to a block with
the number of frames it is entered with and leaves the function with none. -/
structure Balanced (f : Function) (depth : BlockId → Nat) : Prop where
  start : depth 0 = 0
  runs : ∀ b ids, f.blocks[b]? = some ids → (f.depthAfter? (depth b) ids.toList).isSome
  passes : ∀ b ids before v after i d, f.blocks[b]? = some ids →
    ids.toList = before ++ v :: after → f.insts[v]? = some i →
    f.depthAfter? (depth b) before = some d →
    (∀ t ∈ i.successors, t < f.blocks.size ∧ depth t = d) ∧ ∀ value, i = .ret value → d = 0

theorem depthAfter?_append (f : Function) (depth : Nat) (vs ws : List InstId) :
    f.depthAfter? depth (vs ++ ws) = (f.depthAfter? depth vs).bind (f.depthAfter? · ws) := by
  induction vs generalizing depth with
  | nil => rfl
  | cons v vs ih =>
    simp only [cons_append, depthAfter?]
    split
    · exact ih _
    · split
      · exact ih _
      · rfl
    · exact ih _

theorem depthAfter?_stay {f : Function} {v : InstId} {i : Inst} (hi : f.insts[v]? = some i)
    (hmove : i.movesFrames = false) (depth : Nat) (vs : List InstId) :
    f.depthAfter? depth (v :: vs) = f.depthAfter? depth vs := by
  rw [depthAfter?, hi]
  cases i <;> first | rfl | cases hmove

end Code.Function

namespace Lower

variable {strict : Prop} {c : Config strict} {f : Nat} {F : Code.Function}

open Scope

theorem Config.blockCount_eq (hF : c.fn? f = some F) : c.blockCount f = F.blocks.size := by
  unfold State.blockCount
  rw [hF]
  rfl

theorem Config.depthAfter?_path (hF : c.fn? f = some F) (hsize : F.blocks.size < 2 ^ 32)
    {k l : ScopeId} {ids : List InstId} (h : c.Path f k ids l) :
    F.depthAfter? (c.scopes.scopesToFunction k) ids = some (c.scopes.scopesToFunction l) := by
  induction h with
  | nil k => rfl
  | cons hmove _ ih =>
    cases hmove with
    | stay hi _ hmove =>
      rw [Code.Function.depthAfter?_stay ((Layout.inst?_eq hF _).symm.trans hi) hmove]
      exact ih
    | push hi hkind hparent _ _ =>
      rw [Code.Function.depthAfter?, (Layout.inst?_eq hF _).symm.trans hi,
        ← Arena.scopesToFunction_block hkind hparent (c.arenaOk.sound.parent_lt _ _ hparent)]
      exact ih
    | @pop _ _ n hi hn habove =>
      rw [Config.blockCount_eq hF] at hn
      have hcount : n.toUInt32.toNat = n := Nat.mod_eq_of_lt (hn.trans_lt hsize)
      rw [Code.Function.depthAfter?, (Layout.inst?_eq hF _).symm.trans hi,
        Arena.scopesToFunction_of_above habove]
      simp only [hcount, Nat.le_add_right, if_true, Nat.add_sub_cancel_left]
      exact ih

/-- The number of open frames when a block is entered. -/
def Config.depth (c : Config strict) (f : Nat) (b : BlockId) : Nat :=
  if b < c.blockCount f then c.scopes.scopesToFunction (c.entry f b) else 0

theorem Config.depth_of_hasBlock {t : BlockId} {k : ScopeId} (h : c.HasBlock f t k) :
    c.depth f t = c.scopes.scopesToFunction k := by
  rw [Config.depth, if_pos h.1, h.2]

theorem Config.exists_sealed (hopen : ∀ f b k, .block f b k ∉ c.tokens) (hF : c.fn? f = some F)
    {b : BlockId} {ids : Code.Block} (hb : F.blocks[b]? = some ids) :
    c.HasBlock f b (c.entry f b) ∧ c.Sealed f (c.entry f b) ids.toList := by
  have hblock : c.block? f b = some ids.toList := by
    unfold State.block?
    rw [hF, Option.bind_some, hb]
    rfl
  exact ⟨⟨State.lt_blockCount hblock, rfl⟩, c.codeOk.finished f b _ hblock (hopen f b)⟩

/-- An instruction of a finished block is on the path to its last one, or is the last one. -/
theorem mem_body_or_last {body before after : List InstId} {last v : InstId}
    (h : body ++ [last] = before ++ v :: after) :
    v ∈ body ∨ v = last ∧ before = body := by
  rcases eq_nil_or_concat after with rfl | ⟨after, w, rfl⟩
  · obtain ⟨hbody, hlast⟩ := append_inj' h rfl
    exact .inr ⟨(cons.inj hlast).1.symm, hbody.symm⟩
  · have h' : body ++ [last] = (before ++ v :: after) ++ [w] := by
      rw [h, concat_eq_append, append_assoc]
      rfl
    obtain ⟨rfl, _⟩ := append_inj' h' rfl
    exact .inl (mem_append_right _ mem_cons_self)

theorem Config.balanced (hopen : ∀ f b k, .block f b k ∉ c.tokens) (hF : c.fn? f = some F)
    (hsize : F.blocks.size < 2 ^ 32) : F.Balanced (c.depth f) where
  start := by
    unfold Config.depth
    split
    · next hpos => exact Arena.scopesToFunction_function (c.codeOk.first f hpos).2
    · rfl
  runs b ids hb := by
    obtain ⟨hblock, body, last, l, hids, hpath, i, hi, hterm, _⟩ := Config.exists_sealed hopen hF hb
    have hmove : i.movesFrames = false := by cases i <;> first | rfl | cases hterm
    rw [Config.depth_of_hasBlock hblock, hids, Code.Function.depthAfter?_append,
      Config.depthAfter?_path hF hsize hpath, Option.bind_some,
      Code.Function.depthAfter?_stay ((Layout.inst?_eq hF last).symm.trans hi) hmove]
    rfl
  passes b ids before v after i d hb hids hi hd := by
    obtain ⟨hblock, body, last, l, hids', hpath, j, hj, _, hsucc, hret⟩ :=
      Config.exists_sealed hopen hF hb
    rw [Config.depth_of_hasBlock hblock] at hd
    rcases mem_body_or_last (hids'.symm.trans hids) with hmem | ⟨rfl, rfl⟩
    · have hends := hpath.endsBlock_eq_false hF v hmem
      rw [Layout.endsBlock_eq hF ((Layout.inst?_eq hF v).trans hi)] at hends
      refine ⟨fun t ht => ?_, fun value he => ?_⟩
      · rw [Inst.successors_eq_nil hends] at ht
        cases ht
      · rw [he] at hends
        cases hends
    · rw [Config.depthAfter?_path hF hsize hpath] at hd
      cases hd
      rw [Layout.inst?_eq hF, hi] at hj
      cases hj
      refine ⟨fun t ht => ?_, ?_⟩
      · have ht' := hsucc t ht
        exact ⟨Config.blockCount_eq hF ▸ ht'.1, Config.depth_of_hasBlock ht'⟩
      · rintro value rfl
        exact Arena.scopesToFunction_function (hret rfl).2

end Lower

/-- **Frames are balanced.** In every function of a compiled module, whose blocks can be counted with
32 bits, each block has a number of frames it is entered with: no path leaves a frame that is not open,
keeps one that it should have left, or leaves the function with an open frame. -/
theorem compiled_frames_balanced (p : Tree.Program) (name : String) (firstId : FuncId)
    (m : Code.Module) (h : (compile p name firstId).result = .ok m) (f : Code.Function)
    (hf : f ∈ m.functions) (hsize : f.blocks.size < 2 ^ 32) : ∃ depth, f.Balanced depth := by
  obtain ⟨s, hs, rfl⟩ := exists_of_compile h
  obtain ⟨d, rfl, hopen⟩ := Lower.exists_finished hs
  obtain ⟨g, hg⟩ := Array.mem_iff_getElem?.mp hf
  exact ⟨_, Lower.Config.balanced hopen hg hsize⟩

/-- A function that is left from the body of a loop in a loop: `for (let i = x;;) { while (i) { break; }
return i; }`. -/
def nestedExits : Tree.Program :=
  ⟨[.function (.mk (some { name := "f" }) []
    [.forLoop (some (.declaration
        (.mk .blockWide [.mk (.identifier { name := "i" }) (some (.identifier { name := "x" }))] none)))
      none none
      (.block [.whileLoop (.identifier { name := "i" }) (.block [.breaks none none]),
        .returns (some (.identifier { name := "i" }))])]
    false false none)]⟩

theorem nestedExits_balanced :
    ∃ m f, (compile nestedExits "m" 0).result = .ok m ∧ f ∈ m.functions ∧
      .popScope 3 ∈ f.insts ∧ f.blocks.size < 2 ^ 32 ∧ ∃ depth, f.Balanced depth := by
  have hrun : ∃ m ∈ (compile nestedExits "m" 0).result.toOption, ∃ f ∈ m.functions[1]?,
      .popScope 3 ∈ f.insts ∧ f.blocks.size < 2 ^ 32 := by decide +kernel
  obtain ⟨m, hm, f, hf, hpop, hsize⟩ := hrun
  have hm' := eq_ok_of_mem_toOption hm
  have hf' : f ∈ m.functions := Array.mem_of_getElem? hf
  exact ⟨m, f, hm', hf', hpop, hsize, compiled_frames_balanced _ _ _ m hm' f hf' hsize⟩

end ScriptIr
