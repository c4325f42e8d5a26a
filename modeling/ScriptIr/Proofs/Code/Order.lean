import ScriptIr.Code.Verify

/-!
# Functions as they are built

Code grows by new blocks, by instructions at the end of a block, and by instructions that replace
others. Whatever the order of these steps, each instruction of the arena stands in exactly one place
of one block, so the numbers that a function gives its instructions are the positions in block order.

* `Function.Built`: the functions that these steps make.
* `violation?_eq_none_iff`, `verify_eq_ok_iff`: what the verifier accepts.
-/
namespace ScriptIr.Code

open List

namespace Function

variable {block : BlockId} {f : Function} {id : InstId}

/-- Functions that are made step by step. -/
inductive Built : Function → Prop where
  | start (id : FuncId) (name : String) (paramCount : UInt32) : Built { id, name, paramCount }
  | newBlock {f : Function} : Built f → Built f.newBlock.2
  | push {f : Function} {block : BlockId} (inst : Inst) :
      Built f → block < f.blocks.size → Built (f.push block inst).2
  | replace {f : Function} {id : InstId} (inst : Inst) :
      Built f → id < f.insts.size → Built (f.replace id inst)

/-- Each instruction of the arena stands in one place of one block, and nothing else does. -/
def Placed (f : Function) : Prop := f.order.Perm (range f.insts.size)

/-! ## Steps -/

theorem order_newBlock (f : Function) : f.newBlock.2.order = f.order := by
  simp [order, newBlock]

theorem order_replace (f : Function) (id : InstId) (inst : Inst) :
    (f.replace id inst).order = f.order := rfl

theorem flatten_modify_push (blocks : List Block) (b : Nat) (id : InstId) (h : b < blocks.length) :
    ((blocks.modify b (·.push id)).flatMap (·.toList)).Perm (id :: blocks.flatMap (·.toList)) := by
  induction blocks generalizing b with
  | nil => simp at h
  | cons block blocks ih =>
    cases b with
    | zero =>
      simp only [modify_zero_cons, flatMap_cons, Array.toList_push, append_assoc]
      exact perm_middle
    | succ b =>
      simp only [modify_succ_cons, flatMap_cons]
      have := ih b (by simpa using h)
      exact (this.append_left block.toList).trans perm_middle

theorem order_push (f : Function) (inst : Inst) (h : block < f.blocks.size) :
    (f.push block inst).2.order.Perm (f.insts.size :: f.order) := by
  simp only [order, push, Array.toList_modify]
  exact flatten_modify_push _ _ _ (by simpa using h)

theorem placed_newBlock (h : f.Placed) : f.newBlock.2.Placed := by
  unfold Placed
  rw [order_newBlock]
  exact h

theorem placed_push (inst : Inst) (h : f.Placed) (hb : block < f.blocks.size) :
    (f.push block inst).2.Placed := by
  unfold Placed
  have hsize : (f.push block inst).2.insts.size = f.insts.size + 1 := by simp [push]
  rw [hsize, range_succ]
  exact (order_push f inst hb).trans ((h.cons _).trans (perm_append_singleton _ _).symm)

theorem placed_replace (id : InstId) (inst : Inst) (h : f.Placed) : (f.replace id inst).Placed := by
  unfold Placed
  have hsize : (f.replace id inst).insts.size = f.insts.size := by simp [replace]
  rw [order_replace, hsize]
  exact h

/-- However a function was built, each of its instructions stands in one place. -/
theorem Built.placed (h : f.Built) : f.Placed := by
  induction h with
  | start id name paramCount => exact Perm.refl []
  | newBlock _ ih => exact placed_newBlock ih
  | push inst _ hb ih => exact placed_push inst ih hb
  | replace inst _ _ ih => exact placed_replace _ inst ih

theorem Placed.nodup (h : f.Placed) : f.order.Nodup :=
  h.nodup_iff.mpr nodup_range

theorem Placed.mem_order (h : f.Placed) : id ∈ f.order ↔ id < f.insts.size := by
  rw [h.mem_iff, mem_range]

theorem Placed.length_order (h : f.Placed) : f.order.length = f.insts.size := by
  rw [h.length_eq, length_range]

theorem mem_order_of_mem_block {ids : Block} (hb : ids ∈ f.blocks) (hid : id ∈ ids) : id ∈ f.order := by
  unfold order
  exact mem_flatMap.mpr ⟨ids, Array.mem_toList_iff.mpr hb, Array.mem_toList_iff.mpr hid⟩

theorem Placed.nodup_block {ids : Block} (h : f.Placed) (hb : f.blocks[block]? = some ids) :
    ids.toList.Nodup :=
  (pairwise_flatMap.mp h.nodup).1 ids (Array.mem_toList_iff.mpr (Array.mem_of_getElem? hb))

theorem Placed.block_unique {block' : BlockId} {ids ids' : Block} (h : f.Placed)
    (hb : f.blocks[block]? = some ids) (hb' : f.blocks[block']? = some ids') (hid : id ∈ ids.toList)
    (hid' : id ∈ ids'.toList) : block = block' := by
  obtain ⟨hlt, rfl⟩ := Array.getElem?_eq_some_iff.mp hb
  obtain ⟨hlt', rfl⟩ := Array.getElem?_eq_some_iff.mp hb'
  -- different blocks have no instruction in common
  have hpair := pairwise_iff_getElem.mp (pairwise_flatMap.mp h.nodup).2
  rcases Nat.lt_trichotomy block block' with hlt'' | heq | hlt''
  · exact absurd rfl (hpair _ _ hlt hlt' hlt'' id hid id hid')
  · exact heq
  · exact absurd rfl (hpair _ _ hlt' hlt hlt'' id hid' id hid)

/-! ## Numbers -/

theorem foldl_numbering (ids : List InstId) (hn : ids.Nodup) (start : Nat)
    (table : Array (Option Nat)) (id : InstId) :
    ((ids.zipIdx start).foldl (fun t (e : InstId × Nat) => t.setIfInBounds e.1 (some e.2)) table).getD
        id none
      = if id < table.size then ((ids.idxOf? id).map (start + ·)).or (table.getD id none)
        else none := by
  induction ids generalizing start table with
  | nil =>
    by_cases h : id < table.size
    · simp [h]
    · simp [h, Array.getD_eq_getD_getElem?]
  | cons i ids ih =>
    obtain ⟨hi, hn⟩ := nodup_cons.mp hn
    rw [zipIdx_cons, foldl_cons, ih hn]
    simp only [Array.size_setIfInBounds, idxOf?_cons]
    by_cases hlt : id < table.size
    · rw [if_pos hlt, if_pos hlt]
      by_cases he : i = id
      · subst he
        have hnone : ids.idxOf? i = none := idxOf?_eq_none_iff.mpr hi
        simp [hnone, Array.getD_eq_getD_getElem?, hlt]
      · have hb : (i == id) = false := by simpa using he
        simp only [hb, Bool.false_eq_true, if_false, Option.map_map]
        have hget : (table.setIfInBounds i (some start)).getD id none = table.getD id none := by
          rw [Array.getD_eq_getD_getElem?, Array.getD_eq_getD_getElem?, Array.getElem?_setIfInBounds_ne he]
        rw [hget]
        congr 2
        funext n
        simp only [Function.comp]
        omega
    · rw [if_neg hlt, if_neg hlt]

theorem numbering_getD {size : Nat} {ids : List InstId} (hn : ids.Nodup) (hlt : ∀ i ∈ ids, i < size)
    (id : InstId) : (numbering size ids).getD id none = ids.idxOf? id := by
  unfold numbering
  rw [foldl_numbering ids hn 0]
  simp only [Array.size_replicate]
  split
  · have hz : ∀ o : Option Nat, o.map (0 + ·) = o := by intro o; cases o <;> simp
    rw [hz]
    cases hi : ids.idxOf? id with
    | some n => rfl
    | none => simp [Array.getD_eq_getD_getElem?, Array.getElem?_replicate]; split <;> rfl
  · rename_i hge
    exact (idxOf?_eq_none_iff.mpr fun hm => hge (hlt id hm)).symm

theorem idxOf?_eq_some {ids : List InstId} (hn : ids.Nodup) {n : Nat} :
    ids.idxOf? id = some n ↔ ids[n]? = some id := by
  rw [idxOf?_eq_some_iff, getElem?_eq_some_iff]
  constructor
  · rintro ⟨hlt, heq, -⟩
    exact ⟨hlt, heq⟩
  · rintro ⟨hlt, rfl⟩
    exact ⟨hlt, rfl, fun j hj => pairwise_iff_getElem.mp hn j n (by omega) hlt hj⟩

/-- **Numbers.** An instruction's number is its position in block order. -/
theorem linearOffsets_getD (h : f.Placed) (id : InstId) :
    f.linearOffsets.getD id none = f.order.idxOf? id :=
  numbering_getD h.nodup (fun _ hi => h.mem_order.mp hi) id

/-- An instruction's name is its position among those with a value, in block order. -/
theorem valueNames_getD (h : f.Placed) (id : InstId) :
    f.valueNames.getD id none = (f.order.filter f.producesValue).idxOf? id :=
  numbering_getD (h.nodup.filter _) (fun _ hi => h.mem_order.mp (mem_filter.mp hi).1) id

/-! ## The verifier -/

def Sealed (f : Function) (ids : List InstId) : Prop :=
  ∃ body last, ids = body ++ [last] ∧ f.endsBlock last = true ∧ ∀ id ∈ body, f.endsBlock id = false

def Refers (f : Function) (inst : Inst) : Prop :=
  (∀ v ∈ inst.operands, v ∈ f.order ∧ f.producesValue v = true) ∧ ∀ t ∈ inst.blockRefs, t < f.blocks.size

theorem operandViolation?_eq_none_iff (h : f.Placed) (id v : InstId) :
    f.operandViolation? f.linearOffsets id v = none ↔ v ∈ f.order ∧ f.producesValue v = true := by
  have hsome : (f.order.idxOf? v).isSome = true ↔ v ∈ f.order := isSome_idxOf?
  unfold operandViolation?
  rw [linearOffsets_getD h]
  cases hi : (f.order.idxOf? v).isSome <;> cases hv : f.producesValue v <;> simp_all

theorem instViolation?_eq_none_iff (h : f.Placed) (id : InstId) :
    f.instViolation? f.linearOffsets id = none ↔ ∀ inst, f.insts[id]? = some inst → f.Refers inst := by
  unfold instViolation? Refers
  cases f.insts[id]? with
  | none => simp
  | some inst =>
    cases hv : inst.operands.findSome? (f.operandViolation? f.linearOffsets id) with
    | some v =>
      obtain ⟨o, ho, hov⟩ := exists_of_findSome?_eq_some hv
      simp only [hv, reduceCtorEq, false_iff]
      intro hall
      have := (operandViolation?_eq_none_iff h id o).mpr ((hall inst rfl).1 o ho)
      rw [hov] at this
      cases this
    | none =>
      have hops := findSome?_eq_none_iff.mp hv
      simp only [hv, Option.map_eq_none_iff, find?_eq_none, decide_eq_true_eq, Nat.not_le]
      constructor
      · rintro hrefs _ ⟨⟩
        exact ⟨fun o ho => (operandViolation?_eq_none_iff h id o).mp (hops o ho), hrefs⟩
      · intro hall
        exact (hall inst rfl).2

theorem blockViolation?_eq_none_iff (h : f.Placed) (block : BlockId) (ids : List InstId) :
    f.blockViolation? f.linearOffsets block ids = none ↔
      f.Sealed ids ∧ ∀ id ∈ ids, ∀ inst, f.insts[id]? = some inst → f.Refers inst := by
  unfold blockViolation? Sealed
  rcases eq_nil_or_concat ids with rfl | ⟨body, last, rfl⟩
  · simp
  · simp only [concat_eq_append, getLast?_append, getLast?_singleton,
      dropLast_concat, Option.some_or]
    have hsplit : ∀ (P : InstId → List InstId → Prop),
        (∃ body' last', body ++ [last] = body' ++ [last'] ∧ P last' body') ↔ P last body := by
      intro P
      constructor
      · rintro ⟨body', last', e, hP⟩
        obtain ⟨hb, hl⟩ := append_inj' e rfl
        rw [hb, singleton_inj.mp hl]
        exact hP
      · intro hP
        exact ⟨body, last, rfl, hP⟩
    rw [hsplit fun last body => f.endsBlock last = true ∧ ∀ id ∈ body, f.endsBlock id = false]
    cases hl : f.endsBlock last with
    | false => simp
    | true =>
      cases hf : body.find? f.endsBlock with
      | some early =>
        have he := find?_some hf
        simp only [Bool.not_true, Bool.false_eq_true, if_false, reduceCtorEq, false_iff]
        rintro ⟨⟨-, hbody⟩, -⟩
        rw [hbody early (mem_of_find?_eq_some hf)] at he
        cases he
      | none =>
        have hbody : ∀ id ∈ body, f.endsBlock id = false := by
          intro id hid
          simpa using find?_eq_none.mp hf id hid
        simp only [Bool.not_true, Bool.false_eq_true, if_false, findSome?_eq_none_iff,
          instViolation?_eq_none_iff h, true_and]
        exact ⟨fun hall => ⟨hbody, hall⟩, fun hall => hall.2⟩

/-- A function without violations: every block is sealed and all references are there. -/
theorem violation?_eq_none_iff (h : f.Placed) :
    f.violation? = none ↔ ∀ ids ∈ f.blocks, f.Sealed ids.toList ∧
      ∀ id ∈ ids, ∀ inst, f.insts[id]? = some inst → f.Refers inst := by
  unfold violation?
  simp only [findSome?_eq_none_iff, blockViolation?_eq_none_iff h, Array.mem_toList_iff]
  constructor
  · intro hall ids hids
    obtain ⟨b, hb, rfl⟩ := mem_iff_getElem.mp (Array.mem_toList_iff.mpr hids)
    exact hall (_, b) (mk_mem_zipIdx_iff_getElem?.mpr (getElem?_eq_getElem hb))
  · rintro hall ⟨ids, b⟩ hmem
    exact hall ids (Array.mem_toList_iff.mp (fst_mem_of_mem_zipIdx hmem))

end Function

namespace Module

theorem forM_eq_ok_iff (check : Function → Except Error Unit) (fs : Array Function) :
    fs.forM check = .ok () ↔ ∀ f ∈ fs, check f = .ok () := by
  rcases fs with ⟨fs⟩
  rw [forM_toArray' _ _ rfl, forM_eq_forM]
  induction fs with
  | nil => simp [pure, Except.pure]
  | cons f fs ih =>
    simp only [mem_toArray] at ih
    rw [forM_cons]
    cases hf : check f with
    | error e => simp [bind, Except.bind, hf]
    | ok u => simp [bind, Except.bind, hf, ih]

theorem closureViolation?_eq_none_iff (m : Module) (f : Function) :
    m.closureViolation? f = none ↔ ∀ id ∈ f.closures, ∃ g ∈ m.functions, g.id = id := by
  unfold closureViolation? find?
  simp [Option.map_eq_none_iff, find?_eq_none]

theorem verify_eq_ok_iff (m : Module) : m.verify = .ok () ↔ ∀ f ∈ m.functions, f.violation? = none ∧
      ∀ id ∈ f.closures, ∃ g ∈ m.functions, g.id = id := by
  unfold verify
  rw [forM_eq_ok_iff]
  refine forall_congr' fun f => forall_congr' fun _ => ?_
  rw [← closureViolation?_eq_none_iff]
  unfold Function.verify
  cases f.violation? <;> cases m.closureViolation? f <;> simp [bind, Except.bind]

end Module

end ScriptIr.Code
