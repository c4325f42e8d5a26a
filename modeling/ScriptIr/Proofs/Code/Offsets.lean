import ScriptIr.Proofs.Code.ReadsBack

/-!
# Numbers of instructions

Ids follow the order in which instructions are made, numbers the order in which blocks hold them. For a
function that was built step by step the two are in bijection: an instruction's number is its position in
block order, its name counts the values before it, and a section can be made of the function unless an
operand is the id of no instruction.

* `Placed.exists_block`: each instruction has one place.
* `encode_eq_error`: when a function cannot be encoded.
-/
namespace ScriptIr.Code

namespace Function

variable {f : Function} {id : InstId} {inst : Inst}

theorem Placed.exists_block (h : f.Placed) (hid : id < f.insts.size) :
    ∃ (b : BlockId) (ids : Block), f.blocks[b]? = some ids ∧ ids.toList.count id = 1 ∧
      ∀ b' ids', f.blocks[b']? = some ids' → id ∈ ids' → b' = b := by
  obtain ⟨ids, hids, hin⟩ := List.mem_flatMap.mp (h.mem_order.mpr hid)
  obtain ⟨b, hb⟩ := Array.getElem?_of_mem (Array.mem_toList_iff.mp hids)
  refine ⟨b, ids, hb, ?_, fun b' ids' hb' hin' => ?_⟩
  · rw [(h.nodup_block hb).count, if_pos hin]
  · exact h.block_unique hb' hb (Array.mem_toList_iff.mpr hin') hin

/-! ## Encoding -/

theorem linearOffsets_eq_none (hp : f.Placed) : f.linearOffsets.getD id none = none ↔ f.insts.size ≤ id := by
  rw [linearOffsets_getD hp, List.idxOf?_eq_none_iff, hp.mem_order, Nat.not_lt]

theorem mem_blockInsts (hp : f.Placed) :
    (∃ b, b < f.blocks.size ∧ inst ∈ f.blockInsts b) ↔ inst ∈ f.insts := by
  simp only [blockInsts, Array.mem_toList_iff, Array.mem_filterMap]
  constructor
  · rintro ⟨b, -, id, -, hid⟩
    exact Array.mem_of_getElem? hid
  · intro h
    obtain ⟨id, hid⟩ := Array.getElem?_of_mem h
    have hmem := hp.mem_order.mpr (Array.getElem?_eq_some_iff.mp hid).1
    obtain ⟨ids, hids, hin⟩ := List.mem_flatMap.mp hmem
    obtain ⟨b, hb⟩ := Array.getElem?_of_mem (Array.mem_toList_iff.mp hids)
    refine ⟨b, (Array.getElem?_eq_some_iff.mp hb).1, id, ?_, hid⟩
    rw [hb]
    exact Array.mem_toList_iff.mp hin

theorem mapM_eq_error {α β : Type} {g : α → Except Error β} {as : List α} :
    (∃ e, as.mapM g = .error e) ↔ ∃ a ∈ as, ∃ e, g a = .error e := by
  induction as with
  | nil => simp [pure, Except.pure]
  | cons a as ih =>
    rw [List.mapM_cons]
    cases ha : g a with
    | error e => simp [bind, Except.bind, ha]
    | ok b =>
      cases has : as.mapM g with
      | error e => simp [bind, Except.bind, ha, has, ← ih]
      | ok bs => simp [bind, Except.bind, pure, Except.pure, ha, has, ← ih]

theorem map_eq_error {α β : Type} {x : Except Error α} {g : α → β} :
    (∃ e, (x >>= fun a => pure (g a)) = .error e) ↔ ∃ e, x = .error e := by
  cases x <;> simp [bind, Except.bind, pure, Except.pure]

theorem flattenField_eq_error (hp : f.Placed) {field : Field} :
    (∃ e, flattenField f.linearOffsets f.name field = .error e) ↔
      ∃ v, field = .value v ∧ f.insts.size ≤ v := by
  cases field with
  | value v =>
    simp only [Field.value.injEq, exists_eq_left', ← linearOffsets_eq_none hp, flattenField]
    split <;> simp_all
  | _ => simp [flattenField]

theorem encode_eq_error (hp : f.Placed) (pool : Wire.StringPool) :
    (∃ e, f.encode pool = .error e) ↔ ∃ inst ∈ f.insts, ∃ v ∈ inst.operands, f.insts.size ≤ v := by
  have hinst : ∀ inst : Inst, (∃ e, flattenInst f.linearOffsets f.name inst = .error e) ↔
      ∃ v ∈ inst.operands, f.insts.size ≤ v := by
    intro inst
    refine map_eq_error.trans (mapM_eq_error.trans ?_)
    simp only [flattenField_eq_error hp, mem_operands]
    exact ⟨fun ⟨_, hmem, v, hv, hle⟩ => ⟨v, hv ▸ hmem, hle⟩, fun ⟨v, hmem, hle⟩ => ⟨_, hmem, v, rfl, hle⟩⟩
  refine map_eq_error.trans (map_eq_error.trans (mapM_eq_error.trans ?_))
  simp only [List.mem_range, mapM_eq_error, hinst, ← mem_blockInsts hp]
  exact ⟨fun ⟨b, hb, inst, hmem, h⟩ => ⟨inst, ⟨b, hb, hmem⟩, h⟩,
    fun ⟨inst, ⟨b, hb, hmem⟩, h⟩ => ⟨b, hb, inst, hmem, h⟩⟩

/-! ## Names -/

/-- The position of a member among those that are kept is the number of kept ones before it. -/
theorem idxOf?_filter {ids : List InstId} {n : Nat} (hn : ids.Nodup) (p : InstId → Bool)
    (h : ids[n]? = some id) :
    (ids.filter p).idxOf? id = if p id then some ((ids.take n).countP p) else none := by
  split
  · next hp =>
    have hids : ids = ids.take n ++ id :: ids.drop (n + 1) := by
      obtain ⟨hlt, rfl⟩ := List.getElem?_eq_some_iff.mp h
      rw [← List.drop_eq_getElem_cons hlt, List.take_append_drop]
    have hfilter : ids.filter p = (ids.take n).filter p ++ id :: (ids.drop (n + 1)).filter p := by
      conv_lhs => rw [hids]
      rw [List.filter_append, List.filter_cons_of_pos hp]
    rw [idxOf?_eq_some (hn.filter _), hfilter, List.countP_eq_length_filter]
    simp
  · next hp => exact List.idxOf?_eq_none_iff.mpr fun hm => hp (List.mem_filter.mp hm).2

/-- **Numbers.** However a function was built, each of its instructions stands in one place of one block.
The numbers are the positions in block order: read off in that order they are `0`, `1`, ..., and each
below the number of instructions is that of one instruction. The name of an instruction with a value is
the number of values before it, and encoding fails exactly on an operand that is the id of no
instruction. -/
theorem built_instructions_numbered (h : f.Built) :
    (∀ id, id < f.insts.size → ∃ (b : BlockId) (ids : Block), f.blocks[b]? = some ids ∧
      ids.toList.count id = 1 ∧ ∀ b' ids', f.blocks[b']? = some ids' → id ∈ ids' → b' = b)
    ∧ (∀ id n, f.linearOffsets.getD id none = some n ↔ f.order[n]? = some id)
    ∧ f.order.map (f.linearOffsets.getD · none) = (List.range f.insts.size).map some
    ∧ (∀ n, n < f.insts.size → ∃ id, id < f.insts.size ∧
        ∀ id', f.linearOffsets.getD id' none = some n ↔ id' = id)
    ∧ (∀ id n, f.linearOffsets.getD id none = some n → f.valueNames.getD id none =
        if f.producesValue id then some ((f.order.take n).countP f.producesValue) else none)
    ∧ (f.insts.size < 2 ^ 32 → ∀ id n, f.linearOffsets.getD id none = some n → n.toUInt32.toNat = n)
    ∧ ∀ pool, (∃ e, f.encode pool = .error e) ↔
        ∃ inst ∈ f.insts, ∃ v ∈ inst.operands, f.insts.size ≤ v := by
  have hp := h.placed
  have hnumber : ∀ id n, f.linearOffsets.getD id none = some n ↔ f.order[n]? = some id := by
    intro id n
    rw [linearOffsets_getD hp, idxOf?_eq_some hp.nodup]
  refine ⟨fun id hid => hp.exists_block hid, hnumber, ?_, fun n hn => ?_, fun id n hn => ?_,
    fun hsize id n hn => ?_, encode_eq_error hp⟩
  · refine List.ext_getElem (by simp [hp.length_order]) fun n hn _ => ?_
    have hn : n < f.order.length := by simpa using hn
    simpa using (hnumber _ n).mpr (List.getElem?_eq_getElem hn)
  · have hat := List.getElem?_eq_getElem (hp.length_order.symm ▸ hn)
    refine ⟨_, hp.mem_order.mp (List.mem_of_getElem? hat), fun id' => ?_⟩
    rw [hnumber, hat, Option.some.injEq, eq_comm]
  · rw [valueNames_getD hp]
    exact idxOf?_filter hp.nodup _ ((hnumber id n).mp hn)
  · have hlt := (List.getElem?_eq_some_iff.mp ((hnumber id n).mp hn)).1
    rw [hp.length_order] at hlt
    exact Wire.toNat_toUInt32 (Nat.lt_trans hlt hsize)

/-- The second block is filled first, and the first instruction of the other one is replaced in the end. -/
def interleaved : Function :=
  let empty := (newBlock (newBlock { id := 0, name := "f", paramCount := 0 }).2).2
  let second := ((empty.push 1 .undefined).2.push 1 (.ret 0)).2
  ((second.push 0 .null).2.push 0 (.jump 1)).2.replace 2 (.move 42)

theorem interleaved_numbered : interleaved.linearOffsets = #[some 2, some 3, some 0, some 1] ∧
    interleaved.valueNames.getD 0 none = some 1 ∧ ∃ e, interleaved.encode .empty = .error e := by
  have hbuilt : interleaved.Built := .replace _ (.push _ (.push _ (.push _ (.push _
    (.newBlock (.newBlock (.start 0 "f" 0))) (by decide)) (by decide)) (by decide)) (by decide)) (by decide)
  obtain ⟨-, -, -, -, hnames, -, hencode⟩ := built_instructions_numbered hbuilt
  exact ⟨by decide, hnames 0 2 (by decide),
    (hencode _).mpr ⟨.move 42, Array.mem_of_getElem? (i := 2) rfl, 42, by decide, by decide⟩⟩

end Function

end ScriptIr.Code
