import ScriptIr.Proofs.Flat.Grammar
import ScriptIr.Proofs.Wire.Pool

/-!
# Reading function sections back

Encoding passes a string pool along, which grows while functions are encoded; decoding looks the
texts up in the pool of the finished file. `Writes F pool r` joins the two: encoding in `pool` gave
the bytes and the pool `r`, and the bytes have the form `F` in every file whose pool extends that of `r`.

* `encodeInst_writes`, `encodeBlocks_writes`: instructions and blocks are in the grammar.
-/
namespace ScriptIr.Flat

open Code List Wire

variable {F G J : ModuleFile → List UInt8 → Prop} {pool : StringPool}
  {r : List UInt8 × StringPool}

/-! ## Pieces -/

/-- Encoding in `pool` gave `r`, which has the form in every file whose pool extends that of `r`. -/
structure Writes (F : ModuleFile → List UInt8 → Prop) (pool : StringPool)
    (r : List UInt8 × StringPool) : Prop where
  sound : r.2.Sound
  grows : pool.bytes.toList <+: r.2.bytes.toList
  inFile : ∀ file : ModuleFile, r.2.bytes.toList <+: file.pool.toList → file.pool.size < 2 ^ 32 →
    r.1.length < 2 ^ 32 → F file r.1

theorem writes_fixed {bytes : List UInt8} (h : pool.Sound) (hform : ∀ file, F file bytes) :
    Writes F pool (bytes, pool) := ⟨h, prefix_refl _, fun file _ _ _ => hform file⟩

theorem Writes.append {bytes : List UInt8} {pool' : StringPool} (h : Writes F pool r)
    (h' : Writes G r.2 (bytes, pool'))
    (hjoin : ∀ file, F file r.1 → G file bytes → J file (r.1 ++ bytes)) :
    Writes J pool (r.1 ++ bytes, pool') where
  sound := h'.sound
  grows := h.grows.trans h'.grows
  inFile file hpool hsize hlen := by
    rw [length_append] at hlen
    exact hjoin file (h.inFile file (h'.grows.trans hpool) hsize (by omega))
      (h'.inFile file hpool hsize (by show bytes.length < _; omega))

/-- A count before as many pieces, each of at least four bytes. -/
theorem Writes.counted {bytes : List UInt8} {pool' : StringPool} {n : Nat}
    (h : Writes F pool (bytes, pool')) (hn : 4 * n ≤ bytes.length)
    (hjoin : ∀ file (count : UInt32), count.toNat = n → F file bytes → J file (word count ++ bytes)) :
    Writes J pool (word n.toUInt32 ++ bytes, pool') where
  sound := h.sound
  grows := h.grows
  inFile file hpool hsize hlen := by
    rw [length_append] at hlen
    exact hjoin file _ (toNat_toUInt32 (by omega))
      (h.inFile file hpool hsize (by show bytes.length < _; omega))

/-! ## Fields -/

theorem encodeText_writes (pool : StringPool) (s : String) (h : pool.Sound) :
    Writes (fun file bytes => ∃ offset, file.textAt offset = .ok s ∧ bytes = word offset) pool
      (word (pool.intern s).1.toUInt32, (pool.intern s).2) := by
  obtain ⟨hsound, hgrows, hholds⟩ := StringPool.intern_holds pool s h
  exact ⟨hsound, hgrows, fun file hpool hsize _ =>
    ⟨_, ModuleFile.textAt_of_holds (hholds.mono hpool) hsize, rfl⟩⟩

theorem encodeOperand_writes (pool : StringPool) (o : Operand) (h : pool.Sound) :
    Writes (OperandForm · o) pool (encodeOperand pool o) := by
  cases o with
  | value n => exact writes_fixed h fun _ => .value n
  | block n => exact writes_fixed h fun _ => .block n
  | function n => exact writes_fixed h fun _ => .function n
  | immediate n => exact writes_fixed h fun _ => .immediate n
  | number bits => exact writes_fixed h fun _ => .number bits
  | text s =>
    obtain ⟨hsound, hgrows, hform⟩ := encodeText_writes pool s h
    refine ⟨hsound, hgrows, fun file hpool hsize hlen => ?_⟩
    obtain ⟨offset, hs, hbytes⟩ := hform file hpool hsize hlen
    rw [show (encodeOperand pool (.text s)).1 = word offset from hbytes]
    exact .text offset hs

theorem encodeOperands_writes (os : List Operand) (pool : StringPool) (h : pool.Sound) :
    Writes (fun file => Sequence (OperandForm file) os) pool (encodeOperands pool os) := by
  induction os generalizing pool with
  | nil => exact writes_fixed h fun _ => .nil
  | cons o os ih =>
    have ho := encodeOperand_writes pool o h
    exact ho.append (ih _ ho.sound) fun _ => .cons

theorem length_encodeOperand (pool : StringPool) (o : Operand) : 4 ≤ (encodeOperand pool o).1.length := by
  cases o <;> simp [encodeOperand]

theorem length_encodeOperands (os : List Operand) (pool : StringPool) :
    4 * os.length ≤ (encodeOperands pool os).1.length := by
  induction os generalizing pool with
  | nil => exact Nat.zero_le _
  | cons o os ih =>
    have h1 := length_encodeOperand pool o
    have h2 := ih (encodeOperand pool o).2
    simp only [encodeOperands, length_cons, length_append]
    omega

theorem encodeFields_writes (layout : Layout) (os : List Operand) (hfits : Fits layout os)
    (pool : StringPool) (h : pool.Sound) :
    Writes (FieldsForm · layout os) pool (encodeFields pool layout os) := by
  have hfixed := encodeOperands_writes (os.take layout.fixed.length) pool h
  have hrest := encodeOperands_writes (os.drop layout.fixed.length) _ hfixed.sound
  unfold encodeFields
  cases hc : groupCount layout os with
  | none => exact hfixed.append hrest fun file ha hb => ⟨hfits, _, _, ha, hb, by rw [hc]⟩
  | some n =>
    -- each group has a field, and each field takes four bytes, so the count is not cut
    have hn : n ≤ (os.drop layout.fixed.length).length := by
      obtain ⟨group, -, rfl⟩ := Option.map_eq_some_iff.mp hc
      rw [length_drop]
      exact Nat.div_le_self _ _
    have hlen := length_encodeOperands (os.drop layout.fixed.length)
      (encodeOperands pool (os.take layout.fixed.length)).2
    have hcounted := hrest.counted (J := fun file bytes => ∃ (count : UInt32) (rest : List UInt8),
      count.toNat = n ∧ bytes = word count ++ rest
        ∧ Sequence (OperandForm file) (os.drop layout.fixed.length) rest)
      (Nat.le_trans (Nat.mul_le_mul_left 4 hn) hlen) fun file count hcount hb =>
        ⟨count, _, hcount, rfl, hb⟩
    have hall := hfixed.append hcounted (J := (FieldsForm · layout os)) fun file ha hb => by
      obtain ⟨count, rest, hcount, hbytes, hb⟩ := hb
      refine ⟨hfits, _, rest, ha, hb, ?_⟩
      rw [hc, hbytes]
      exact ⟨count, hcount, rfl⟩
    rw [← append_assoc] at hall
    exact hall

/-! ## Instructions and blocks -/

theorem encodeInst_writes (i : Inst) (hfits : Fits i.tag.layout i.operands) (pool : StringPool)
    (h : pool.Sound) : Writes (InstForm · i) pool (encodeInst pool i) :=
  (writes_fixed (F := fun _ bytes => bytes = word i.tag.code) h fun _ => rfl).append
    (encodeFields_writes _ _ hfits pool h) fun _ _ hfields => ⟨_, rfl, hfields⟩

theorem encodeInsts_writes (is : List Inst) (hfits : ∀ i ∈ is, Fits i.tag.layout i.operands)
    (pool : StringPool) (h : pool.Sound) :
    Writes (fun file => Sequence (InstForm file) is) pool (encodeInsts pool is) := by
  induction is generalizing pool with
  | nil => exact writes_fixed h fun _ => .nil
  | cons i is ih =>
    have hi := encodeInst_writes i (hfits i mem_cons_self) pool h
    exact hi.append (ih (fun j hj => hfits j (mem_cons_of_mem _ hj)) _ hi.sound) fun _ => .cons

theorem length_encodeInsts (is : List Inst) (pool : StringPool) :
    4 * is.length ≤ (encodeInsts pool is).1.length := by
  induction is generalizing pool with
  | nil => exact Nat.zero_le _
  | cons i is ih =>
    have := ih (encodeInst pool i).2
    simp only [encodeInsts, encodeInst, length_cons, length_append, Wire.length_word] at this ⊢
    omega

theorem encodeBlocks_writes (blocks : List (List Inst))
    (hfits : ∀ is ∈ blocks, ∀ i ∈ is, Fits i.tag.layout i.operands) (pool : StringPool)
    (h : pool.Sound) :
    Writes (fun file => Sequence (Counted (InstForm file)) blocks) pool (encodeBlocks pool blocks) := by
  induction blocks generalizing pool with
  | nil => exact writes_fixed h fun _ => .nil
  | cons is blocks ih =>
    have his := encodeInsts_writes is (hfits is mem_cons_self) pool h
    have hblock := his.counted (J := fun file => Counted (InstForm file) is)
      (length_encodeInsts is pool) fun _ count hcount hform => ⟨count, _, hcount, rfl, hform⟩
    have hrest := ih (fun js hjs => hfits js (mem_cons_of_mem _ hjs)) _ his.sound
    exact hblock.append hrest fun _ => .cons

theorem length_encodeBlocks (blocks : List (List Inst)) (pool : StringPool) :
    4 * blocks.length + 4 * blocks.flatten.length ≤ (encodeBlocks pool blocks).1.length := by
  induction blocks generalizing pool with
  | nil => exact Nat.zero_le _
  | cons is blocks ih =>
    have h1 := length_encodeInsts is pool
    have h2 := ih (encodeInsts pool is).2
    simp only [encodeBlocks, length_cons, length_append, flatten_cons,
      Wire.length_word] at h2 ⊢
    omega

/-! ## Functions -/

theorem encode_grows (f : Function) (pool : StringPool) (h : pool.Sound)
    (hfits : ∀ is ∈ f.blocks, ∀ i ∈ is, Fits i.tag.layout i.operands) :
    (f.encode pool).2.Sound ∧ pool.bytes.toList <+: (f.encode pool).2.bytes.toList := by
  obtain ⟨hsound, hgrows, -⟩ := StringPool.intern_holds pool f.name h
  have hblocks := encodeBlocks_writes f.blocks hfits _ hsound
  exact ⟨hblocks.sound, hgrows.trans hblocks.grows⟩

/-- **Reading a section back.** A function whose fields fit their tags and whose references stay
inside reads as itself in every file whose pool extends the one it was encoded with. -/
theorem decode_encode (f : Function) (pool : StringPool) (h : pool.Sound)
    (hfits : ∀ is ∈ f.blocks, ∀ i ∈ is, Fits i.tag.layout i.operands) (hrange : f.rangeFault? = none)
    (file : ModuleFile) (hpool : (f.encode pool).2.bytes.toList <+: file.pool.toList)
    (hsize : file.pool.size < 2 ^ 32) (hlen : (f.encode pool).1.size < 2 ^ 32) :
    Function.decode file (f.encode pool).1 = .ok f := by
  have hname := encodeText_writes pool f.name h
  have hblocks := encodeBlocks_writes f.blocks hfits (pool.intern f.name).2 hname.sound
  have hcount := length_encodeBlocks f.blocks (pool.intern f.name).2
  simp only [Function.encode, size_toArray, length_append, Wire.length_word] at hlen
  simp only [Function.encode] at hpool
  obtain ⟨offset, hoffset, hword⟩ :=
    hname.inFile file (hblocks.grows.trans hpool) hsize (by simp)
  refine decode_eq_ok_iff.mpr ⟨⟨offset, _, hoffset, ?_, _, _, toNat_toUInt32 (by omega), rfl,
    hblocks.inFile file hpool hsize (by omega)⟩, rangeFault?_eq_none.mp hrange⟩
  simp only [Function.encode, ← hword, append_assoc]

end ScriptIr.Flat
