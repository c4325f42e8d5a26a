import ScriptIr.Flat.Decode
import ScriptIr.Flat.Encode
import ScriptIr.Proofs.Wire.Parsing

/-!
# The grammar of function sections

A section is accepted exactly if its bytes are those of a function: the offset of its name, the number
of its parameters, the number of its blocks, and for each block the number of its instructions and
the instructions. An instruction is the code of its tag and its fields, with the number of groups
reinserted where the tag's layout has a list. A text is the offset of any entry of the pool that holds
it, so a function has as many sections as its texts have places.

* `OperandForm`, `FieldsForm`, `InstForm`, `FunctionForm`: the byte strings of the parts.
* `Function.Closed`: references that stay inside the function.
-/
namespace ScriptIr.Wire

variable {form : α → List UInt8 → Prop} {xs : List α} {bytes : List UInt8}

/-! ## Lists of lists -/

theorem sequence_append {ys : List α} : Sequence form (xs ++ ys) bytes ↔
      ∃ as bs, bytes = as ++ bs ∧ Sequence form xs as ∧ Sequence form ys bs := by
  induction xs generalizing bytes with
  | nil =>
    simp only [List.nil_append, sequence_nil]
    constructor
    · intro h
      exact ⟨[], bytes, rfl, rfl, h⟩
    · rintro ⟨_, bs, rfl, rfl, h⟩
      exact h
  | cons x xs ih =>
    simp only [List.cons_append, sequence_cons, ih]
    constructor
    · rintro ⟨first, _, rfl, hx, as, bs, rfl, hxs, hys⟩
      exact ⟨first ++ as, bs, by rw [List.append_assoc], ⟨first, as, rfl, hx, hxs⟩, hys⟩
    · rintro ⟨_, bs, rfl, ⟨first, as, rfl, hx, hxs⟩, hys⟩
      exact ⟨first, as ++ bs, by rw [List.append_assoc], hx, as, bs, rfl, hxs, hys⟩

theorem sequence_flatten {xss : List (List α)} :
    Sequence (Sequence form) xss bytes ↔ Sequence form xss.flatten bytes := by
  induction xss generalizing bytes with
  | nil => simp only [List.flatten_nil, sequence_nil]
  | cons xs xss ih => simp only [List.flatten_cons, sequence_cons, sequence_append, ih]

/-- A condition on the members of a list does not concern their bytes. -/
theorem sequence_and {P : α → Prop} :
    Sequence (fun x bs => P x ∧ form x bs) xs bytes ↔ (∀ x ∈ xs, P x) ∧ Sequence form xs bytes := by
  induction xs generalizing bytes with
  | nil => simp [sequence_nil]
  | cons x xs ih =>
    simp only [sequence_cons, ih, List.forall_mem_cons]
    constructor
    · rintro ⟨as, bs, rfl, ⟨hp, hx⟩, hall, hxs⟩
      exact ⟨⟨hp, hall⟩, as, bs, rfl, hx, hxs⟩
    · rintro ⟨⟨hp, hall⟩, as, bs, rfl, hx, hxs⟩
      exact ⟨as, bs, rfl, ⟨hp, hx⟩, hall, hxs⟩

end ScriptIr.Wire

namespace ScriptIr.Flat

open Code List Wire

variable {file : ModuleFile} {layout : Layout} {os : List Operand} {f : Function} {data : Bytes}
  {group : List FieldKind} {groups : List (List Operand)}

/-! ## Layouts -/

/-- The fields that a layout allows: those in fixed positions, then whole groups. -/
def Fits (layout : Layout) (os : List Operand) : Prop :=
  match layout.group with
  | none => os.map Operand.kind = layout.fixed
  | some group => group ≠ [] ∧ ∃ (fixed : List Operand) (groups : List (List Operand)),
    os = fixed ++ groups.flatten
      ∧ fixed.map Operand.kind = layout.fixed ∧ ∀ g ∈ groups, g.map Operand.kind = group

theorem length_flatten_groups (h : ∀ g ∈ groups, g.map Operand.kind = group) :
    groups.flatten.length = groups.length * group.length := by
  induction groups with
  | nil => simp
  | cons g groups ih =>
    have hg : g.length = group.length := by rw [← h g mem_cons_self, length_map]
    rw [flatten_cons, length_append, hg, length_cons, Nat.add_mul,
      ih fun g' hg' => h g' (mem_cons_of_mem _ hg')]
    omega

theorem groupCount_eq (hl : layout.group = some group) (hne : group ≠ [])
    {fixed : List Operand} (hfixed : fixed.map Operand.kind = layout.fixed)
    (hgroups : ∀ g ∈ groups, g.map Operand.kind = group) :
    groupCount layout (fixed ++ groups.flatten) = some groups.length := by
  have hlen : fixed.length = layout.fixed.length := by rw [← hfixed, length_map]
  have hpos : 0 < group.length := length_pos_iff.mpr hne
  unfold groupCount
  rw [hl, Option.map_some, length_append, length_flatten_groups hgroups, hlen,
    Nat.add_sub_cancel_left, Nat.mul_div_cancel _ hpos]

/-! ## Byte strings -/

/-- The bytes of a field. A text is the offset of an entry of the pool that holds it. -/
inductive OperandForm (file : ModuleFile) : Operand → List UInt8 → Prop where
  | value (offset : UInt32) : OperandForm file (.value offset) (word offset)
  | block (index : UInt32) : OperandForm file (.block index) (word index)
  | function (id : UInt32) : OperandForm file (.function id) (word id)
  | immediate (n : UInt32) : OperandForm file (.immediate n) (word n)
  | number (bits : UInt64) : OperandForm file (.number bits) (double bits)
  | text {s : String} (offset : UInt32) (stored : file.textAt offset = .ok s) :
    OperandForm file (.text s) (word offset)

/-- The bytes of fields in a layout, with the number of groups between the fields in fixed positions
and the others. -/
def FieldsForm (file : ModuleFile) (layout : Layout) (os : List Operand) (bytes : List UInt8) :
    Prop :=
  Fits layout os ∧ ∃ as bs, Sequence (OperandForm file) (os.take layout.fixed.length) as
    ∧ Sequence (OperandForm file) (os.drop layout.fixed.length) bs
    ∧ match groupCount layout os with
      | none => bytes = as ++ bs
      | some n => ∃ count : UInt32, count.toNat = n ∧ bytes = as ++ (word count ++ bs)

def InstForm (file : ModuleFile) (i : Inst) (bytes : List UInt8) : Prop :=
  ∃ fields, bytes = word i.tag.code ++ fields ∧ FieldsForm file i.tag.layout i.operands fields

def FunctionForm (file : ModuleFile) (f : Function) (bytes : List UInt8) : Prop :=
  ∃ (name : UInt32) (blocks : List UInt8), file.textAt name = .ok f.name
    ∧ bytes = word name ++ (word f.paramCount ++ blocks)
    ∧ Counted (Counted (InstForm file)) f.blocks blocks

/-- A reference to one of `insts` instructions or `blocks` blocks, or a field that refers to none. -/
def Operand.Within (insts blocks : Nat) : Operand → Prop
  | .value offset => offset.toNat < insts
  | .block index => index.toNat < blocks
  | _ => True

def Function.Closed (f : Function) : Prop :=
  ∀ is ∈ f.blocks, ∀ i ∈ is, ∀ o ∈ i.operands, o.Within f.instCount f.blocks.length

/-! ## Fields -/

theorem parses_readText (file : ModuleFile) (offset : UInt32) :
    (readText file offset).Parses fun s bytes => file.textAt offset = .ok s ∧ bytes = [] := by
  unfold readText
  cases h : file.textAt offset with
  | ok s => exact (Read.parses_pure s).congr fun s' bytes => by simp [eq_comm]
  | error e => exact (Read.parses_throw e).congr fun s bytes => by simp

theorem parses_storedText (file : ModuleFile) : (Read.uint >>= readText file).Parses fun s bytes =>
      ∃ offset, file.textAt offset = .ok s ∧ bytes = word offset := by
  refine (Read.parses_uint.bind (parses_readText file)).congr fun s bytes => ?_
  constructor
  · rintro ⟨offset, _, _, rfl, rfl, hs, rfl⟩
    exact ⟨offset, hs, append_nil _⟩
  · rintro ⟨offset, hs, rfl⟩
    exact ⟨offset, _, [], (append_nil _).symm, rfl, hs, rfl⟩

theorem parses_decodeOperand (file : ModuleFile) (kind : FieldKind) :
    (decodeOperand file kind).Parses fun o bytes => o.kind = kind ∧ OperandForm file o bytes := by
  cases kind with
  | value =>
    refine (Read.parses_uint.map Operand.value).congr fun o bytes => ?_
    constructor
    · rintro ⟨n, rfl, rfl⟩; exact ⟨rfl, .value n⟩
    · rintro ⟨hk, ⟨⟩⟩ <;> cases hk; exact ⟨_, rfl, rfl⟩
  | block =>
    refine (Read.parses_uint.map Operand.block).congr fun o bytes => ?_
    constructor
    · rintro ⟨n, rfl, rfl⟩; exact ⟨rfl, .block n⟩
    · rintro ⟨hk, ⟨⟩⟩ <;> cases hk; exact ⟨_, rfl, rfl⟩
  | function =>
    refine (Read.parses_uint.map Operand.function).congr fun o bytes => ?_
    constructor
    · rintro ⟨n, rfl, rfl⟩; exact ⟨rfl, .function n⟩
    · rintro ⟨hk, ⟨⟩⟩ <;> cases hk; exact ⟨_, rfl, rfl⟩
  | immediate =>
    refine (Read.parses_uint.map Operand.immediate).congr fun o bytes => ?_
    constructor
    · rintro ⟨n, rfl, rfl⟩; exact ⟨rfl, .immediate n⟩
    · rintro ⟨hk, ⟨⟩⟩ <;> cases hk; exact ⟨_, rfl, rfl⟩
  | number =>
    refine (Read.parses_number.map Operand.number).congr fun o bytes => ?_
    constructor
    · rintro ⟨n, rfl, rfl⟩; exact ⟨rfl, .number n⟩
    · rintro ⟨hk, ⟨⟩⟩ <;> cases hk; exact ⟨_, rfl, rfl⟩
  | text =>
    have h := (parses_storedText file).map Operand.text
    simp only [bind_assoc] at h
    refine h.congr fun o bytes => ?_
    constructor
    · rintro ⟨s, rfl, offset, hs, rfl⟩; exact ⟨rfl, .text offset hs⟩
    · rintro ⟨hk, ⟨⟩⟩ <;> cases hk; exact ⟨_, rfl, _, ‹_›, rfl⟩

def KindsForm (file : ModuleFile) (kinds : List FieldKind) (os : List Operand) (bytes : List UInt8) :
    Prop :=
  os.map Operand.kind = kinds ∧ Sequence (OperandForm file) os bytes

theorem parses_decodeOperands (file : ModuleFile) (kinds : List FieldKind) :
    (decodeOperands file kinds).Parses (KindsForm file kinds) := by
  induction kinds with
  | nil =>
    refine (Read.parses_pure []).congr fun os bytes => ?_
    constructor
    · rintro ⟨rfl, rfl⟩
      exact ⟨rfl, .nil⟩
    · rintro ⟨hk, hseq⟩
      obtain rfl := map_eq_nil_iff.mp hk
      exact ⟨rfl, sequence_nil.mp hseq⟩
  | cons kind kinds ih =>
    refine ((parses_decodeOperand file kind).bind fun o => ih.map (o :: ·)).congr fun os bytes => ?_
    constructor
    · rintro ⟨o, as, bs, rfl, ⟨rfl, ho⟩, rest, rfl, rfl, hseq⟩
      exact ⟨rfl, .cons ho hseq⟩
    · rintro ⟨hk, hseq⟩
      obtain ⟨o, rest, rfl, ho, hrest⟩ := map_eq_cons_iff.mp hk
      obtain ⟨as, bs, rfl, hform, hmore⟩ := sequence_cons.mp hseq
      exact ⟨o, as, bs, rfl, ⟨ho, hform⟩, rest, rfl, hrest, hmore⟩

/-! ## Fields in their layout -/

/-- What is read for a layout with a group: the number of groups is that of the groups that the
fields fall into. -/
theorem fieldsForm_groups (hl : layout.group = some group) (hne : group ≠ []) {bytes : List UInt8} :
    FieldsForm file layout os bytes ↔ ∃ fixed groups as bs, os = fixed ++ groups.flatten
      ∧ bytes = as ++ bs ∧ KindsForm file layout.fixed fixed as
      ∧ Counted (KindsForm file group) groups bs := by
  constructor
  · rintro ⟨hfits, as, bs, has, hbs, hbytes⟩
    unfold Fits at hfits
    rw [hl] at hfits
    obtain ⟨-, fixed, groups, rfl, hfixed, hgroups⟩ := hfits
    have hlen : layout.fixed.length = fixed.length := by rw [← hfixed, length_map]
    rw [groupCount_eq hl hne hfixed hgroups] at hbytes
    rw [hlen, take_left] at has
    rw [hlen, drop_left] at hbs
    obtain ⟨count, hcount, rfl⟩ := hbytes
    exact ⟨fixed, groups, as, _, rfl, rfl, ⟨hfixed, has⟩, count, bs, hcount, rfl,
      sequence_and.mpr ⟨hgroups, sequence_flatten.mpr hbs⟩⟩
  · rintro ⟨fixed, groups, as, _, rfl, rfl, ⟨hfixed, has⟩, count, bs, hcount, rfl, hgroups⟩
    obtain ⟨hkinds, hseq⟩ := sequence_and.mp hgroups
    have hlen : layout.fixed.length = fixed.length := by rw [← hfixed, length_map]
    refine ⟨?_, as, bs, ?_, ?_, ?_⟩
    · unfold Fits
      rw [hl]
      exact ⟨hne, fixed, groups, rfl, hfixed, hkinds⟩
    · rwa [hlen, take_left]
    · rw [hlen, drop_left]
      exact sequence_flatten.mp hseq
    · rw [groupCount_eq hl hne hfixed hkinds]
      exact ⟨count, hcount, rfl⟩

theorem fieldsForm_fixed (hl : layout.group = none) {bytes : List UInt8} :
    FieldsForm file layout os bytes ↔ KindsForm file layout.fixed os bytes := by
  unfold FieldsForm KindsForm Fits groupCount
  simp only [hl, Option.map_none]
  constructor
  · rintro ⟨hkinds, as, bs, has, hbs, rfl⟩
    have hlen : layout.fixed.length = os.length := by rw [← hkinds, length_map]
    refine ⟨hkinds, ?_⟩
    rw [← take_append_drop layout.fixed.length os]
    exact sequence_append.mpr ⟨as, bs, rfl, has, hbs⟩
  · rintro ⟨hkinds, hseq⟩
    have hlen : layout.fixed.length = os.length := by rw [← hkinds, length_map]
    refine ⟨hkinds, bytes, [], ?_, ?_, (append_nil _).symm⟩
    · rwa [hlen, take_length]
    · rw [hlen, drop_length]
      exact .nil

theorem parses_decodeFields (file : ModuleFile) (layout : Layout) (hne : layout.group ≠ some []) :
    (decodeFields file layout).Parses (FieldsForm file layout) := by
  unfold decodeFields
  cases hl : layout.group with
  | none =>
    refine ((parses_decodeOperands file layout.fixed).map id).congr fun os bytes => ?_
    rw [fieldsForm_fixed hl]
    constructor
    · rintro ⟨_, rfl, h⟩
      exact h
    · intro h
      exact ⟨os, rfl, h⟩
  | some group =>
    have hgroup : group ≠ [] := fun h => hne (by rw [hl, h])
    have hcounted := Read.parses_counted (parses_decodeOperands file group)
    have h := (parses_decodeOperands file layout.fixed).bind fun fixed =>
      hcounted.map fun groups => fixed ++ groups.flatten
    simp only [bind_assoc] at h
    refine h.congr fun os bytes => ?_
    rw [fieldsForm_groups hl hgroup]
    constructor
    · rintro ⟨fixed, as, bs, rfl, hfixed, groups, rfl, hgroups⟩
      exact ⟨fixed, groups, as, bs, rfl, rfl, hfixed, hgroups⟩
    · rintro ⟨fixed, groups, as, bs, rfl, rfl, hfixed, hgroups⟩
      exact ⟨fixed, as, bs, rfl, hfixed, groups, rfl, hgroups⟩

/-! ## Instructions and functions -/

theorem ofCode_code (t : Tag) : Tag.ofCode? t.code = some t := by
  cases t <;> rfl

theorem layout_group_ne (t : Tag) : t.layout.group ≠ some [] := by
  cases t <;> simp [Tag.layout]

theorem code_of_ofCode {n : UInt32} {t : Tag} (h : Tag.ofCode? n = some t) : t.code = n := by
  have hall : ∀ i : Fin Tag.all.length, (Tag.all.get i).code.toNat = i.val := by decide
  obtain ⟨hlt, rfl⟩ := List.getElem?_eq_some_iff.mp h
  exact UInt32.toNat_inj.mp (hall ⟨n.toNat, hlt⟩)

theorem parses_decodeInst (file : ModuleFile) : (decodeInst file).Parses (InstForm file) := by
  have hnext : ∀ code : UInt32, Read.Parses (match Tag.ofCode? code with
        | some tag => decodeFields file tag.layout >>= fun os => pure ⟨tag, os⟩
        | none => throw (.unknownTag code))
      fun (i : Inst) bytes => i.tag.code = code ∧ FieldsForm file i.tag.layout i.operands bytes := by
    intro code
    cases htag : Tag.ofCode? code with
    | none =>
      refine (Read.parses_throw _).congr fun i bytes => ?_
      simp only [false_iff, not_and]
      rintro rfl
      rw [ofCode_code] at htag
      cases htag
    | some tag =>
      have hcode := code_of_ofCode htag
      refine ((parses_decodeFields file _ (layout_group_ne tag)).map (Inst.mk tag)).congr fun i bytes => ?_
      constructor
      · rintro ⟨os, rfl, hform⟩
        exact ⟨hcode, hform⟩
      · rintro ⟨rfl, hform⟩
        rw [ofCode_code] at htag
        cases htag
        exact ⟨i.operands, rfl, hform⟩
  have h := Read.parses_uint.bind hnext
  have heq : decodeInst file = Read.uint >>= fun code =>
      match Tag.ofCode? code with
      | some tag => decodeFields file tag.layout >>= fun os => pure ⟨tag, os⟩
      | none => throw (.unknownTag code) := by
    unfold decodeInst
    congr 1
    funext code
    cases Tag.ofCode? code <;> rfl
  rw [heq]
  refine h.congr fun i bytes => ?_
  constructor
  · rintro ⟨_, _, bs, rfl, rfl, rfl, hform⟩
    exact ⟨bs, rfl, hform⟩
  · rintro ⟨fields, rfl, hform⟩
    exact ⟨_, _, fields, rfl, rfl, rfl, hform⟩

theorem rangeFault?_eq_none : f.rangeFault? = none ↔ f.Closed := by
  unfold Function.rangeFault? Function.Closed
  simp only [findSome?_eq_none_iff, mem_flatMap, mem_flatten]
  constructor
  · intro h is his i hi o ho
    have := h o ⟨i, ⟨is, his, hi⟩, ho⟩
    cases o <;> simp_all [Operand.Within]
  · rintro h o ⟨i, ⟨is, his, hi⟩, ho⟩
    have := h is his i hi o ho
    cases o <;> simp_all [Operand.Within]

/-- The function at the cursor, whatever follows it. -/
def readParts (file : ModuleFile) : Read Function := do
  let name ← readText file (← Read.uint)
  let paramCount ← Read.uint
  let n ← Read.uint
  let blocks ← Read.times n.toNat (decodeBlock file)
  return { name, paramCount, blocks }

theorem parses_readParts (file : ModuleFile) : (readParts file).Parses (FunctionForm file) := by
  have hblocks := Read.parses_counted (Read.parses_counted (parses_decodeInst file))
  have h := (parses_storedText file).bind fun name => Read.parses_uint.bind fun paramCount =>
    hblocks.map fun blocks => Function.mk name paramCount blocks
  unfold readParts
  simp only [bind_assoc] at h
  refine Read.Parses.congr h fun f bytes => ?_
  constructor
  · rintro ⟨name, _, _, rfl, ⟨offset, hname, rfl⟩, paramCount, _, rest, rfl, rfl, blocks, rfl, hform⟩
    exact ⟨offset, rest, hname, rfl, hform⟩
  · rintro ⟨offset, rest, hname, rfl, hform⟩
    exact ⟨f.name, _, _, rfl, ⟨offset, hname, rfl⟩, f.paramCount, _, rest, rfl, rfl, f.blocks, rfl, hform⟩

/-- The checks behind the last block. -/
def finishParts (f : Function) : Read Function := do
  let rest := (← get).remaining
  if rest ≠ 0 then throw (.trailing rest f.name)
  match f.rangeFault? with
  | some fault => throw fault
  | none => return f

theorem readFunction_eq (file : ModuleFile) : readFunction file = readParts file >>= finishParts := by
  unfold readFunction readParts
  simp only [bind_assoc, pure_bind]
  rfl

theorem finishParts_eq_ok {g : Function} {p : Nat} {c : Cursor} :
    finishParts f ⟨data, p⟩ = .ok g c ↔ g = f ∧ c = ⟨data, p⟩ ∧ data.size ≤ p ∧ f.Closed := by
  have hrest : (Cursor.mk data p).remaining = 0 ↔ data.size ≤ p := Nat.sub_eq_zero_iff_le
  rw [← rangeFault?_eq_none, ← hrest]
  show (if (Cursor.mk data p).remaining ≠ 0 then _ else _ : Read Function) ⟨data, p⟩ = _ ↔ _
  by_cases hr : (Cursor.mk data p).remaining = 0
  · rw [if_neg (by simp [hr])]
    cases hf : f.rangeFault? with
    | none =>
      simp only [hr, and_true]
      constructor
      · intro h
        cases h
        exact ⟨rfl, rfl⟩
      · rintro ⟨rfl, rfl⟩
        rfl
    | some fault =>
      simp only [reduceCtorEq, and_false, iff_false]
      intro h
      cases h
  · rw [if_pos hr]
    simp only [hr, false_and, and_false, iff_false]
    intro h
    cases h

/-- Bytes that stand at the start and reach the end are the whole. -/
theorem holds_all {bytes : List UInt8} (h : Wire.Holds data 0 bytes) (hend : data.size ≤ bytes.length) :
    bytes = data.toList := by
  obtain ⟨before, after, e, hbefore⟩ := h
  obtain rfl := eq_nil_of_length_eq_zero hbefore
  have hsize := congrArg length e
  simp only [Array.length_toList, nil_append, length_append] at hsize
  obtain rfl := eq_nil_of_length_eq_zero (show after.length = 0 by omega)
  simpa using e.symm

theorem decode_eq_ok_iff {payload : Bytes} :
    Function.decode file payload = .ok f ↔ FunctionForm file f payload.toList ∧ f.Closed := by
  unfold Function.decode
  rw [Read.run_eq_ok, readFunction_eq]
  have hstart := parses_readParts file payload 0 (Nat.zero_le _)
  constructor
  · rintro ⟨c, hrun⟩
    change EStateM.bind (readParts file) finishParts _ = _ at hrun
    unfold EStateM.bind at hrun
    split at hrun
    next g c' hparts =>
      obtain ⟨bytes, hform, hholds, rfl⟩ := (hstart g c').mp hparts
      obtain ⟨rfl, rfl, hend, hclosed⟩ := finishParts_eq_ok.mp hrun
      rw [Nat.zero_add] at hend
      rw [← holds_all hholds hend]
      exact ⟨hform, hclosed⟩
    next => cases hrun
  · rintro ⟨hform, hclosed⟩
    refine ⟨⟨payload, 0 + payload.toList.length⟩, ?_⟩
    show EStateM.bind (readParts file) finishParts _ = _
    unfold EStateM.bind
    rw [(hstart f _).mpr ⟨payload.toList, hform, ⟨[], [], by simp, rfl⟩, rfl⟩]
    exact finishParts_eq_ok.mpr ⟨rfl, rfl, by simp, hclosed⟩

/-- **A section is accepted exactly if it is in the grammar.** The function it is read as is one that
the payload is a byte string of, with references that stay inside it; a payload that is a byte string
of no such function is a fault of the module file. -/
theorem decode_accepts_exactly (file : ModuleFile) (payload : Bytes) :
    (∀ f : Function, Function.decode file payload = .ok f ↔
      FunctionForm file f payload.toList ∧ f.Closed)
    ∧ ((¬ ∃ f, FunctionForm file f payload.toList ∧ f.Closed) →
      ∃ fault, Function.decode file payload = .error fault) := by
  refine ⟨fun f => decode_eq_ok_iff, fun hnone => ?_⟩
  cases h : Function.decode file payload with
  | ok f => exact absurd ⟨f, decode_eq_ok_iff.mp h⟩ hnone
  | error fault => exact ⟨fault, rfl⟩

end ScriptIr.Flat
