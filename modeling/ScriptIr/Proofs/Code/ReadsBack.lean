import ScriptIr.Flat.Flatten
import ScriptIr.Proofs.Code.Order
import ScriptIr.Proofs.Flat.Codec

/-!
# Reading a module back

The file of a module that the verifier accepts holds all of its code: every function section reads as
the function it was made of, with each operand in its place and each instruction named by its position
in block order.

* `flatten_eq`: a verified function can be flattened.
-/
namespace ScriptIr.Code

open Wire Inst List
open Flat (Fits)
open Flat.Operand (kind)

variable {inst : Inst} {v : InstId} {f : Function}

/-! ## What is read -/

/-- A flat instruction has the shape of an instruction, with `pos` relating instructions to their
numbers. -/
inductive Inst.Mirrors (pos : InstId → UInt32 → Prop) : Inst → Flat.Inst → Prop where
  | ret {v n} : pos v n → Mirrors pos (.ret v) ⟨.ret, [.value n]⟩
  | load {a n} : pos a n → Mirrors pos (.load a) ⟨.load, [.value n]⟩
  | store {a v m n} : pos a m → pos v n → Mirrors pos (.store a v) ⟨.store, [.value m, .value n]⟩
  | getItem {o k m n} :
      pos o m → pos k n → Mirrors pos (.getItem o k) ⟨.getItem, [.value m, .value n]⟩
  | setItem {o k v l m n} : pos o l → pos k m → pos v n →
      Mirrors pos (.setItem o k v) ⟨.setItem, [.value l, .value m, .value n]⟩
  | delItem {o k m n} :
      pos o m → pos k n → Mirrors pos (.delItem o k) ⟨.delItem, [.value m, .value n]⟩
  | new {f a m n} : pos f m → pos a n → Mirrors pos (.new f a) ⟨.new, [.value m, .value n]⟩
  | call {f r a l m n} : pos f l → pos r m → pos a n →
      Mirrors pos (.call f r a) ⟨.call, [.value l, .value m, .value n]⟩
  | jump {t} {k : UInt32} : k.toNat = t → Mirrors pos (.jump t) ⟨.jump, [.block k]⟩
  | branch {c t e n} {k l : UInt32} : pos c n → k.toNat = t → l.toNat = e →
      Mirrors pos (.branch c t e) ⟨.branch, [.value n, .block k, .block l]⟩
  | getGlobal {s} : Mirrors pos (.getGlobal s) ⟨.getGlobal, [.text s]⟩
  | undefined : Mirrors pos .undefined ⟨.undefined, []⟩
  | null : Mirrors pos .null ⟨.null, []⟩
  | true : Mirrors pos (.boolean .true) ⟨.trueLit, []⟩
  | false : Mirrors pos (.boolean .false) ⟨.falseLit, []⟩
  | number {bits} : Mirrors pos (.number bits) ⟨.number, [.number bits]⟩
  | string {s} : Mirrors pos (.string s) ⟨.string, [.text s]⟩
  | regex {s} : Mirrors pos (.regex s) ⟨.regex, [.text s]⟩
  | object {ps : List (InstId × InstId)} {ns : List (UInt32 × UInt32)} :
      Forall₂ (fun p n => pos p.1 n.1 ∧ pos p.2 n.2) ps ns →
      Mirrors pos (.object ps) ⟨.object, ns.flatMap fun n => [.value n.1, .value n.2]⟩
  | array {vs ns} : Forall₂ pos vs ns → Mirrors pos (.array vs) ⟨.array, ns.map .value⟩
  | func {f vs ns} : Forall₂ pos vs ns →
      Mirrors pos (.func f vs) ⟨.func, .function f :: ns.map .value⟩
  | arrow {f vs ns} : Forall₂ pos vs ns →
      Mirrors pos (.arrow f vs) ⟨.arrow, .function f :: ns.map .value⟩
  | binary {op a b m n} :
      pos a m → pos b n → Mirrors pos (.binary op a b) ⟨op.tag, [.value m, .value n]⟩
  | unary {op a n} : pos a n → Mirrors pos (.unary op a) ⟨op.tag, [.value n]⟩
  | pushScope {k vs ns} : Forall₂ pos vs ns →
      Mirrors pos (.pushScope k vs) ⟨.pushScope, .immediate k :: ns.map .value⟩
  | popScope {k} : Mirrors pos (.popScope k) ⟨.popScope, [.immediate k]⟩
  | alloca : Mirrors pos .alloca ⟨.alloca, []⟩
  | arg {k} : Mirrors pos (.arg k) ⟨.arg, [.immediate k]⟩
  | capture {k} : Mirrors pos (.capture k) ⟨.capture, [.immediate k]⟩
  | this : Mirrors pos .this ⟨.this, []⟩
  | arguments : Mirrors pos .arguments ⟨.arguments, []⟩
  | move {v n} : pos v n → Mirrors pos (.move v) ⟨.move, [.value n]⟩
  | phi {ps : List (BlockId × InstId)} {ns : List (UInt32 × UInt32)} :
      Forall₂ (fun p n => n.1.toNat = p.1 ∧ pos p.2 n.2) ps ns →
      Mirrors pos (.phi ps) ⟨.phi, ns.flatMap fun n => [.block n.1, .value n.2]⟩
  | debugger : Mirrors pos .debugger ⟨.debugger, []⟩

/-- The number is the position of the instruction in block order. -/
def Function.Numbered (f : Function) (id : InstId) (n : UInt32) : Prop :=
  f.order.idxOf? id = some n.toNat

/-- A flat function has the code of a function: the same name and parameters, and block by block the
same instructions in the same order. -/
structure Function.Mirrors (f : Function) (d : Flat.Function) : Prop where
  name : d.name = f.name
  paramCount : d.paramCount = f.paramCount
  blocks : Forall₂ (fun (ids : Block) insts =>
    Forall₂ (fun id i => ∃ inst, f.insts[id]? = some inst ∧ inst.Mirrors f.Numbered i)
      ids.toList insts) f.blocks.toList d.blocks

/-! ## Flattening -/

def flatField (number : InstId → UInt32) : Field → Flat.Operand
  | .value id => .value (number id)
  | .block id => .block id.toUInt32
  | .function id => .function id
  | .immediate n => .immediate n
  | .number bits => .number bits
  | .text s => .text s

/-- An instruction with its operands numbered by `number`. -/
def flatInst (number : InstId → UInt32) (inst : Inst) : Flat.Inst :=
  ⟨inst.tag, inst.fields.map (flatField number)⟩

/-- An instruction's position in block order, as a word. -/
def Function.number (f : Function) (id : InstId) : UInt32 := ((f.order.idxOf? id).getD 0).toUInt32

theorem mapM_eq_ok {α β : Type} {g : α → Except Error β} {h : α → β} :
    ∀ {as : List α}, (∀ a ∈ as, g a = .ok (h a)) → as.mapM g = .ok (as.map h)
  | [], _ => rfl
  | a :: as, hall => by
    have hrest := mapM_eq_ok fun b hb => hall b (mem_cons_of_mem _ hb)
    rw [mapM_cons, hall a mem_cons_self, hrest]
    rfl

theorem mem_operands : v ∈ inst.operands ↔ Field.value v ∈ inst.fields := by
  unfold operands
  rw [mem_filterMap]
  constructor
  · rintro ⟨o, ho, h⟩
    cases o <;> simp_all
  · intro h
    exact ⟨_, h, rfl⟩

theorem mem_blockRefs {t : BlockId} : t ∈ inst.blockRefs ↔ Field.block t ∈ inst.fields := by
  unfold blockRefs
  rw [mem_filterMap]
  constructor
  · rintro ⟨o, ho, h⟩
    cases o <;> simp_all
  · intro h
    exact ⟨_, h, rfl⟩

theorem flattenInst_eq (hp : f.Placed) (h : f.Refers inst) :
    flattenInst f.linearOffsets f.name inst = .ok (flatInst f.number inst) := by
  have hfields : inst.fields.mapM (flattenField f.linearOffsets f.name)
      = .ok (inst.fields.map (flatField f.number)) := by
    refine mapM_eq_ok fun o ho => ?_
    cases o with
    | value v =>
      obtain ⟨n, hn⟩ := Option.isSome_iff_exists.mp
        (isSome_idxOf?.mpr (h.1 v (mem_operands.mpr ho)).1)
      simp only [flattenField, flatField, Function.number, Function.linearOffsets_getD hp, hn,
        Option.getD_some]
    | block t => rfl
    | function id => rfl
    | immediate n => rfl
    | number bits => rfl
    | text s => rfl
  unfold flattenInst
  rw [hfields]
  rfl

/-- The instructions of a block, in their order. -/
def Function.instsOf (f : Function) (ids : Block) : List Inst := ids.toList.filterMap (f.insts[·]?)

def Function.flat (f : Function) : Flat.Function where
  name := f.name
  paramCount := f.paramCount
  blocks := f.blocks.toList.map fun ids => (f.instsOf ids).map (flatInst f.number)

theorem Function.flatten_eq (hp : f.Placed) (hv : f.violation? = none) : f.flatten = .ok f.flat := by
  have hall := (Function.violation?_eq_none_iff hp).mp hv
  have hblocks : (range f.blocks.size).mapM (fun b =>
      (f.blockInsts b).mapM (flattenInst f.linearOffsets f.name))
      = .ok ((range f.blocks.size).map fun b =>
        (f.blockInsts b).map (flatInst f.number)) := by
    refine mapM_eq_ok fun b hb => mapM_eq_ok fun inst hinst => flattenInst_eq hp ?_
    have hlt := mem_range.mp hb
    simp only [Function.blockInsts, Array.getElem?_eq_getElem hlt, Option.getD_some,
      Array.mem_toList_iff, Array.mem_filterMap] at hinst
    obtain ⟨id, hid, hget⟩ := hinst
    exact (hall _ (Array.getElem_mem hlt)).2 id hid inst hget
  unfold Function.flatten
  simp only [hblocks]
  show Except.ok _ = Except.ok _
  simp only [Function.flat, Except.ok.injEq, Flat.Function.mk.injEq, true_and]
  apply ext_getElem
  · simp
  · intro b h1 h2
    simp only [length_map, length_range] at h1
    simp [Function.blockInsts, Function.instsOf, h1]

/-! ## The tables of shapes agree -/

theorem forall₂_map_self {α β : Type} {R : α → β → Prop} {g : α → β} {as : List α}
    (h : ∀ a ∈ as, R a (g a)) : Forall₂ R as (as.map g) := by
  rw [forall₂_map_right_iff, forall₂_same]
  exact h

theorem flatInst_mirrors {pos : InstId → UInt32 → Prop} {number : InstId → UInt32}
    (hv : ∀ v ∈ inst.operands, pos v (number v)) (hb : ∀ t ∈ inst.blockRefs, t.toUInt32.toNat = t) :
    inst.Mirrors pos (flatInst number inst) := by
  have hval : ∀ {v}, Field.value v ∈ inst.fields → pos v (number v) :=
    fun h => hv _ (mem_operands.mpr h)
  have hblk : ∀ {t}, Field.block t ∈ inst.fields → t.toUInt32.toNat = t :=
    fun h => hb _ (mem_blockRefs.mpr h)
  have hvals : ∀ vs : List InstId, (∀ v ∈ vs, Field.value v ∈ inst.fields) →
      Forall₂ pos vs (vs.map number) := fun _ h => forall₂_map_self fun v hv => hval (h v hv)
  have hmap : ∀ vs : List InstId, (vs.map Field.value).map (flatField number)
      = (vs.map number).map Flat.Operand.value := by
    intro vs; simp [flatField]
  cases inst with
  | boolean b =>
    cases b
    · exact .false
    · exact .true
  | object ps =>
    have hps : (object ps).fields.map (flatField number)
        = (ps.map fun p => (number p.1, number p.2)).flatMap
          fun n => [Flat.Operand.value n.1, Flat.Operand.value n.2] := by
      simp [fields, map_flatMap, flatMap_map, flatField]
    unfold flatInst
    rw [hps]
    refine .object (forall₂_map_self fun p hp => ⟨hval ?_, hval ?_⟩)
    · exact mem_flatMap.mpr ⟨p, hp, by simp⟩
    · exact mem_flatMap.mpr ⟨p, hp, by simp⟩
  | array vs | func f vs | arrow f vs | pushScope k vs =>
    have hvs := hvals vs fun v hv => by simp [fields, hv]
    simp only [flatInst, fields, map_cons, hmap]
    constructor
    exact hvs
  | phi ps =>
    have hps : (phi ps).fields.map (flatField number)
        = (ps.map fun p => (p.1.toUInt32, number p.2)).flatMap
          fun n => [Flat.Operand.block n.1, Flat.Operand.value n.2] := by
      simp [fields, map_flatMap, flatMap_map, flatField]
    unfold flatInst
    rw [hps]
    refine .phi (forall₂_map_self fun p hp => ⟨hblk ?_, hval ?_⟩)
    · exact mem_flatMap.mpr ⟨p, hp, by simp⟩
    · exact mem_flatMap.mpr ⟨p, hp, by simp⟩
  -- elsewhere the shape of an instruction fixes its operands one by one
  | _ => constructor <;> first | exact hval (by simp [fields]) | exact hblk (by simp [fields])

theorem kind_eq (o : Flat.Operand) :
    (o.kind = .value ↔ ∃ n, o = .value n) ∧ (o.kind = .block ↔ ∃ n, o = .block n) ∧
      (o.kind = .function ↔ ∃ n, o = .function n) ∧ (o.kind = .immediate ↔ ∃ n, o = .immediate n) ∧
      (o.kind = .number ↔ ∃ n, o = .number n) ∧ (o.kind = .text ↔ ∃ s, o = .text s) := by
  cases o <;> simp [kind]

/-- Fields with a list at the end, if `g` gives the groups that the list may have. -/
theorem fits_group_iff {α : Type} {ks group : List FieldKind} {g : α → List Flat.Operand}
    {os : List Flat.Operand} (hne : group ≠ []) (hg : ∀ x, x.map kind = group ↔ ∃ a, x = g a) :
    Fits ⟨ks, some group⟩ os ↔ ∃ fixed as, os = fixed ++ flatMap g as ∧ fixed.map kind = ks := by
  constructor
  · rintro ⟨-, fixed, groups, rfl, hfixed, h⟩
    suffices ∃ as : List α, groups.flatten = as.flatMap g by
      obtain ⟨as, has⟩ := this
      exact ⟨fixed, as, by rw [has], hfixed⟩
    induction groups with
    | nil => exact ⟨[], rfl⟩
    | cons x groups ih =>
      obtain ⟨hx, hrest⟩ := forall_mem_cons.mp h
      obtain ⟨a, rfl⟩ := (hg x).mp hx
      obtain ⟨as, has⟩ := ih hrest
      exact ⟨a :: as, by rw [flatten_cons, has, flatMap_cons]⟩
  · rintro ⟨fixed, as, rfl, hfixed⟩
    exact ⟨hne, fixed, as.map g, by rw [flatMap_def], hfixed,
      forall_mem_map.mpr fun a _ => (hg _).mpr ⟨a, rfl⟩⟩

section Groups

variable {ks : List FieldKind} {os : List Flat.Operand}

theorem fits_values_iff : Fits ⟨ks, some [.value]⟩ os ↔
    ∃ fixed, ∃ ns : List UInt32, os = fixed ++ ns.map .value ∧ fixed.map kind = ks := by
  have hmap (ns : List UInt32) : ns.map Flat.Operand.value = ns.flatMap fun n => [.value n] :=
    map_eq_flatMap
  simp only [hmap]
  exact fits_group_iff nofun fun x => by simp [map_eq_cons_iff, kind_eq]

theorem fits_pairs_iff : Fits ⟨ks, some [.value, .value]⟩ os ↔ ∃ fixed, ∃ ns : List (UInt32 × UInt32),
    os = fixed ++ ns.flatMap (fun n => [.value n.1, .value n.2]) ∧ fixed.map kind = ks :=
  fits_group_iff nofun fun x => by simp [map_eq_cons_iff, kind_eq]

theorem fits_edges_iff : Fits ⟨ks, some [.block, .value]⟩ os ↔ ∃ fixed, ∃ ns : List (UInt32 × UInt32),
    os = fixed ++ ns.flatMap (fun n => [.block n.1, .value n.2]) ∧ fixed.map kind = ks :=
  fits_group_iff nofun fun x => by simp [map_eq_cons_iff, kind_eq]
end Groups

theorem flatInst_fits (number : InstId → UInt32) (inst : Inst) :
    Fits (flatInst number inst).tag.layout (flatInst number inst).operands := by
  have hvalues (vs : List InstId) : (vs.map Field.value).map (flatField number) =
      (vs.map number).map .value := by simp [flatField]
  cases inst with
  | boolean b => cases b <;> rfl
  | binary op a b => cases op <;> rfl
  | unary op a => cases op <;> rfl
  | object ps =>
    refine fits_pairs_iff.mpr ⟨[], ps.map fun p => (number p.1, number p.2), ?_, rfl⟩
    simp [flatInst, fields, flatField, map_flatMap, flatMap_map]
  | phi ps =>
    refine fits_edges_iff.mpr ⟨[], ps.map fun p => (p.1.toUInt32, number p.2), ?_, rfl⟩
    simp [flatInst, fields, flatField, map_flatMap, flatMap_map]
  | array vs => exact fits_values_iff.mpr ⟨[], _, hvalues vs, rfl⟩
  | func f vs | arrow f vs => exact fits_values_iff.mpr ⟨[.function f], _, congrArg _ (hvalues vs), rfl⟩
  | pushScope k vs => exact fits_values_iff.mpr ⟨[.immediate k], _, congrArg _ (hvalues vs), rfl⟩
  | _ => rfl

/-- The layouts allow the fields of instructions and nothing else: what fits behind a tag has the shape
of an instruction. -/
theorem mirrors_of_fits (i : Flat.Inst) (h : Fits i.tag.layout i.operands) :
    ∃ inst : Inst, inst.Mirrors (fun v n => v = n.toNat) i := by
  obtain ⟨tag, os⟩ := i
  have hunary (op : UnaryOp) (h : os.map kind = [.value]) :
      ∃ inst : Inst, inst.Mirrors (fun v n => v = n.toNat) ⟨op.tag, os⟩ := by
    simp only [map_eq_cons_iff, map_eq_nil_iff, kind_eq] at h
    obtain ⟨_, _, rfl, ⟨n, rfl⟩, rfl⟩ := h
    exact ⟨_, .unary rfl⟩
  have hbinary (op : BinaryOp) (h : os.map kind = [.value, .value]) :
      ∃ inst : Inst, inst.Mirrors (fun v n => v = n.toNat) ⟨op.tag, os⟩ := by
    simp only [map_eq_cons_iff, map_eq_nil_iff, kind_eq] at h
    obtain ⟨_, _, rfl, ⟨m, rfl⟩, _, _, rfl, ⟨n, rfl⟩, rfl⟩ := h
    exact ⟨_, .binary rfl rfl⟩
  have hnumbers (ns : List UInt32) : List.Forall₂ (fun v n => v = n.toNat) (ns.map (·.toNat)) ns :=
    forall₂_map_left_iff.mpr (forall₂_same.mpr fun _ _ => rfl)
  cases tag
  case array =>
    obtain ⟨fixed, ns, rfl, hfixed⟩ := fits_values_iff.mp h
    cases map_eq_nil_iff.mp hfixed
    exact ⟨_, .array (hnumbers ns)⟩
  case func | arrow | pushScope =>
    obtain ⟨fixed, ns, rfl, hfixed⟩ := fits_values_iff.mp h
    simp only [map_eq_cons_iff, map_eq_nil_iff, kind_eq] at hfixed
    obtain ⟨_, _, rfl, ⟨n, rfl⟩, rfl⟩ := hfixed
    apply Exists.intro
    constructor
    exact hnumbers ns
  case object =>
    obtain ⟨fixed, ns, rfl, hfixed⟩ := fits_pairs_iff.mp h
    cases map_eq_nil_iff.mp hfixed
    exact ⟨_, .object (forall₂_map_left_iff.mpr (forall₂_same.mpr fun n _ =>
      (⟨rfl, rfl⟩ : (n.1.toNat, n.2.toNat).1 = _ ∧ _)))⟩
  case phi =>
    obtain ⟨fixed, ns, rfl, hfixed⟩ := fits_edges_iff.mp h
    cases map_eq_nil_iff.mp hfixed
    exact ⟨_, .phi (forall₂_map_left_iff.mpr (forall₂_same.mpr fun n _ =>
      (⟨rfl, rfl⟩ : _ = (n.1.toNat, n.2.toNat).1 ∧ _)))⟩
  case undefined | null | trueLit | falseLit | alloca | this | arguments | debugger =>
    cases map_eq_nil_iff.mp h
    exact ⟨_, by constructor⟩
  case store | getItem | delItem | new | ret | load | move | jump | getGlobal | string | regex | number
    | popScope | arg | capture | setItem | call | branch =>
    simp only [Fits, Tag.layout, map_eq_cons_iff, map_eq_nil_iff, kind_eq] at h
    casesm* ∃ _, _, _ ∧ _
    subst_vars
    apply Exists.intro
    constructor <;> rfl
  case neg => exact hunary .neg h
  case bitNot => exact hunary .bitNot h
  case logicalNot => exact hunary .logicalNot h
  case typeOf => exact hunary .typeOf h
  case add => exact hbinary .add h
  case sub => exact hbinary .sub h
  case mul => exact hbinary .mul h
  case div => exact hbinary .div h
  case mod => exact hbinary .mod h
  case bitAnd => exact hbinary .bitAnd h
  case bitOr => exact hbinary .bitOr h
  case bitXor => exact hbinary .bitXor h
  case shiftLeft => exact hbinary .shiftLeft h
  case shiftRight => exact hbinary .shiftRight h
  case shiftRightZero => exact hbinary .shiftRightZero h
  case eq => exact hbinary .eq h
  case strictEq => exact hbinary .strictEq h
  case ne => exact hbinary .ne h
  case strictNe => exact hbinary .strictNe h
  case gt => exact hbinary .gt h
  case ge => exact hbinary .ge h
  case lt => exact hbinary .lt h
  case le => exact hbinary .le h
  case inOp => exact hbinary .inOp h
  case instanceOf => exact hbinary .instanceOf h

/-! ## Functions -/

theorem Function.length_instsOf (hp : f.Placed) {ids : Block} (h : ids ∈ f.blocks) :
    (f.instsOf ids).length = ids.size := by
  have : ∀ ids : List InstId, (∀ id ∈ ids, id < f.insts.size) →
      (ids.filterMap (f.insts[·]?)).length = ids.length := by
    intro ids
    induction ids with
    | nil => intro _; rfl
    | cons id ids ih =>
      intro hall
      have hid := hall id mem_cons_self
      rw [filterMap_cons, Array.getElem?_eq_getElem hid]
      simp [ih fun j hj => hall j (mem_cons_of_mem _ hj)]
  refine this ids.toList fun id hid => ?_
  exact hp.mem_order.mp (mem_order_of_mem_block h (Array.mem_toList_iff.mp hid))

theorem Function.instCount_flat (hp : f.Placed) : f.flat.instCount = f.insts.size := by
  have : ∀ blocks : List Block, (∀ ids ∈ blocks, ids ∈ f.blocks) →
      ((blocks.map fun ids => (f.instsOf ids).map (flatInst f.number)).flatten).length
        = (blocks.flatMap (·.toList)).length := by
    intro blocks
    induction blocks with
    | nil => intro _; rfl
    | cons ids blocks ih =>
      intro hall
      have hids := length_instsOf hp (hall ids mem_cons_self)
      have hrest := ih fun js hjs => hall js (mem_cons_of_mem _ hjs)
      simp only [map_cons, flatten_cons, length_append, length_map, hids,
        hrest, flatMap_cons, Array.length_toList]
  rw [← hp.length_order]
  exact this f.blocks.toList fun ids h => Array.mem_toList_iff.mp h

def Function.Small (f : Function) : Prop := f.insts.size < 2 ^ 32 ∧ f.blocks.size < 2 ^ 32

section

variable (hp : f.Placed)
include hp

theorem Function.number_numbered (hs : f.Small) (h : v ∈ f.order) : f.Numbered v (f.number v) := by
  obtain ⟨n, hn⟩ := Option.isSome_iff_exists.mp (isSome_idxOf?.mpr h)
  have hlt : n < f.order.length := by
    obtain ⟨hlt, -⟩ := idxOf?_eq_some_iff.mp hn
    exact hlt
  have hlen := hp.length_order
  have := hs.1
  unfold Numbered number
  rw [hn, Option.getD_some, toNat_toUInt32 (by omega)]

theorem Function.toNat_number (hs : f.Small) (h : v ∈ f.order) : (f.number v).toNat < f.insts.size := by
  obtain ⟨hlt, -⟩ := idxOf?_eq_some_iff.mp (number_numbered hp hs h)
  rwa [hp.length_order] at hlt

theorem Function.flat_mirrors (hv : f.violation? = none) (hs : f.Small) : f.Mirrors f.flat := by
  have hall := (Function.violation?_eq_none_iff hp).mp hv
  refine ⟨rfl, rfl, forall₂_map_self fun ids hids => ?_⟩
  have hids := Array.mem_toList_iff.mp hids
  have hinst : ∀ ids' : List InstId, (∀ id ∈ ids', id ∈ ids) →
      Forall₂ (fun id i => ∃ inst, f.insts[id]? = some inst ∧ inst.Mirrors f.Numbered i) ids'
        ((ids'.filterMap (f.insts[·]?)).map (flatInst f.number)) := by
    intro ids'
    induction ids' with
    | nil => intro _; exact .nil
    | cons id ids' ih =>
      intro hmem
      have hid := hmem id mem_cons_self
      have hlt := hp.mem_order.mp (mem_order_of_mem_block hids hid)
      have hget := Array.getElem?_eq_getElem hlt
      have hrefers := (hall ids hids).2 id hid _ hget
      rw [filterMap_cons, hget]
      refine .cons ⟨_, hget, flatInst_mirrors ?_ ?_⟩ (ih fun j hj => hmem j (mem_cons_of_mem _ hj))
      · exact fun v hv => number_numbered hp hs (hrefers.1 v hv).1
      · exact fun t ht => toNat_toUInt32 (Nat.lt_trans (hrefers.2 t ht) hs.2)
  exact hinst ids.toList fun id hid => Array.mem_toList_iff.mp hid

theorem Function.rangeFault_flat (hv : f.violation? = none) (hs : f.Small) :
    f.flat.rangeFault? = none := by
  have hall := (Function.violation?_eq_none_iff hp).mp hv
  unfold Flat.Function.rangeFault?
  simp only [findSome?_eq_none_iff, mem_flatMap, mem_flatten]
  rintro o ⟨i, ⟨is, his, hi⟩, ho⟩
  obtain ⟨ids, hids, rfl⟩ := mem_map.mp his
  obtain ⟨inst, hinst, rfl⟩ := mem_map.mp hi
  obtain ⟨id, hid, hget⟩ := mem_filterMap.mp hinst
  have hrefers := (hall ids (Array.mem_toList_iff.mp hids)).2 id (Array.mem_toList_iff.mp hid) _ hget
  obtain ⟨field, hfield, rfl⟩ := mem_map.mp ho
  cases field with
  | value v =>
    have := toNat_number hp hs (hrefers.1 v (mem_operands.mpr hfield)).1
    simp only [flatField, instCount_flat hp]
    rw [if_neg (by omega)]
  | block t =>
    have h1 := hrefers.2 t (mem_blockRefs.mpr hfield)
    have hlen : f.flat.blocks.length = f.blocks.size := by simp [flat]
    simp only [flatField, hlen]
    rw [toNat_toUInt32 (Nat.lt_trans h1 hs.2), if_neg (Nat.not_le.mpr h1)]
  | function id => rfl
  | immediate n => rfl
  | number bits => rfl
  | text s => rfl

end

/-! ## Modules -/

namespace Module

/-- Sections are added in the order of the functions, and each reads as its function in every file
whose pool extends the final one. -/
theorem addSections_reads (fs : List Function)
    (hfs : ∀ f ∈ fs, f.Placed ∧ f.violation? = none) (c : Container) (pool : StringPool)
    (hpool : pool.Sound) :
    ∃ c' pool' payloads, addSections c pool fs = .ok (c', pool') ∧ pool'.Sound ∧
      pool.bytes.toList <+: pool'.bytes.toList ∧
      c'.sections.toList = c.sections.toList ++ payloads.map (Wire.SectionKind.function, ·) ∧
      Forall₂ (fun (f : Function) (payload : Bytes) =>
        4 * f.blocks.size + 4 * f.insts.size ≤ payload.size ∧ ∀ file : ModuleFile,
          pool'.bytes.toList <+: file.pool.toList → file.pool.size < 2 ^ 32 →
          payload.size < 2 ^ 32 → Flat.Function.decode file payload = .ok f.flat) fs payloads := by
  induction fs generalizing c pool with
  | nil => exact ⟨c, pool, [], rfl, hpool, prefix_refl _, by simp, .nil⟩
  | cons f fs ih =>
    obtain ⟨hp, hv⟩ := hfs f mem_cons_self
    have hfits : ∀ is ∈ f.flat.blocks, ∀ i ∈ is, Flat.Fits i.tag.layout i.operands := by
      intro is his i hi
      obtain ⟨ids, -, rfl⟩ := mem_map.mp his
      obtain ⟨inst, -, rfl⟩ := mem_map.mp hi
      exact flatInst_fits f.number inst
    obtain ⟨hsound, hgrows⟩ := Flat.encode_grows f.flat pool hpool hfits
    obtain ⟨c', pool', payloads, hadd, hpool', hgrows', hsections, hreads⟩ :=
      ih (fun g hg => hfs g (mem_cons_of_mem _ hg))
        (c.add .function (f.flat.encode pool).1) (f.flat.encode pool).2 hsound
    have hsize : 4 * f.blocks.size + 4 * f.insts.size ≤ (f.flat.encode pool).1.size := by
      have := Flat.length_encodeBlocks f.flat.blocks (pool.intern f.name).2
      have hcount := Function.instCount_flat hp
      have hlen : f.flat.blocks.length = f.blocks.size := by simp [Function.flat]
      unfold Flat.Function.instCount at hcount
      rw [hcount, hlen] at this
      simp only [Flat.Function.encode, size_toArray, length_append]
      show _ ≤ _ + (Flat.encodeBlocks (pool.intern f.name).2 f.flat.blocks).1.length
      omega
    refine ⟨c', pool', (f.flat.encode pool).1 :: payloads, ?_, hpool', hgrows.trans hgrows', ?_,
      .cons ⟨hsize, fun file hfile hfsize hplen => ?_⟩ hreads⟩
    · unfold addSections Function.encode
      rw [Function.flatten_eq hp hv]
      exact hadd
    · rw [hsections]
      simp [Container.add]
    · have hsmall : f.Small := ⟨by omega, by omega⟩
      exact Flat.decode_encode f.flat pool hpool hfits (Function.rangeFault_flat hp hv hsmall) file
        (hgrows'.trans hfile) hfsize hplen

theorem parse_functions_and_pool {c : Container} {payloads : List Bytes} {pool : Bytes}
    (hc : c.sections.toList = payloads.map (Wire.SectionKind.function, ·) ++ [(.stringPool, pool)])
    (hsize : c.toBytes.size < 2 ^ 32) :
    ∃ file, ModuleFile.parse c.toBytes = .ok file ∧ file.pool = pool ∧
      file.sections.map (·.kind) = replicate payloads.length .function ++ [.stringPool] ∧
      file.functions = payloads := by
  have hplaced := c.placed_map
  have hfilter : ∀ k : Wire.SectionKind, (c.placed.filter (·.kind == k)).map (·.payload)
      = (c.sections.toList.filter (·.1 == k)).map (·.2) := by
    intro k
    rw [← hplaced, filter_map, map_map]
    rfl
  have hpool : (c.placed.filter (·.kind == .stringPool)).map (·.payload) = [pool] := by
    rw [hfilter, hc, filter_append, filter_map]
    simp [Function.comp_def]
  have hfunctions : (c.placed.filter (·.kind == .function)).map (·.payload) = payloads := by
    rw [hfilter, hc, filter_append, filter_map]
    simp [Function.comp_def]
  have hkinds : c.placed.map (·.kind) = replicate payloads.length .function ++ [.stringPool] := by
    have := congrArg (map Prod.fst) hplaced
    rw [map_map, hc] at this
    simpa [Function.comp_def] using this
  have hfind : ModuleFile.findPool c.placed = .ok pool := by
    unfold ModuleFile.findPool
    obtain ⟨s, hs, rfl⟩ := map_eq_singleton_iff.mp hpool
    rw [hs]
  refine ⟨⟨c.placed, pool⟩, ?_, rfl, hkinds, hfunctions⟩
  rw [c.parse_toBytes hsize, hfind]
  rfl

theorem container_reads (m : Module) (hbuilt : ∀ f ∈ m.functions, f.Built) (hverify : m.verify = .ok ())
    (hsize : ∀ bytes, m.toBytes = .ok bytes → bytes.size < 2 ^ 32) :
    ∃ c file, m.container = .ok c ∧ ModuleFile.parse c.toBytes = .ok file ∧ file.sections.map (·.kind)
        = replicate m.functions.size Wire.SectionKind.function ++ [.stringPool] ∧
      Forall₂ (fun (f : Function) payload => f ∈ m.functions ∧ f.Placed ∧ f.violation? = none ∧
        f.Small ∧ Flat.Function.decode file payload = .ok f.flat) m.functions.toList file.functions := by
  have hfs : ∀ f ∈ m.functions.toList, f.Placed ∧ f.violation? = none := by
    intro f hf
    have hf := Array.mem_toList_iff.mp hf
    exact ⟨(hbuilt f hf).placed, ((verify_eq_ok_iff m).mp hverify f hf).1⟩
  obtain ⟨c, pool, payloads, hadd, -, -, hsections, hreads⟩ :=
    addSections_reads m.functions.toList hfs Container.empty StringPool.empty StringPool.sound_empty
  have hcontainer : m.container = .ok (c.add .stringPool pool.bytes) := by
    unfold container
    rw [hadd]
    rfl
  have hbytes : (c.add .stringPool pool.bytes).toBytes.size < 2 ^ 32 := by
    refine hsize _ ?_
    unfold toBytes
    rw [hcontainer]
    rfl
  have hc : (c.add .stringPool pool.bytes).sections.toList
      = payloads.map (Wire.SectionKind.function, ·) ++ [(.stringPool, pool.bytes)] := by
    simp [Container.add, hsections, Container.empty]
  obtain ⟨file, hparse, hpool, hkinds, hfunctions⟩ := parse_functions_and_pool hc hbytes
  have hsizes : ∀ s ∈ (c.add .stringPool pool.bytes).sections.toList, s.2.size < 2 ^ 32 := by
    intro s hs
    rw [← Container.placed_map] at hs
    obtain ⟨p, hp, rfl⟩ := mem_map.mp hs
    obtain ⟨e, he, rfl⟩ := mem_map.mp hp
    have := (Container.sections_hold _ e he).bound
    rw [Wire.length_sectionForm] at this
    show e.1.2.size < _
    omega
  refine ⟨_, file, hcontainer, hparse, ?_, ?_⟩
  · rw [hkinds, ← hreads.length_eq, Array.length_toList]
  · rw [hfunctions]
    obtain ⟨hlen, hpairs⟩ := forall₂_iff_zip.mp hreads
    refine forall₂_iff_zip.mpr ⟨hlen, fun {f payload} hmem => ?_⟩
    obtain ⟨hf, hpayload⟩ := of_mem_zip hmem
    obtain ⟨hroom, hdecode⟩ := hpairs hmem
    have hlt : payload.size < 2 ^ 32 := by
      refine hsizes (.function, payload) ?_
      rw [hc]
      exact mem_append_left _ (mem_map.mpr ⟨payload, hpayload, rfl⟩)
    have hpoolsize : file.pool.size < 2 ^ 32 := by
      rw [hpool]
      refine hsizes (.stringPool, pool.bytes) ?_
      rw [hc]
      exact mem_append_right _ mem_cons_self
    obtain ⟨hp, hv⟩ := hfs f hf
    exact ⟨Array.mem_toList_iff.mp hf, hp, hv, ⟨by omega, by omega⟩,
      hdecode file (hpool ▸ prefix_refl _) hpoolsize hlt⟩

/-- **Reading a module back.** The file of a verified module, if it is below 2^32 bytes, can be made and
parsed; it has one section per function, in their order, and the string pool behind them; and each
function section decodes to a function that mirrors the original. -/
theorem verified_module_reads_back (m : Module) (hbuilt : ∀ f ∈ m.functions, f.Built)
    (hverify : m.verify = .ok ())
    (hsize : ∀ bytes, m.toBytes = .ok bytes → bytes.size < 2 ^ 32) :
    ∃ c file, m.container = .ok c ∧ ModuleFile.parse c.toBytes = .ok file ∧
      file.sections.map (·.kind)
        = List.replicate m.functions.size Wire.SectionKind.function ++ [.stringPool] ∧
      List.Forall₂ (fun (f : Function) payload =>
        ∃ d, Flat.Function.decode file payload = .ok d ∧ f.Mirrors d)
        m.functions.toList file.functions := by
  obtain ⟨c, file, hc, hparse, hkinds, hreads⟩ := container_reads m hbuilt hverify hsize
  refine ⟨c, file, hc, hparse, hkinds, hreads.imp fun f payload ⟨_, hp, hv, hsmall, hdecode⟩ => ?_⟩
  exact ⟨f.flat, hdecode, Function.flat_mirrors hp hv hsmall⟩

/-- A loop that makes closures of its own function, with a value that comes from two blocks. -/
def looping : Function :=
  let f : Function := { id := 7, name := "loop", paramCount := 1 }
  let f := f.newBlock.2.newBlock.2.newBlock.2
  let f := (f.push 1 (.phi [])).2
  let f := (f.push 0 (.string "𝄞")).2
  let f := (f.push 0 (.jump 1)).2
  let f := (f.push 1 (.func 7 [0])).2
  let f := (f.push 1 (.branch 3 1 2)).2
  let f := (f.push 2 (.ret 0)).2
  f.replace 0 (.phi [(0, 1), (1, 3)])

theorem looping_built : looping.Built := by
  unfold looping
  refine .replace _ (.push _ (.push _ (.push _ (.push _ (.push _ (.push _ ?_ ?_) ?_) ?_) ?_) ?_) ?_) ?_
  · exact .newBlock (.newBlock (.newBlock (.start 7 "loop" 1)))
  all_goals decide

/-- A phi that names a later instruction, a character outside the first plane and a closure. -/
theorem looping_module_reads_back :
    ∃ c file, (Module.mk "m" 8 #[looping]).container = .ok c ∧
      ModuleFile.parse c.toBytes = .ok file ∧
      file.sections.map (·.kind) = [.function, .stringPool] ∧
      List.Forall₂ (fun (f : Function) payload =>
        ∃ d, Flat.Function.decode file payload = .ok d ∧ f.Mirrors d) [looping] file.functions := by
  refine verified_module_reads_back (Module.mk "m" 8 #[looping]) ?_ (by decide +kernel) ?_
  · intro f hf
    rw [List.mem_toArray.mp hf |> List.mem_singleton.mp]
    exact looping_built
  · have hsmall : ((Module.mk "m" 8 #[looping]).toBytes.toOption.all
        fun bytes => decide (bytes.size < 2 ^ 32)) = true := by decide +kernel
    intro bytes hbytes
    rw [hbytes] at hsmall
    simpa [Except.toOption] using hsmall

end Module

end ScriptIr.Code
