import ScriptIr.Proofs.Wire.Reading
import ScriptIr.Wire.ModuleFile

/-!
# Reading a container back

A file is the header and the sections, one after the other, each a byte count, its payload and
padding. The header says where each section starts; the writer's running position and the reader's
expected position both agree with it.

* `appendAll_holds`: every section stands at the offset that `Container.offsetsFrom` gives it.
* `yields_readSections`: the entries of the header read as the sections they point at.
-/
namespace ScriptIr.Wire

open List Read

theorem le_nextMultiple (n : Nat) : n ≤ nextMultiple n 8 := by unfold nextMultiple; omega

theorem nextMultiple_mod (n : Nat) : nextMultiple n 8 % 8 = 0 := by unfold nextMultiple; omega

/-! ## Sections in their place -/

def sectionForm (payload : Bytes) : List UInt8 := word payload.size.toUInt32 ++ payload.toList

theorem length_sectionForm (payload : Bytes) : (sectionForm payload).length = 4 + payload.size := by
  simp [sectionForm]

theorem lengthPrefixed_of_holds {data payload : Bytes} {p : Nat} (hs : payload.size < 2 ^ 32)
    (h : Holds data p (sectionForm payload)) : lengthPrefixed data p = .ok payload := by
  have hread : Yields (do let n ← uint; take n.toNat) (sectionForm payload)
      payload := by
    refine (yields_uint _).bind ?_
    have := yields_take payload.toList
    rw [Array.length_toList, Array.toArray_toList] at this
    rwa [toNat_toUInt32 hs]
  exact hread.run_at h

namespace Container

variable (w : Writer)

theorem toList_appendSection (payload : Bytes) :
    ∃ pad, (appendSection w payload).bytes.toList = w.bytes.toList ++ sectionForm payload ++ pad := by
  unfold appendSection Writer.align
  rw [Array.toList_append]
  refine ⟨_, congrArg (· ++ _) ?_⟩
  simp [Writer.raw, Writer.uint, Writer.append, sectionForm]

theorem size_appendSection (payload : Bytes) :
    (appendSection w payload).size = nextMultiple (w.size + 4 + payload.size) 8 := by
  have h := le_nextMultiple (w.size + 4 + payload.size)
  have hraw : ((w.uint payload.size.toUInt32).2.raw payload).2.size = w.size + 4 + payload.size := by
    simp only [Writer.raw, Writer.uint, Writer.append, Writer.size]
    rw [← Array.length_toList, Array.toList_append, Array.toList_appendList]
    simp [length_word]; omega
  unfold appendSection Writer.align
  rw [hraw, Writer.size, Array.size_append, Array.size_replicate]
  show ((w.uint payload.size.toUInt32).2.raw payload).2.size + _ = _
  omega

theorem appendSection_holds (payload : Bytes) :
    Holds (appendSection w payload).bytes w.size (sectionForm payload) := by
  obtain ⟨pad, h⟩ := toList_appendSection w payload
  exact ⟨w.bytes.toList, pad, h, Array.length_toList⟩

theorem prefix_appendSection (payload : Bytes) :
    w.bytes.toList <+: (appendSection w payload).bytes.toList := by
  obtain ⟨pad, h⟩ := toList_appendSection w payload
  exact ⟨sectionForm payload ++ pad, by rw [h, append_assoc]⟩

theorem prefix_appendAll (payloads : List Bytes) (w : Writer) :
    w.bytes.toList <+: (payloads.foldl appendSection w).bytes.toList := by
  induction payloads generalizing w with
  | nil => exact prefix_refl _
  | cons payload rest ih => exact (prefix_appendSection w payload).trans (ih _)

theorem length_offsetsFrom (start : Nat) (payloads : List Bytes) :
    (offsetsFrom start payloads).length = payloads.length := by
  induction payloads generalizing start with
  | nil => rfl
  | cons payload rest ih => simp [offsetsFrom, ih]

theorem appendAll_holds (payloads : List Bytes) (w : Writer) :
    ∀ e ∈ payloads.zip (offsetsFrom w.size payloads),
      Holds (payloads.foldl appendSection w).bytes e.2 (sectionForm e.1) := by
  induction payloads generalizing w with
  | nil => intro e he; cases he
  | cons payload rest ih =>
    intro e he
    simp only [offsetsFrom, zip_cons_cons, mem_cons] at he
    rcases he with rfl | he
    · exact (appendSection_holds w payload).mono (prefix_appendAll rest _)
    · rw [← size_appendSection] at he
      exact ih _ e he

/-! ## The header -/

def entryForm (e : (SectionKind × Bytes) × Nat) : List UInt8 :=
  word e.1.1.code ++ word e.2.toUInt32

variable (c : Container)

theorem toList_header : c.header.toList = magic.toList ++ word c.sections.size.toUInt32
      ++ (c.sections.toList.zip c.offsets).flatMap entryForm := by
  have hfold : ∀ (es : List ((SectionKind × Bytes) × Nat)) (start : Bytes),
      (es.foldl (fun (bytes : Bytes) e => bytes ++ entryForm e) start).toList
        = start.toList ++ es.flatMap entryForm := by
    intro es
    induction es with
    | nil => simp
    | cons e es ih => intro start; simp [ih]
  have := hfold (c.sections.toList.zip c.offsets) (magic ++ word c.sections.size.toUInt32)
  rw [Array.toList_appendList] at this
  exact this

theorem length_flatMap_entryForm (es : List ((SectionKind × Bytes) × Nat)) :
    (es.flatMap entryForm).length = 8 * es.length := by
  induction es with
  | nil => rfl
  | cons e es ih => simp [entryForm, ih]; omega

theorem length_offsets : c.offsets.length = c.sections.size := by
  simp [offsets, length_offsetsFrom]

theorem size_header : c.header.size = headerLength c.sections.size := by
  rw [← Array.length_toList, toList_header, length_append, length_flatMap_entryForm,
    length_zip, length_offsets]
  simp [magic, headerLength]

/-- The sections as a reader finds them. -/
def placed : List Section :=
  (c.sections.toList.zip c.offsets).map fun e => ⟨e.1.1, e.2.toUInt32, e.1.2⟩

/-- A reader finds the same kinds and payloads in the same order. -/
theorem placed_map : c.placed.map (fun s => (s.kind, s.payload)) = c.sections.toList := by
  unfold placed
  rw [map_map]
  exact map_fst_zip (Nat.le_of_eq (by rw [length_offsets, Array.length_toList]))

theorem ofCode_code (k : SectionKind) : SectionKind.ofCode? k.code = some k := by
  cases k <;> rfl

theorem yields_readSections (data : Bytes) (sections : List (SectionKind × Bytes)) (start : Nat)
    (hstart : start % 8 = 0)
    (hread : ∀ e ∈ sections.zip (offsetsFrom start (sections.map (·.2))),
      e.2 < 2 ^ 32 ∧ lengthPrefixed data e.2 = .ok e.1.2) :
    Yields (ModuleFile.readSections data sections.length start)
      ((sections.zip (offsetsFrom start (sections.map (·.2)))).flatMap entryForm)
      ((sections.zip (offsetsFrom start (sections.map (·.2)))).map
        fun e => ⟨e.1.1, e.2.toUInt32, e.1.2⟩) := by
  induction sections generalizing start with
  | nil => exact yields_pure []
  | cons s rest ih =>
    simp only [map_cons, offsetsFrom, zip_cons_cons, flatMap_cons, length_cons]
      at hread ⊢
    obtain ⟨hlt, hpayload⟩ := hread (s, start) mem_cons_self
    have hrest := ih (nextMultiple (start + 4 + s.2.size) 8) (nextMultiple_mod _)
      fun e he => hread e (mem_cons_of_mem _ he)
    have hoff : start.toUInt32.toNat = start := toNat_toUInt32 hlt
    unfold ModuleFile.readSections
    rw [entryForm, append_assoc]
    refine (yields_uint _).bind ((yields_uint _).bind ?_)
    simp only [ofCode_code, hoff, hstart, hpayload, ne_eq, not_true_eq_false, if_false]
    exact hrest.map (Section.mk s.1 start.toUInt32 s.2 :: ·)

/-! ## The whole file -/

theorem toBytes_eq : c.toBytes = ((c.sections.toList.map (·.2)).foldl appendSection
      (appendSection Writer.empty c.header)).bytes := by
  unfold toBytes
  rw [← Array.foldl_toList, foldl_map]

theorem header_holds : Holds c.toBytes 0 (sectionForm c.header) := by
  rw [toBytes_eq]
  exact (appendSection_holds Writer.empty c.header).mono (prefix_appendAll _ _)

theorem sections_hold :
    ∀ e ∈ c.sections.toList.zip c.offsets, Holds c.toBytes e.2 (sectionForm e.1.2) := by
  intro e he
  have hstart : (appendSection Writer.empty c.header).size
      = nextMultiple (4 + headerLength c.sections.size) 8 := by
    rw [size_appendSection, size_header]; simp [Writer.size, Writer.empty]
  have := appendAll_holds (c.sections.toList.map (·.2)) (appendSection Writer.empty c.header) (e.1.2, e.2)
  rw [hstart, ← toBytes_eq] at this
  refine this ?_
  rw [← offsets, zip_map_left]
  exact mem_map.mpr ⟨e, he, rfl⟩

/-- Every byte count and offset of the file fits in its word. -/
structure Fits (c : Container) : Prop where
  header : headerLength c.sections.size < 2 ^ 32
  sections : ∀ e ∈ c.sections.toList.zip c.offsets, e.2 < 2 ^ 32 ∧ e.1.2.size < 2 ^ 32

/-- Files below 2^32 bytes fit, as each section lies in the file. -/
theorem fits_of_size_lt {c : Container} (h : c.toBytes.size < 2 ^ 32) : c.Fits := by
  constructor
  · have hbound := (header_holds c).bound
    rw [length_sectionForm, size_header] at hbound
    omega
  · intro e he
    have hbound := (sections_hold c e he).bound
    rw [length_sectionForm] at hbound
    exact ⟨by omega, by omega⟩

theorem yields_readHeader (h : c.Fits) :
    Yields (ModuleFile.readHeader c.toBytes c.header) c.header.toList c.placed := by
  have hheader := h.header
  rw [headerLength] at hheader
  rw [toList_header, append_assoc]
  unfold ModuleFile.readHeader
  refine (yields_take magic.toList).bind ?_
  simp only [Array.toArray_toList, ne_eq, not_true_eq_false, if_false]
  refine (yields_uint _).bind ?_
  rw [toNat_toUInt32 (by omega), size_header, ← Array.length_toList]
  refine yields_readSections _ _ _ (nextMultiple_mod _) fun e he => ?_
  have he' : e ∈ c.sections.toList.zip c.offsets := by
    rwa [offsets, ← Array.length_toList]
  obtain ⟨hoffset, hpayload⟩ := h.sections e he'
  exact ⟨hoffset, lengthPrefixed_of_holds hpayload (sections_hold c e he')⟩

/-- **Reading a container back.** A file whose counts and offsets fit in their words reads as its own
sections, in their order and at their offsets, unless the string pool is missing or not the only one. -/
theorem parse_toBytes_of_fits (h : c.Fits) : ModuleFile.parse c.toBytes
      = (ModuleFile.findPool c.placed).map fun pool => ⟨c.placed, pool⟩ := by
  have hheader := (yields_readHeader c h).run
  rw [Array.toArray_toList] at hheader
  unfold ModuleFile.parse
  rw [lengthPrefixed_of_holds (by rw [size_header]; exact h.header) (header_holds c)]
  show (run (ModuleFile.readHeader c.toBytes c.header) c.header >>= fun sections => _) = _
  rw [hheader]
  show (ModuleFile.findPool c.placed >>= fun pool => _) = _
  cases ModuleFile.findPool c.placed <;> rfl

theorem parse_toBytes (h : c.toBytes.size < 2 ^ 32) : ModuleFile.parse c.toBytes
      = (ModuleFile.findPool c.placed).map fun pool => ⟨c.placed, pool⟩ :=
  parse_toBytes_of_fits c (fits_of_size_lt h)

end Container

end ScriptIr.Wire
