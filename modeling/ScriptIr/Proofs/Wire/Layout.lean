import ScriptIr.Proofs.Wire.Container

/-!
# Layout of module files

Both directions of the container format. A file made of any sections consists of the header and the
sections, each padded to a multiple of eight, and the offsets say where each begins. A file that can
be read, whoever made it, has its sections one behind the other, and making a file of them again moves
none of them up.

* `toList_toBytes`, `getElem?_offsets`: the writer's side.
-/
namespace ScriptIr.Wire

open List Read

variable {n start offset count expected : Nat} {sections : List Section} {data payload : Bytes}
  {act : Read α} {c c' : Cursor} {m : ModuleFile}

def paddedForm (payload : Bytes) : List UInt8 :=
  sectionForm payload ++ replicate (nextMultiple (4 + payload.size) 8 - (4 + payload.size)) 0

theorem length_paddedForm (payload : Bytes) :
    (paddedForm payload).length = nextMultiple (4 + payload.size) 8 := by
  have := le_nextMultiple (4 + payload.size)
  rw [paddedForm, length_append, length_sectionForm, length_replicate]
  omega

theorem nextMultiple_add (h : n % 8 = 0) (m : Nat) : nextMultiple (n + m) 8 = n + nextMultiple m 8 := by
  unfold nextMultiple; omega

theorem nextMultiple_mono {m : Nat} (h : n ≤ m) : nextMultiple n 8 ≤ nextMultiple m 8 := by
  unfold nextMultiple; omega

/-! ## What is written -/

namespace Container

variable {w : Writer} {i : Nat}

def addAll (c : Container) (sections : List (SectionKind × Bytes)) : Container :=
  sections.foldl (fun c s => c.add s.1 s.2) c

theorem toList_addAll (c : Container) (sections : List (SectionKind × Bytes)) :
    (c.addAll sections).sections.toList = c.sections.toList ++ sections := by
  induction sections generalizing c with
  | nil => simp [addAll]
  | cons s rest ih =>
    show ((c.add s.1 s.2).addAll rest).sections.toList = _
    rw [ih]
    simp [add]

@[simp] theorem toList_addAll_empty (sections : List (SectionKind × Bytes)) :
    (empty.addAll sections).sections.toList = sections := toList_addAll empty sections

@[simp] theorem size_addAll_empty (sections : List (SectionKind × Bytes)) :
    (empty.addAll sections).sections.size = sections.length := by
  rw [← Array.length_toList, toList_addAll_empty]

theorem toList_appendSection_of_aligned (h : w.size % 8 = 0) (payload : Bytes) :
    (appendSection w payload).bytes.toList = w.bytes.toList ++ paddedForm payload := by
  obtain ⟨pad, hpad⟩ := toList_appendSection w payload
  have hraw : ((w.uint payload.size.toUInt32).2.raw payload).2.bytes.toList
      = w.bytes.toList ++ sectionForm payload := by
    simp [Writer.raw, Writer.uint, Writer.append, sectionForm]
  have hsize : ((w.uint payload.size.toUInt32).2.raw payload).2.size = w.size + (4 + payload.size) := by
    rw [Writer.size, ← Array.length_toList, hraw, length_append, length_sectionForm,
      Array.length_toList, Writer.size]
  unfold appendSection Writer.align
  rw [Array.toList_append, hraw, hsize, nextMultiple_add h, Array.toList_replicate, paddedForm,
    Nat.add_sub_add_left, append_assoc]

theorem toList_appendAll (h : w.size % 8 = 0) (payloads : List Bytes) :
    (payloads.foldl appendSection w).bytes.toList = w.bytes.toList ++ payloads.flatMap paddedForm := by
  induction payloads generalizing w with
  | nil => simp
  | cons payload rest ih =>
    have hnext : (appendSection w payload).size % 8 = 0 := by
      rw [size_appendSection]; exact nextMultiple_mod _
    rw [foldl_cons, ih hnext, toList_appendSection_of_aligned h, flatMap_cons, append_assoc]

theorem toList_toBytes (c : Container) :
    c.toBytes.toList = (c.header :: c.sections.toList.map (·.2)).flatMap paddedForm := by
  have hnext : (appendSection Writer.empty c.header).size % 8 = 0 := by
    rw [size_appendSection]; exact nextMultiple_mod _
  rw [toBytes_eq, toList_appendAll hnext, toList_appendSection_of_aligned rfl, flatMap_cons]
  rfl

theorem getElem?_offsetsFrom (h : start % 8 = 0) {payloads : List Bytes}
    (hi : (offsetsFrom start payloads)[i]? = some offset) :
    offset = start + ((payloads.take i).flatMap paddedForm).length ∧ offset % 8 = 0 := by
  induction payloads generalizing start i with
  | nil => cases hi
  | cons payload rest ih =>
    cases i with
    | zero =>
      obtain rfl : start = offset := by simpa [offsetsFrom] using hi
      exact ⟨by simp, h⟩
    | succ i =>
      obtain ⟨heq, hmod⟩ := ih (nextMultiple_mod _) (by simpa [offsetsFrom] using hi)
      refine ⟨?_, hmod⟩
      rw [heq, take_succ_cons, flatMap_cons, length_append, length_paddedForm,
        Nat.add_assoc start, nextMultiple_add h, Nat.add_assoc]

theorem getElem?_offsets (c : Container) (hi : c.offsets[i]? = some offset) : offset % 8 = 0 ∧
      offset = (((c.header :: c.sections.toList.map (·.2)).take (i + 1)).flatMap paddedForm).length := by
  obtain ⟨heq, hmod⟩ := getElem?_offsetsFrom (nextMultiple_mod _) hi
  refine ⟨hmod, ?_⟩
  rw [heq, take_succ_cons, flatMap_cons, length_append, length_paddedForm, size_header]

end Container

/-! ## The string pool -/

def poolCount (kinds : List SectionKind) : Nat := kinds.count .stringPool

theorem findPool_eq (sections : List Section) :
    (∃ pool, ModuleFile.findPool sections = .ok pool ∧ poolCount (sections.map (·.kind)) = 1)
      ∨ (ModuleFile.findPool sections
          = .error (if poolCount (sections.map (·.kind)) = 0 then .missingPool else .secondPool)
        ∧ poolCount (sections.map (·.kind)) ≠ 1) := by
  have hcount : poolCount (sections.map (·.kind))
      = (sections.filter (fun s => s.kind == .stringPool)).length := by
    rw [poolCount, count, countP_map, countP_eq_length_filter]
    rfl
  unfold ModuleFile.findPool
  rw [hcount]
  split
  next pool hpool => exact .inl ⟨_, rfl, by rw [hpool]; rfl⟩
  next hnone => exact .inr ⟨by rw [hnone]; rfl, by rw [hnone]; simp⟩
  next hnotOne hnotNone =>
    have hlen : 2 ≤ (sections.filter (fun s => s.kind == .stringPool)).length := by
      match hf : sections.filter (fun s => s.kind == .stringPool) with
      | [] => exact absurd hf hnotNone
      | [pool] => exact absurd hf (hnotOne pool)
      | _ :: _ :: _ => rw [hf]; simp
    exact .inr ⟨by rw [if_neg (by omega)], by omega⟩

theorem findPool_eq_ok {pool : Bytes} (h : ModuleFile.findPool sections = .ok pool) :
    poolCount (sections.map (·.kind)) = 1 := by
  obtain ⟨_, _, hone⟩ | ⟨herror, _⟩ := findPool_eq sections
  · exact hone
  · rw [h] at herror
    cases herror

namespace Container

theorem map_kind_placed (c : Container) : c.placed.map (·.kind) = c.sections.toList.map (·.1) := by
  rw [← placed_map, map_map]
  rfl

theorem map_offset_placed {c : Container} (h : c.Fits) : c.placed.map (·.offset.toNat) = c.offsets := by
  have hsnd : (c.sections.toList.zip c.offsets).map (·.2) = c.offsets :=
    map_snd_zip (Nat.le_of_eq (by rw [length_offsets, Array.length_toList]))
  rw [← hsnd, placed, map_map]
  exact map_congr_left fun e he => toNat_toUInt32 (h.sections e he).1

theorem parse_toBytes_ok {c : Container} (h : c.Fits)
    (hone : poolCount (c.sections.toList.map (·.1)) = 1) :
    ∃ m, ModuleFile.parse c.toBytes = .ok m
      ∧ m.sections.map (fun s => (s.kind, s.payload)) = c.sections.toList
      ∧ m.sections.map (·.offset.toNat) = c.offsets := by
  have hparse := parse_toBytes_of_fits c h
  obtain ⟨pool, hpool, _⟩ | ⟨_, hcount⟩ := findPool_eq c.placed
  · rw [hpool] at hparse
    exact ⟨_, hparse, placed_map c, map_offset_placed h⟩
  · rw [map_kind_placed] at hcount
    exact absurd hone hcount

theorem parse_toBytes_error {c : Container} (h : c.Fits)
    (hcount : poolCount (c.sections.toList.map (·.1)) ≠ 1) :
    ModuleFile.parse c.toBytes = .error
      (if poolCount (c.sections.toList.map (·.1)) = 0 then .missingPool else .secondPool) := by
  have hparse := parse_toBytes_of_fits c h
  obtain ⟨_, _, hone⟩ | ⟨herror, _⟩ := findPool_eq c.placed
  · rw [map_kind_placed] at hone
    exact absurd hone hcount
  · rw [herror, map_kind_placed] at hparse
    exact hparse

/-- **Sections that are added and read back.** The file of any sections is the header and the sections,
each padded to a multiple of eight; each offset is the length of all that stands before the section.
If the file is below 2^32 bytes, reading it gives the same kinds, payloads and offsets exactly if one
section is the string pool, and fails otherwise. -/
theorem added_sections_read_back (sections : List (SectionKind × Bytes))
    (h : (empty.addAll sections).toBytes.size < 2 ^ 32) :
    let c := empty.addAll sections
    c.toBytes.toList = (c.header :: sections.map (·.2)).flatMap paddedForm
    ∧ c.offsets.length = sections.length
    ∧ (∀ (i : Nat) (payload : Bytes) (offset : Nat), (sections.map (·.2))[i]? = some payload →
        c.offsets[i]? = some offset →
        offset % 8 = 0 ∧ offset < 2 ^ 32 ∧ Holds c.toBytes offset (sectionForm payload)
        ∧ offset = (((c.header :: sections.map (·.2)).take (i + 1)).flatMap paddedForm).length)
    ∧ ((∃ m, ModuleFile.parse c.toBytes = .ok m
          ∧ m.sections.map (fun s => (s.kind, s.payload)) = sections
          ∧ m.sections.map (·.offset.toNat) = c.offsets)
        ↔ poolCount (sections.map (·.1)) = 1)
    ∧ (poolCount (sections.map (·.1)) ≠ 1 → ModuleFile.parse c.toBytes = .error
        (if poolCount (sections.map (·.1)) = 0 then .missingPool else .secondPool)) := by
  intro c
  have hsections : c.sections.toList = sections := toList_addAll_empty sections
  have hfits : c.Fits := fits_of_size_lt h
  clear_value c
  have herror := parse_toBytes_error hfits
  rw [hsections] at herror
  refine ⟨?_, ?_, fun i payload offset hpayload hoffset => ?_, ⟨?_, ?_⟩, herror⟩
  · rw [toList_toBytes, hsections]
  · rw [length_offsets, ← Array.length_toList, hsections]
  · obtain ⟨hmod, hlength⟩ := getElem?_offsets c hoffset
    rw [hsections] at hlength
    obtain ⟨s, hs, rfl⟩ := Option.map_eq_some_iff.mp (List.getElem?_map ▸ hpayload)
    have hmem : (s, offset) ∈ c.sections.toList.zip c.offsets := by
      rw [hsections]
      exact List.mem_of_getElem? (List.getElem?_zip_eq_some.mpr ⟨hs, hoffset⟩)
    have hlt := (hfits.sections _ hmem).1
    have hholds := sections_hold c _ hmem
    exact ⟨hmod, hlt, hholds, hlength⟩
  · rintro ⟨m, hm, hsame, -⟩
    refine Decidable.byContradiction fun hcount => ?_
    rw [herror hcount] at hm
    cases hm
  · intro hone
    have hok := parse_toBytes_ok hfits (by rwa [hsections])
    rwa [hsections] at hok

/-- Payloads of three lengths modulo eight, one of them the pool. -/
theorem three_sections_read_back :
    let sections := [(SectionKind.function, #[1, 2, 3]), (.stringPool, #[]), (.function, #[4, 5, 6, 7])]
    ∃ m, ModuleFile.parse (empty.addAll sections).toBytes = .ok m
      ∧ m.sections.map (fun s => (s.kind, s.payload)) = sections
      ∧ m.sections.map (·.offset.toNat) = (empty.addAll sections).offsets :=
  (added_sections_read_back _ (by decide +kernel)).2.2.2.1.mpr (by decide)

end Container

/-! ## What is read -/

/-- A byte count stands at `offset`, and behind it the payload, all inside the file. -/
structure Stands (data : Bytes) (offset : Nat) (payload : Bytes) : Prop where
  inside : offset + 4 + payload.size ≤ data.size
  count : (toWord (data.extract offset (offset + 4))).toNat = payload.size
  bytes : data.extract (offset + 4) (offset + 4 + payload.size) = payload

theorem Stands.size_lt (h : Stands data offset payload) : payload.size < 2 ^ 32 := by
  rw [← h.count]
  exact UInt32.toNat_lt _

theorem Read.bind_eq_ok {next : α → Read β} {b : β} (h : (act >>= next) c = .ok b c') :
    ∃ a mid, act c = .ok a mid ∧ next a mid = .ok b c' := by
  change EStateM.bind act next c = _ at h
  unfold EStateM.bind at h
  split at h
  next a mid hact => exact ⟨a, mid, hact, h⟩
  next => cases h

theorem Read.take_eq_ok {bytes : Bytes} (h : take n c = .ok bytes c') :
    c.position + n ≤ c.data.size ∧ bytes = c.data.extract c.position (c.position + n)
      ∧ c' = { c with position := c.position + n } := by
  unfold take at h
  split at h
  next hle => cases h; exact ⟨hle, rfl, rfl⟩
  next => cases h

theorem Read.uint_eq_ok {v : UInt32} (h : uint c = .ok v c') :
    c.position + 4 ≤ c.data.size ∧ v = toWord (c.data.extract c.position (c.position + 4))
      ∧ c' = { c with position := c.position + 4 } := by
  obtain ⟨bytes, mid, htake, hpure⟩ := bind_eq_ok h
  obtain ⟨hle, rfl, rfl⟩ := take_eq_ok htake
  cases hpure
  exact ⟨hle, rfl, rfl⟩

theorem stands_of_lengthPrefixed (h : lengthPrefixed data offset = .ok payload) :
    Stands data offset payload := by
  obtain ⟨c, hrun⟩ := run_eq_ok.mp h
  obtain ⟨_, atOffset, hseek, hrest⟩ := bind_eq_ok hrun
  obtain ⟨n, behind, hcount, htake⟩ := bind_eq_ok hrest
  obtain rfl : atOffset = ⟨data, offset⟩ := by
    unfold seek at hseek
    split at hseek
    · cases hseek; rfl
    · cases hseek
  obtain ⟨_, rfl, rfl⟩ := uint_eq_ok hcount
  obtain ⟨hle, rfl, -⟩ := take_eq_ok htake
  dsimp only at hle
  have hsize : (data.extract (offset + 4)
      (offset + 4 + (toWord (data.extract offset (offset + 4))).toNat)).size
      = (toWord (data.extract offset (offset + 4))).toNat := by
    rw [Array.size_extract]; omega
  exact ⟨by rw [hsize]; exact hle, hsize.symm, by rw [hsize]⟩

/-- Sections one behind the other, the first at `start`, with nothing but padding between them. -/
def Chain (data : Bytes) (start : Nat) : List Section → Prop
  | [] => True
  | s :: rest => s.offset.toNat = start ∧ start % 8 = 0 ∧ Stands data start s.payload
      ∧ Chain data (nextMultiple (start + 4 + s.payload.size) 8) rest

/-- One entry of the header and the section it points at. -/
theorem readSections_succ (h : ModuleFile.readSections data (count + 1) expected c = .ok sections c') :
    ∃ s rest mid, sections = s :: rest ∧ s.offset.toNat = expected ∧ expected % 8 = 0
      ∧ Stands data expected s.payload
      ∧ mid = { c with position := c.position + 8 } ∧ mid.position ≤ c.data.size
      ∧ ModuleFile.readSections data count (nextMultiple (expected + 4 + s.payload.size) 8) mid
        = .ok rest c' := by
  unfold ModuleFile.readSections at h
  obtain ⟨code, _, hcode, h⟩ := bind_eq_ok h
  obtain ⟨_, -, rfl⟩ := uint_eq_ok hcode
  obtain ⟨offset, _, hoffset, h⟩ := bind_eq_ok h
  obtain ⟨hle, -, rfl⟩ := uint_eq_ok hoffset
  dsimp only at h hle
  cases hkind : SectionKind.ofCode? code with
  | none => rw [hkind] at h; cases h
  | some kind =>
    rw [hkind] at h
    by_cases haligned : offset.toNat % 8 = 0
    case neg => simp only [ne_eq, haligned, not_false_eq_true, if_true] at h; cases h
    simp only [ne_eq, haligned, not_true_eq_false, if_false] at h
    by_cases hplace : offset.toNat = expected
    case neg => simp only [hplace, not_false_eq_true, if_true] at h; cases h
    simp only [hplace, not_true_eq_false, if_false] at h
    cases hpayload : lengthPrefixed data expected with
    | error e => rw [hpayload] at h; cases h
    | ok payload =>
      rw [hpayload] at h
      obtain ⟨_, _, hpayload', h⟩ := bind_eq_ok h
      cases hpayload'
      obtain ⟨rest, _, hrest, hpure⟩ := bind_eq_ok h
      cases hpure
      rw [hplace] at haligned
      exact ⟨⟨kind, offset, payload⟩, rest, _, rfl, hplace, haligned,
        stands_of_lengthPrefixed hpayload, rfl, hle, hrest⟩

theorem readSections_chain (hc : c.position ≤ c.data.size)
    (h : ModuleFile.readSections data count expected c = .ok sections c') :
    Chain data expected sections ∧ sections.length = count ∧ c.position + 8 * count ≤ c.data.size := by
  induction count generalizing expected c sections with
  | zero =>
    cases h
    exact ⟨trivial, rfl, hc⟩
  | succ count ih =>
    obtain ⟨s, rest, _, rfl, hplace, haligned, hstands, rfl, hmid, hrest⟩ := readSections_succ h
    obtain ⟨hchain, hlength, hle⟩ := ih hmid hrest
    refine ⟨⟨hplace, haligned, hstands, hchain⟩, by rw [length_cons, hlength], ?_⟩
    dsimp only at hle
    omega

/-- What a file that can be read consists of. -/
theorem parse_eq_ok (h : ModuleFile.parse data = .ok m) :
    ∃ header, Stands data 0 header ∧ Container.headerLength m.sections.length ≤ header.size
      ∧ Chain data (nextMultiple (4 + header.size) 8) m.sections
      ∧ ModuleFile.findPool m.sections = .ok m.pool := by
  unfold ModuleFile.parse at h
  cases hheader : lengthPrefixed data 0 with
  | error e => rw [hheader] at h; cases h
  | ok header =>
    rw [hheader] at h
    change (run (ModuleFile.readHeader data header) header >>= _) = _ at h
    cases hread : run (ModuleFile.readHeader data header) header with
    | error e => rw [hread] at h; cases h
    | ok sections =>
      rw [hread] at h
      change (ModuleFile.findPool sections >>= _) = _ at h
      cases hpool : ModuleFile.findPool sections with
      | error e => rw [hpool] at h; cases h
      | ok pool =>
        rw [hpool] at h
        cases h
        obtain ⟨c, hrun⟩ := run_eq_ok.mp hread
        obtain ⟨start, _, htake, hrest⟩ := bind_eq_ok hrun
        obtain ⟨_, -, rfl⟩ := take_eq_ok htake
        dsimp only at hrest
        split at hrest
        next => obtain ⟨_, _, hthrow, _⟩ := bind_eq_ok hrest; cases hthrow
        next =>
          obtain ⟨count, _, hcount, hsections⟩ := bind_eq_ok hrest
          obtain ⟨hle, -, rfl⟩ := uint_eq_ok hcount
          obtain ⟨hchain, hlength, hbound⟩ := readSections_chain hle hsections
          refine ⟨header, stands_of_lengthPrefixed hheader, ?_, hchain, hpool⟩
          dsimp only at hlength hbound ⊢
          rw [Container.headerLength, hlength]
          omega

section

variable (h : Chain data start sections)
include h

theorem Chain.forall : ∀ s ∈ sections,
      s.offset.toNat % 8 = 0 ∧ Stands data s.offset.toNat s.payload ∧ start ≤ s.offset.toNat := by
  induction sections generalizing start with
  | nil => intro s hs; cases hs
  | cons t rest ih =>
    obtain ⟨rfl, haligned, hstands, hrest⟩ := h
    intro s hs
    rcases mem_cons.mp hs with rfl | hs
    · exact ⟨haligned, hstands, le_rfl⟩
    · obtain ⟨h1, h2, h3⟩ := ih hrest s hs
      have := le_nextMultiple (t.offset.toNat + 4 + t.payload.size)
      exact ⟨h1, h2, by omega⟩

theorem Chain.pairwise :
    sections.Pairwise fun s t => s.offset.toNat + 4 + s.payload.size ≤ t.offset.toNat := by
  induction sections generalizing start with
  | nil => exact .nil
  | cons s rest ih =>
    obtain ⟨rfl, -, -, hrest⟩ := h
    refine .cons (fun t ht => ?_) (ih hrest)
    exact Nat.le_trans (le_nextMultiple _) (hrest.forall t ht).2.2

theorem Chain.offsetsFrom_le {first : Nat} (hfirst : first ≤ start) : ∀ (i offset : Nat) (s : Section),
      (Container.offsetsFrom first (sections.map (·.payload)))[i]? = some offset →
      sections[i]? = some s → offset ≤ s.offset.toNat := by
  induction sections generalizing start first with
  | nil => intro i offset s hoffset; cases hoffset
  | cons t rest ih =>
    obtain ⟨rfl, -, -, hrest⟩ := h
    intro i offset s hoffset hs
    cases i with
    | zero =>
      cases hoffset
      cases hs
      exact hfirst
    | succ i =>
      have hmono : nextMultiple (first + 4 + t.payload.size) 8
          ≤ nextMultiple (t.offset.toNat + 4 + t.payload.size) 8 := nextMultiple_mono (by omega)
      exact ih hrest hmono i offset s hoffset hs

end

namespace ModuleFile

variable {header : Bytes}

def contents (m : ModuleFile) : List (SectionKind × Bytes) :=
  m.sections.map fun s => (s.kind, s.payload)

theorem map_fst_contents (m : ModuleFile) : m.contents.map (·.1) = m.sections.map (·.kind) := by
  rw [contents, map_map]; rfl

theorem map_snd_contents (m : ModuleFile) : m.contents.map (·.2) = m.sections.map (·.payload) := by
  rw [contents, map_map]; rfl

/-- Making the file again moves no section up. -/
theorem offsets_le (hheader : Container.headerLength m.sections.length ≤ header.size)
    (hchain : Chain data (nextMultiple (4 + header.size) 8) m.sections) :
    ∀ (i offset : Nat) (s : Section), (Container.empty.addAll m.contents).offsets[i]? = some offset →
      m.sections[i]? = some s → offset ≤ s.offset.toNat := by
  rw [Container.offsets, Container.toList_addAll_empty, Container.size_addAll_empty, map_snd_contents]
  refine hchain.offsetsFrom_le (nextMultiple_mono ?_)
  rw [contents, length_map]
  omega

/-- The counts and offsets of a file that is made again fit in their words, as those that were read
did. -/
theorem fits_contents (hstands : Stands data 0 header)
    (hheader : Container.headerLength m.sections.length ≤ header.size)
    (hchain : Chain data (nextMultiple (4 + header.size) 8) m.sections) :
    (Container.empty.addAll m.contents).Fits := by
  have hle := offsets_le hheader hchain
  constructor
  · rw [Container.size_addAll_empty, contents, length_map]
    exact Nat.lt_of_le_of_lt hheader hstands.size_lt
  · intro e he
    rw [Container.toList_addAll_empty] at he
    obtain ⟨i, hi⟩ := mem_iff_getElem?.mp he
    obtain ⟨hpayload, hoffset⟩ := getElem?_zip_eq_some.mp hi
    obtain ⟨s, hs, heq⟩ := Option.map_eq_some_iff.mp (getElem?_map ▸ hpayload)
    constructor
    · exact Nat.lt_of_le_of_lt (hle i e.2 s hoffset hs) s.offset.toNat_lt
    · rw [← heq]
      exact (hchain.forall s (mem_of_getElem? hs)).2.1.size_lt

/-- **Files that can be read.** Whatever the bytes: the header and the sections lie inside the file, at
multiples of eight, in strictly increasing order and apart from one another, each payload is what
stands behind its count, and there is one string pool. A file made of the same kinds and payloads can
be read as these, at offsets that are not above the original ones. -/
theorem accepted_file_canonical (data : Bytes) (m : ModuleFile) (h : parse data = .ok m) :
    (∃ header, Stands data 0 header
      ∧ ∀ s ∈ m.sections, s.offset.toNat % 8 = 0 ∧ Stands data s.offset.toNat s.payload
        ∧ 4 + header.size ≤ s.offset.toNat)
    ∧ m.sections.Pairwise (fun s t =>
        s.offset < t.offset ∧ s.offset.toNat + 4 + s.payload.size ≤ t.offset.toNat)
    ∧ poolCount (m.sections.map (·.kind)) = 1
    ∧ ∃ m', parse (Container.empty.addAll m.contents).toBytes = .ok m'
      ∧ m'.contents = m.contents
      ∧ ∀ (i : Nat) (s s' : Section), m.sections[i]? = some s → m'.sections[i]? = some s' →
        s'.offset ≤ s.offset := by
  obtain ⟨header, hstands, hheader, hchain, hpool⟩ := parse_eq_ok h
  have hone := findPool_eq_ok hpool
  refine ⟨⟨header, hstands, fun s hs => ?_⟩, ?_, hone, ?_⟩
  · obtain ⟨haligned, hs, hstart⟩ := hchain.forall s hs
    exact ⟨haligned, hs, Nat.le_trans (le_nextMultiple _) hstart⟩
  · refine hchain.pairwise.imp fun {s t} hst => ⟨?_, hst⟩
    exact UInt32.lt_iff_toNat_lt.mpr (by omega)
  · obtain ⟨m', hparse, hsame, hoffsets⟩ :=
      Container.parse_toBytes_ok (fits_contents hstands hheader hchain)
        (by rwa [Container.toList_addAll_empty, map_fst_contents])
    rw [Container.toList_addAll_empty] at hsame
    refine ⟨m', hparse, hsame, fun i s s' hs hs' => ?_⟩
    have hoffset : (Container.empty.addAll m.contents).offsets[i]? = some s'.offset.toNat := by
      rw [← hoffsets, List.getElem?_map, hs']
      rfl
    exact UInt32.le_iff_toNat_le.mpr (offsets_le hheader hchain i _ s hoffset hs)

/-- A file whose header has eight bytes more than its two entries need. -/
def roomyFile : Bytes :=
  #[32, 0, 0, 0, 0x48, 0x59, 0x49, 0x52, 2, 0, 0, 0, 1, 0, 0, 0, 40, 0, 0, 0, 0, 0, 0, 0, 48, 0, 0, 0,
    9, 9, 9, 9, 9, 9, 9, 9, 7, 7, 7, 7, 0, 0, 0, 0, 7, 7, 7, 7, 2, 0, 0, 0, 5, 6]

theorem roomyFile_canonical :
    ∃ m m', parse roomyFile = .ok m ∧ m.sections.map (·.offset) = [40, 48]
      ∧ parse (Container.empty.addAll m.contents).toBytes = .ok m' ∧ m'.contents = m.contents
      ∧ ∀ (i : Nat) (s s' : Section), m.sections[i]? = some s → m'.sections[i]? = some s' →
        s'.offset ≤ s.offset := by
  have hparse : parse roomyFile
      = .ok ⟨[⟨.stringPool, 40, #[]⟩, ⟨.function, 48, #[5, 6]⟩], #[]⟩ := by rfl
  obtain ⟨-, -, -, m', hm', hsame, hle⟩ := accepted_file_canonical roomyFile _ hparse
  exact ⟨_, m', hparse, rfl, hm', hsame, hle⟩

end ModuleFile

end ScriptIr.Wire
