import Mathlib.Data.List.Forall2
import ScriptIr.Proofs.Wire.Layout
import ScriptIr.Proofs.Wire.Writing
import ScriptIr.Wire.StringPool

/-!
# The string pool

A pool is a run of texts, each at a multiple of four. `Entries` says which bytes are such a run.

- `ModuleFile.scanned_pool_consists_of_texts`: what that means for a file that can be read.
- `StringPool.Stores.intern` and `Stores.internAll`: what storing a text, and many, leaves in the pool.
- `StringPool.stored_texts_read_back`: stored texts are found again, by offset and by the scan.
-/
namespace ScriptIr.Wire

open List Read

variable {data : Bytes} {p fuel : Nat} {entries : List (Nat × String)} {bytes : List UInt8}

/-- What stands behind position `p` of a pool: texts with their offsets, each behind the padding that
brings it to a multiple of four. The padding behind the last text is complete or missing. -/
inductive Entries : Nat → List (Nat × String) → List UInt8 → Prop where
  | done {p : Nat} : Entries p [] []
  | padded {p : Nat} {pad : List UInt8} : p + pad.length = nextMultiple p 4 → Entries p [] pad
  | entry {p : Nat} {pad bytes : List UInt8} {s : String} {rest : List (Nat × String)} :
      p + pad.length = nextMultiple p 4 → Entries (nextMultiple p 4 + (textForm s).length) rest bytes →
      Entries p ((nextMultiple p 4, s) :: rest) (pad ++ (textForm s ++ bytes))

theorem four_le_textForm (s : String) : 4 ≤ (textForm s).length := by
  rw [length_textForm]; omega

theorem nextMultiple_four (p : Nat) :
    p ≤ nextMultiple p 4 ∧ nextMultiple p 4 < p + 4 ∧ nextMultiple p 4 % 4 = 0 := by
  unfold nextMultiple; omega

/-- The texts lie behind the position, at multiples of four. -/
theorem Entries.mem (h : Entries p entries bytes) : ∀ e ∈ entries, e.1 % 4 = 0 ∧ p ≤ e.1
    ∧ ∃ before after, bytes = before ++ (textForm e.2 ++ after) ∧ p + before.length = e.1 := by
  induction h with
  | done => intro e he; cases he
  | padded => intro e he; cases he
  | @entry p pad bytes s rest hpad _ ih =>
    have hnext := nextMultiple_four p
    intro e he
    rcases mem_cons.mp he with rfl | he
    · exact ⟨hnext.2.2, hnext.1, pad, bytes, rfl, hpad⟩
    · obtain ⟨hmod, hle, before, after, rfl, hbefore⟩ := ih e he
      refine ⟨hmod, by omega, pad ++ (textForm s ++ before), after, by simp, ?_⟩
      simp only [length_append]
      omega

theorem Entries.pairwise (h : Entries p entries bytes) :
    entries.Pairwise fun a b => a.1 < b.1 ∧ a.1 + (textForm a.2).length ≤ b.1 := by
  induction h with
  | done => exact .nil
  | padded => exact .nil
  | entry _ hrest ih =>
    refine .cons (fun e he => ?_) ih
    have hle := (hrest.mem e he).2.1
    have := four_le_textForm
    exact ⟨by grind, hle⟩

theorem Entries.head (h : Entries 0 entries bytes) (e : Nat × String) (he : entries.head? = some e) :
    e.1 = 0 := by
  cases h with
  | entry => cases he; rfl
  | _ => cases he

theorem Entries.holds (h : Entries 0 entries data.toList) :
    ∀ e ∈ entries, Holds data e.1 (textForm e.2) := by
  intro e he
  obtain ⟨-, -, before, after, hdata, hlen⟩ := h.mem e he
  exact ⟨before, after, by rw [hdata, append_assoc], by rw [← hlen, Nat.zero_add]⟩

namespace ModuleFile

theorem readTexts_succ (data : Bytes) (p fuel : Nat) : readTexts (fuel + 1) ⟨data, p⟩ =
      if data.size ≤ p then .ok [] ⟨data, p⟩
      else if data.size < nextMultiple p 4 then .error (.pastEnd (nextMultiple p 4)) ⟨data, p⟩
      else if data.size = nextMultiple p 4 then .ok [] ⟨data, nextMultiple p 4⟩
      else (do
        let s ← text
        let rest ← readTexts fuel
        return (nextMultiple p 4, s) :: rest : Read _) ⟨data, nextMultiple p 4⟩ := by
  have hrest : ∀ q, (Cursor.mk data q).remaining = 0 ↔ data.size ≤ q := fun q => Nat.sub_eq_zero_iff_le
  have hget : ∀ q, (get : Read Cursor) ⟨data, q⟩ = .ok ⟨data, q⟩ ⟨data, q⟩ := fun _ => rfl
  rw [readTexts, bind_of_ok (hget p)]
  by_cases hp : data.size ≤ p
  · rw [if_pos hp, if_pos ((hrest p).mpr hp)]; rfl
  rw [if_neg hp, if_neg (mt (hrest p).mp hp)]
  by_cases hseek : data.size < nextMultiple p 4
  · rw [if_pos hseek]
    exact bind_of_error (if_neg (Nat.not_le.mpr hseek))
  rw [if_neg hseek]
  refine (bind_of_ok (if_pos (Nat.not_lt.mp hseek))).trans ?_
  rw [bind_of_ok (hget _)]
  by_cases hend : data.size = nextMultiple p 4
  · rw [if_pos hend, if_pos ((hrest _).mpr (Nat.le_of_eq hend))]; rfl
  · rw [if_neg hend, if_neg (mt (hrest _).mp (by show ¬data.size ≤ nextMultiple p 4; omega))]

/-- The scan finds exactly the texts that stand behind the cursor. -/
theorem readTexts_eq_ok (hsize : data.size < 2 ^ 32) (hp : p ≤ data.size) (hfuel : data.size - p < fuel) :
    (∃ c, readTexts fuel ⟨data, p⟩ = .ok entries c) ↔ Entries p entries (data.toList.drop p) := by
  induction fuel generalizing p entries with
  | zero => omega
  | succ fuel ih =>
    have hnext := nextMultiple_four p
    have hlen : (data.toList.drop p).length = data.size - p := by simp
    have hdrop : data.toList.drop p
        = (data.toList.drop p).take (nextMultiple p 4 - p) ++ data.toList.drop (nextMultiple p 4) := by
      have := (take_append_drop (nextMultiple p 4 - p) (data.toList.drop p)).symm
      rwa [drop_drop, Nat.add_sub_cancel' hnext.1] at this
    rw [readTexts_succ]
    constructor
    · rintro ⟨c, h⟩
      by_cases h1 : data.size ≤ p
      · rw [if_pos h1] at h
        cases h
        rw [drop_of_length_le (by simpa using h1)]
        exact .done
      rw [if_neg h1] at h
      by_cases h2 : data.size < nextMultiple p 4
      · rw [if_pos h2] at h; cases h
      rw [if_neg h2] at h
      by_cases h3 : data.size = nextMultiple p 4
      · rw [if_pos h3] at h
        cases h
        exact .padded (by omega)
      rw [if_neg h3] at h
      obtain ⟨s, c1, htext, h⟩ := bind_eq_ok h
      obtain ⟨rest, c2, hrest, hpure⟩ := bind_eq_ok h
      obtain ⟨-, hholds, rfl⟩ := text_eq_ok.mp htext
      cases hpure
      have hform := four_le_textForm s
      have hentries := (ih hholds.bound (by omega)).mp ⟨_, hrest⟩
      obtain ⟨pre, post, hdata, hpre⟩ := hholds
      have hpost : data.toList.drop (nextMultiple p 4) = textForm s ++ post := by
        rw [hdata, ← hpre, append_assoc, drop_left]
      rw [hdrop, hpost]
      refine .entry (by simp; omega) ?_
      rwa [← drop_drop, hpost, drop_left] at hentries
    · intro h
      generalize hbytes : data.toList.drop p = bytes at h hdrop hlen
      cases h with
      | done => exact ⟨_, if_pos (by simp at hlen; omega)⟩
      | padded hpad =>
        by_cases h1 : data.size ≤ p
        · exact ⟨_, if_pos h1⟩
        · rw [if_neg h1, if_neg (by omega), if_pos (by omega)]
          exact ⟨_, rfl⟩
      | @entry _ pad bytes s rest hpad hrest =>
        have hform := four_le_textForm s
        simp only [length_append] at hlen
        have hsplit : data.toList = (data.toList.take p ++ pad) ++ textForm s ++ bytes := by
          rw [append_assoc, append_assoc, ← hbytes, take_append_drop]
        have hholds : Holds data (nextMultiple p 4) (textForm s) :=
          ⟨_, bytes, hsplit, by rw [length_append, length_take, Array.length_toList]; omega⟩
        have hbound := hholds.bound
        rw [length_textForm] at hbound
        rw [if_neg (by omega), if_neg (by omega), if_neg (by omega)]
        rw [bind_of_ok (text_eq_ok.mpr ⟨by omega, hholds, rfl⟩)]
        have hbytes' : data.toList.drop (nextMultiple p 4 + (textForm s).length) = bytes := by
          rw [hsplit, ← hpad, drop_left']
          rw [length_append, length_append, length_take, Array.length_toList]
          omega
        obtain ⟨c, hc⟩ := (ih hholds.bound (by omega)).mpr (hbytes' ▸ hrest)
        rw [bind_of_ok hc]
        exact ⟨c, rfl⟩

/-- The scan comes to an end by itself: more rounds than bytes change nothing. -/
theorem readTexts_stable (hfuel : data.size - p < fuel) :
    readTexts (fuel + 1) ⟨data, p⟩ = readTexts fuel ⟨data, p⟩ := by
  induction fuel generalizing p with
  | zero => omega
  | succ fuel ih =>
    have hnext := nextMultiple_four p
    rw [readTexts_succ, readTexts_succ]
    by_cases h1 : data.size ≤ p
    · rw [if_pos h1, if_pos h1]
    congr 3
    cases htext : text ⟨data, nextMultiple p 4⟩ with
    | error e c => rw [bind_of_error htext, bind_of_error htext]
    | ok s c =>
      obtain ⟨-, -, rfl⟩ := text_eq_ok.mp htext
      have hform := four_le_textForm s
      rw [bind_of_ok htext, bind_of_ok htext]
      show EStateM.bind (readTexts (fuel + 1)) _ _ = EStateM.bind (readTexts fuel) _ _
      unfold EStateM.bind
      rw [ih (by omega)]

theorem textAt_of_holds {file : ModuleFile} {offset : Nat} {s : String}
    (h : Holds file.pool offset (textForm s)) (hsize : file.pool.size < 2 ^ 32) :
    file.textAt offset.toUInt32 = .ok s := by
  have hbound := h.bound
  rw [length_textForm] at hbound
  unfold textAt
  rw [toNat_toUInt32 (by omega)]
  exact (yields_text s (by omega)).run_at h

theorem pool_size_lt {m : ModuleFile} (h : parse data = .ok m) : m.pool.size < 2 ^ 32 := by
  obtain ⟨header, -, -, hchain, hpool⟩ := parse_eq_ok h
  unfold findPool at hpool
  split at hpool
  next s hs =>
    have hmem : s ∈ m.sections := (mem_filter.mp (hs ▸ mem_singleton_self s)).1
    rw [← Except.ok.inj hpool]
    exact (hchain.forall s hmem).2.1.size_lt
  next => cases hpool
  next => cases hpool

theorem texts_eq_ok {m : ModuleFile} (hsize : m.pool.size < 2 ^ 32) :
    m.texts = .ok entries ↔ Entries 0 entries m.pool.toList := by
  exact run_eq_ok.trans (readTexts_eq_ok hsize (Nat.zero_le _) (Nat.lt_succ_self _))

/-- **Scanning a pool.** Whatever the payload of the pool of a file that can be read: the scan comes to an
end by itself. What it finds are the texts of which the payload consists, at increasing multiples
of four from zero on, apart from one another, and each is found at its offset. If it fails, the
payload does not consist of texts. -/
theorem scanned_pool_consists_of_texts (data : Bytes) (m : ModuleFile) (h : parse data = .ok m) :
    (∀ fuel, m.pool.size < fuel → Read.run (readTexts fuel) m.pool = m.texts)
    ∧ (∀ entries, m.texts = .ok entries → Entries 0 entries m.pool.toList
      ∧ (∀ e, entries.head? = some e → e.1 = 0)
      ∧ entries.Pairwise (fun a b => a.1 < b.1 ∧ a.1 + (textForm a.2).length ≤ b.1)
      ∧ ∀ e ∈ entries, e.1 % 4 = 0 ∧ e.1 < 2 ^ 32 ∧ e.1 + (textForm e.2).length ≤ m.pool.size
        ∧ Holds m.pool e.1 (textForm e.2) ∧ m.textAt e.1.toUInt32 = .ok e.2)
    ∧ ∀ fault, m.texts = .error fault → ¬∃ entries, Entries 0 entries m.pool.toList := by
  have hsize := pool_size_lt h
  refine ⟨fun fuel hfuel => ?_, fun entries hok => ?_, ?_⟩
  · obtain ⟨k, rfl⟩ := Nat.exists_eq_add_of_lt hfuel
    have hsame : readTexts (m.pool.size + k + 1) ⟨m.pool, 0⟩ = readTexts (m.pool.size + 1) ⟨m.pool, 0⟩ := by
      induction k with
      | zero => rfl
      | succ k ih => rw [← ih (by omega)]; exact readTexts_stable (by omega)
    unfold texts Read.run EStateM.run Cursor.start
    rw [hsame]
  · have hentries := (texts_eq_ok hsize).mp hok
    refine ⟨hentries, fun e he => ?_, hentries.pairwise, fun e he => ?_⟩
    · exact hentries.head e he
    · have hholds := hentries.holds e he
      have hbound := hholds.bound
      have := four_le_textForm e.2
      exact ⟨(hentries.mem e he).1, by omega, hbound, hholds, textAt_of_holds hholds hsize⟩
  · rintro fault herror ⟨entries, hentries⟩
    rw [(texts_eq_ok hsize).mpr hentries] at herror
    cases herror

/-- A file with a pool of two texts, the first one followed by padding that is not zero. -/
def paddedFile : Bytes :=
  #[16, 0, 0, 0, 0x48, 0x59, 0x49, 0x52, 1, 0, 0, 0, 1, 0, 0, 0, 24, 0, 0, 0, 0, 0, 0, 0,
    12, 0, 0, 0, 1, 0, 0, 0, 97, 0, 9, 9, 0, 0, 0, 0]

theorem paddedFile_consists_of_texts :
    ∃ m, parse paddedFile = .ok m ∧ m.texts = .ok [(0, "a"), (8, "")] ∧ m.textAt 8 = .ok "" := by
  have hparse : parse paddedFile = .ok ⟨[⟨.stringPool, 24, paddedFile.extract 28 40⟩],
    paddedFile.extract 28 40⟩ := by rfl
  have htexts : texts ⟨[⟨.stringPool, 24, paddedFile.extract 28 40⟩], paddedFile.extract 28 40⟩
      = .ok [(0, "a"), (8, "")] := by rfl
  obtain ⟨-, hfound, -⟩ := scanned_pool_consists_of_texts paddedFile _ hparse
  exact ⟨_, hparse, htexts, ((hfound _ htexts).2.2.2 (8, "") (by simp)).2.2.2.2⟩

end ModuleFile

/-! ## Storing texts -/

theorem Entries.snoc {pad : List UInt8} (h : Entries p entries bytes) (s : String)
    (hpad : p + bytes.length + pad.length = nextMultiple (p + bytes.length) 4) :
    Entries p (entries ++ [(nextMultiple (p + bytes.length) 4, s)]) (bytes ++ (pad ++ textForm s)) := by
  induction h with
  | done =>
    rw [← append_nil (textForm s)]
    exact .entry hpad .done
  | @padded p pad' hpad' =>
    have hnext : nextMultiple (p + pad'.length) 4 = nextMultiple p 4 := by
      rw [hpad']; unfold nextMultiple; omega
    obtain rfl : pad = [] := eq_nil_of_length_eq_zero (by omega)
    rw [hnext, nil_append, ← append_nil (textForm s)]
    exact .entry hpad' .done
  | @entry p pad' bytes t rest hpad' _ ih =>
    have hlen : p + (pad' ++ (textForm t ++ bytes)).length
        = nextMultiple p 4 + (textForm t).length + bytes.length := by
      simp only [length_append]; omega
    rw [hlen] at hpad ⊢
    simp only [append_assoc, cons_append]
    exact .entry hpad' (ih hpad)

namespace StringPool

variable {p : StringPool} {s t : String} {strings more : List String} {offsets : List Nat}

theorem intern_of_stored {offset : Nat} (h : p.offset? s = some offset) : p.intern s = (offset, p) := by
  unfold StringPool.intern; rw [h]

theorem intern_of_new (h : p.offset? s = none) : p.intern s = ((p.writer.text s).1,
    ⟨(p.writer.text s).2, p.entries.push (s, (p.writer.text s).1)⟩) := by
  unfold StringPool.intern; rw [h]

theorem prefix_intern (p : StringPool) (s : String) : p.bytes.toList <+: (p.intern s).2.bytes.toList := by
  cases h : p.offset? s with
  | some offset => exact ⟨[], by rw [intern_of_stored h, append_nil]⟩
  | none =>
    rw [intern_of_new h]
    exact ⟨_, (p.writer.toList_text s).1.symm⟩

theorem offset_mem {offset : Nat} (h : p.offset? s = some offset) : (s, offset) ∈ p.entries := by
  unfold offset? at h
  obtain ⟨e, he, rfl⟩ := Option.map_eq_some_iff.mp h
  have hs : e.1 = s := by simpa using Array.find?_some he
  rw [← hs]
  exact Array.mem_of_find?_eq_some he

/-- Every stored text stands at its offset. -/
def Sound (p : StringPool) : Prop := ∀ e ∈ p.entries, Holds p.bytes e.2 (textForm e.1)

theorem sound_empty : Sound empty := by
  intro e he
  simp [empty] at he

theorem intern_holds (p : StringPool) (s : String) (h : p.Sound) :
    (p.intern s).2.Sound ∧ p.bytes.toList <+: (p.intern s).2.bytes.toList
      ∧ Holds (p.intern s).2.bytes (p.intern s).1 (textForm s) := by
  have hgrows := p.prefix_intern s
  cases hoff : p.offset? s with
  | some offset =>
    rw [intern_of_stored hoff]
    exact ⟨h, prefix_refl _, h (s, offset) (offset_mem hoff)⟩
  | none =>
    rw [intern_of_new hoff] at hgrows ⊢
    obtain ⟨hbytes, hoffset⟩ := p.writer.toList_text s
    have hle : p.writer.size ≤ nextMultiple p.writer.size 4 := le_nextMultiple_of_pos (by decide) _
    have hnew : Holds (p.writer.text s).2.bytes (p.writer.text s).1 (textForm s) := by
      refine ⟨_, [], by rw [hbytes, ← append_assoc, append_nil], ?_⟩
      rw [hoffset]
      simp [Writer.size] at hle ⊢; omega
    refine ⟨fun entry hentry => ?_, hgrows, hnew⟩
    rcases Array.mem_push.mp hentry with hold | rfl
    · exact (h entry hold).mono hgrows
    · exact hnew

theorem offset?_eq_none (h : p.entries.toList.map (·.1) = strings.eraseDups) :
    p.offset? s = none ↔ s ∉ strings := by
  rw [← mem_eraseDups, ← h]
  simp only [offset?, Option.map_eq_none_iff, Array.find?_eq_none, beq_iff_eq, mem_map,
    Array.mem_toList_iff, not_exists, not_and]

/-! ## Histories -/

/-- Stores texts one after the other, and answers their offsets. -/
def internAll (p : StringPool) : List String → List Nat × StringPool
  | [] => ([], p)
  | s :: rest =>
    let (offset, p) := p.intern s
    let (offsets, p) := p.internAll rest
    (offset :: offsets, p)

/-- What a pool holds after texts have been stored in it and offsets have been answered. -/
structure Stores (p : StringPool) (strings : List String) (offsets : List Nat) : Prop where
  entries : Entries 0 (p.entries.toList.map Prod.swap) p.bytes.toList
  texts : p.entries.toList.map (·.1) = strings.eraseDups
  answered : Forall₂ (fun s offset => p.offset? s = some offset) strings offsets
  origin : ∀ e ∈ p.entries, e ∈ strings.zip offsets

theorem stores_empty : empty.Stores [] [] := ⟨.done, rfl, .nil, fun e he => by simp [empty] at he⟩

theorem Stores.intern (h : p.Stores strings offsets) (s : String) :
    (p.intern s).2.Stores (strings ++ [s]) (offsets ++ [(p.intern s).1]) := by
  have hdups : (strings ++ [s]).eraseDups = strings.eraseDups ++ if s ∈ strings then [] else [s] := by
    rw [eraseDups_append]
    split <;> simp_all [removeAll, eraseDups_cons]
  have hzip (offset : Nat) : (strings ++ [s]).zip (offsets ++ [offset])
      = strings.zip offsets ++ [(s, offset)] := zip_append h.answered.length_eq
  cases hoff : p.offset? s with
  | some offset =>
    have hmem : s ∈ strings := by
      by_contra hnot
      rw [(offset?_eq_none h.texts).mpr hnot] at hoff
      cases hoff
    rw [intern_of_stored hoff]
    refine ⟨h.entries, by rw [hdups, if_pos hmem, append_nil, h.texts], ?_, fun e he => ?_⟩
    · exact rel_append h.answered (.cons hoff .nil)
    · rw [hzip]
      exact mem_append_left _ (h.origin e he)
  | none =>
    have hnot := (offset?_eq_none h.texts).mp hoff
    obtain ⟨hbytes, hoffset⟩ := p.writer.toList_text s
    rw [intern_of_new hoff]
    refine ⟨?_, ?_, rel_append (h.answered.imp fun t offset ht => ?_) (.cons ?_ .nil), fun e he => ?_⟩
    · have hle : p.writer.size ≤ nextMultiple p.writer.size 4 := le_nextMultiple_of_pos (by decide) _
      have hpad : 0 + p.bytes.toList.length
          + (replicate (nextMultiple p.writer.size 4 - p.writer.size) (0 : UInt8)).length
          = nextMultiple (0 + p.bytes.toList.length) 4 := by
        simp [StringPool.bytes, Writer.size] at hle ⊢; omega
      simpa [hbytes, hoffset, StringPool.bytes, Writer.size] using h.entries.snoc s hpad
    · rw [hdups, if_neg hnot, ← h.texts]
      simp
    · obtain ⟨e, he, rfl⟩ := Option.map_eq_some_iff.mp ht
      rw [offset?, Array.find?_push, he]
      rfl
    · rw [offset?, Array.find?_push, Option.map_eq_none_iff.mp hoff]
      simp
    · rw [hzip]
      rcases Array.mem_push.mp he with hold | rfl
      · exact mem_append_left _ (h.origin e hold)
      · exact mem_append_right _ mem_cons_self

theorem Stores.internAll (h : p.Stores strings offsets) (more : List String) :
    (p.internAll more).2.Stores (strings ++ more) (offsets ++ (p.internAll more).1) := by
  induction more generalizing p strings offsets with
  | nil => simpa [StringPool.internAll] using h
  | cons s more ih => simpa [StringPool.internAll] using ih (h.intern s)

theorem prefix_internAll (p : StringPool) (strings : List String) :
    p.bytes.toList <+: (p.internAll strings).2.bytes.toList := by
  induction strings generalizing p with
  | nil => exact prefix_refl _
  | cons s strings ih => exact (p.prefix_intern s).trans (ih _)

theorem internAll_append (p : StringPool) (strings more : List String) :
    p.internAll (strings ++ more) = ((p.internAll strings).1 ++ ((p.internAll strings).2.internAll more).1,
      ((p.internAll strings).2.internAll more).2) := by
  induction strings generalizing p with
  | nil => rfl
  | cons s strings ih => simp [internAll, ih]

theorem Stores.readBack {m : ModuleFile} (h : p.Stores strings offsets) (hm : m.pool = p.bytes)
    (hsize : m.pool.size < 2 ^ 32) : Forall₂ (fun s offset =>
      offset % 4 = 0 ∧ offset < 2 ^ 32 ∧ m.textAt offset.toUInt32 = .ok s) strings offsets := by
  refine h.answered.imp fun s offset hs => ?_
  have hmem : (offset, s) ∈ p.entries.toList.map Prod.swap :=
    mem_map.mpr ⟨_, Array.mem_toList_iff.mpr (offset_mem hs), rfl⟩
  have hholds := hm ▸ h.entries.holds _ hmem
  have hbound := hholds.bound
  exact ⟨(h.entries.mem _ hmem).1, by omega, ModuleFile.textAt_of_holds hholds hsize⟩

/-- **Stored texts.** Whatever texts are stored in a new pool, up to 2^32 bytes: equal texts and only
those have equal offsets; each offset is a multiple of four at which the text is found in the end and
in every pool on the way; and a scan finds the distinct texts in the order of their first use. -/
theorem stored_texts_read_back (strings : List String) (m : ModuleFile)
    (hm : m.pool = (empty.internAll strings).2.bytes) (hsize : m.pool.size < 2 ^ 32) :
    let offsets := (empty.internAll strings).1
    (∀ a ∈ strings.zip offsets, ∀ b ∈ strings.zip offsets, a.2 = b.2 ↔ a.1 = b.1)
    ∧ List.Forall₂ (fun s offset =>
        offset % 4 = 0 ∧ offset < 2 ^ 32 ∧ m.textAt offset.toUInt32 = .ok s) strings offsets
    ∧ (∀ before after, strings = before ++ after → (empty.internAll before).1 <+: offsets
      ∧ ∀ m' : ModuleFile, m'.pool = (empty.internAll before).2.bytes →
        List.Forall₂ (fun s offset => m'.textAt offset.toUInt32 = .ok s) before
          (empty.internAll before).1)
    ∧ ∃ entries, m.texts = .ok entries ∧ entries.map (·.2) = strings.eraseDups
      ∧ ∀ e ∈ entries, (e.2, e.1) ∈ strings.zip offsets := by
  intro offsets
  have h : (empty.internAll strings).2.Stores strings offsets := stores_empty.internAll strings
  have hread := h.readBack hm hsize
  refine ⟨fun a ha b hb => ⟨fun he => ?_, fun he => ?_⟩, hread, ?_, ?_⟩
  · have hta := ((List.forall₂_iff_zip.mp hread).2 ha).2.2
    rw [he, ((List.forall₂_iff_zip.mp hread).2 hb).2.2] at hta
    exact (Except.ok.inj hta).symm
  · have hoff := (List.forall₂_iff_zip.mp h.answered).2 ha
    rw [he, (List.forall₂_iff_zip.mp h.answered).2 hb] at hoff
    exact (Option.some.inj hoff).symm
  · rintro before after rfl
    have hgrows := prefix_internAll (empty.internAll before).2 after
    rw [internAll_append] at hm
    refine ⟨⟨_, (congrArg Prod.fst (internAll_append empty before after)).symm⟩, fun m' hm' => ?_⟩
    have hle : m'.pool.size ≤ m.pool.size := by
      rw [hm, hm', ← Array.length_toList, ← Array.length_toList]
      exact hgrows.length_le
    exact ((stores_empty.internAll before).readBack hm' (by omega)).imp fun _ _ hs => hs.2.2
  · refine ⟨_, (ModuleFile.texts_eq_ok hsize).mpr (hm ▸ h.entries), ?_, fun e he => ?_⟩
    · rw [List.map_map, ← h.texts]
      rfl
    · obtain ⟨e', he', rfl⟩ := List.mem_map.mp he
      exact h.origin e' (Array.mem_toList_iff.mp he')

theorem repeated_texts_read_back :
    ∃ m : ModuleFile, m.pool = (empty.internAll ["a", "", "a", "😀"]).2.bytes
      ∧ (empty.internAll ["a", "", "a", "😀"]).1 = [0, 8, 0, 12]
      ∧ ∃ entries, m.texts = .ok entries ∧ entries.map (·.2) = ["a", "", "😀"] := by
  have h := stored_texts_read_back ["a", "", "a", "😀"]
    ⟨[], (empty.internAll ["a", "", "a", "😀"]).2.bytes⟩ rfl (by decide +kernel)
  obtain ⟨entries, hok, htexts, -⟩ := h.2.2.2
  exact ⟨_, rfl, by decide +kernel, entries, hok, htexts.trans (by decide +kernel)⟩

end StringPool

end ScriptIr.Wire
