import ScriptIr.Text.Utf16

/-!
# UTF-16 loses nothing

A character is never a surrogate, so one that takes a single unit cannot be mistaken for half of a
pair, and the two units of a pair give back the number they were cut from.

* `decodeChars_encodeChar`: the units of a character, before any other units, read as that character.
* `decode_eq_none_iff`: what cannot be read has a surrogate without its partner.
-/
namespace ScriptIr.Text.Utf16

variable {us : List UInt16} {v : UInt16} {n : Nat}

theorem toNat_bounds (c : Char) : c.toNat < 0xD800 ∨ (0xE000 ≤ c.toNat ∧ c.toNat < 0x110000) := by
  rcases c.valid with h | h
  · exact .inl h
  · exact .inr ⟨by have := h.1; unfold Char.toNat; omega, h.2⟩

theorem isHigh_iff (u : UInt16) : isHigh u = true ↔ 0xD800 ≤ u.toNat ∧ u.toNat < 0xDC00 := by
  simp [isHigh, UInt16.le_iff_toNat_le, UInt16.lt_iff_toNat_lt]

theorem isLow_iff (u : UInt16) : isLow u = true ↔ 0xDC00 ≤ u.toNat ∧ u.toNat < 0xE000 := by
  simp [isLow, UInt16.le_iff_toNat_le, UInt16.lt_iff_toNat_lt]

theorem toNat_unit (h : n < 0x10000) : n.toUInt16.toNat = n := by
  simp [Nat.toUInt16, Nat.mod_eq_of_lt h]

theorem decodeChars_unit {u : UInt16} (hh : isHigh u = false) (hl : isLow u = false) (rest : List UInt16) :
    decodeChars (u :: rest) = (decodeChars rest).map (Char.ofNat u.toNat :: ·) := by
  rw [decodeChars.eq_def]; simp [hh, hl]

theorem decodeChars_pair {u : UInt16} (hh : isHigh u = true) (hl : isLow v = true) (rest : List UInt16) :
    decodeChars (u :: v :: rest) = (decodeChars rest).map (pair u v :: ·) := by
  rw [decodeChars.eq_def]; simp [hh, hl]

theorem decodeChars_encodeChar (c : Char) (rest : List UInt16) :
    decodeChars (encodeChar c ++ rest) = (decodeChars rest).map (c :: ·) := by
  have hb := toNat_bounds c
  unfold encodeChar
  split
  · rename_i h
    have hu := toNat_unit h
    have hh : isHigh c.toNat.toUInt16 = false := by
      rw [← Bool.not_eq_true, isHigh_iff, hu]; omega
    have hl : isLow c.toNat.toUInt16 = false := by
      rw [← Bool.not_eq_true, isLow_iff, hu]; omega
    rw [List.singleton_append, decodeChars_unit hh hl, hu, Char.ofNat_toNat]
  · have h1 : (0xD800 + (c.toNat - 0x10000) / 0x400).toUInt16.toNat
        = 0xD800 + (c.toNat - 0x10000) / 0x400 := toNat_unit (by omega)
    have h2 : (0xDC00 + (c.toNat - 0x10000) % 0x400).toUInt16.toNat
        = 0xDC00 + (c.toNat - 0x10000) % 0x400 := toNat_unit (by omega)
    have hp : pair (0xD800 + (c.toNat - 0x10000) / 0x400).toUInt16
        (0xDC00 + (c.toNat - 0x10000) % 0x400).toUInt16 = c := by
      unfold pair
      rw [h1, h2]
      have : 0x10000 + (0xD800 + (c.toNat - 0x10000) / 0x400 - 0xD800) * 0x400
          + (0xDC00 + (c.toNat - 0x10000) % 0x400 - 0xDC00) = c.toNat := by omega
      rw [this, Char.ofNat_toNat]
    have hh : isHigh (0xD800 + (c.toNat - 0x10000) / 0x400).toUInt16 = true := by
      rw [isHigh_iff, h1]; omega
    have hl : isLow (0xDC00 + (c.toNat - 0x10000) % 0x400).toUInt16 = true := by
      rw [isLow_iff, h2]; omega
    simp only [List.cons_append, List.nil_append]
    rw [decodeChars_pair hh hl, hp]

theorem decodeChars_flatMap (cs : List Char) : decodeChars (cs.flatMap encodeChar) = some cs := by
  induction cs with
  | nil => rfl
  | cons c cs ih => rw [List.flatMap_cons, decodeChars_encodeChar, ih]; rfl

/-- **No text is lost.** -/
theorem decode_encode (s : String) : decode (encode s) = some s := by
  unfold decode encode
  rw [decodeChars_flatMap, Option.map_some, String.ofList_toList]

/-! ## What can be read -/

/-- Units in which every surrogate belongs to a pair. -/
inductive WellFormed : List UInt16 → Prop where
  | nil : WellFormed []
  | unit {u us} : isHigh u = false → isLow u = false → WellFormed us → WellFormed (u :: us)
  | pair {u v us} : isHigh u = true → isLow v = true → WellFormed us → WellFormed (u :: v :: us)

theorem toNat_ofNat (h : n < 0xD800 ∨ 0xDFFF < n ∧ n < 0x110000) : (Char.ofNat n).toNat = n := by
  rw [Char.ofNat, dif_pos h]
  rfl

theorem encodeChar_unit {u : UInt16} (hh : isHigh u = false) (hl : isLow u = false) :
    encodeChar (Char.ofNat u.toNat) = [u] := by
  have hu := u.toNat_lt
  have h1 := mt (isHigh_iff u).mpr (Bool.eq_false_iff.mp hh)
  have h2 := mt (isLow_iff u).mpr (Bool.eq_false_iff.mp hl)
  unfold encodeChar
  rw [toNat_ofNat (by omega), if_pos hu]
  exact congrArg (fun v => [v]) (UInt16.toNat_inj.mp (toNat_unit hu))

theorem encodeChar_pair {u : UInt16} (hh : isHigh u = true) (hl : isLow v = true) :
    encodeChar (pair u v) = [u, v] := by
  have h1 := (isHigh_iff u).mp hh
  have h2 := (isLow_iff v).mp hl
  unfold encodeChar pair
  rw [toNat_ofNat (by omega), if_neg (by omega)]
  simp only [List.cons.injEq, and_true]
  refine ⟨UInt16.toNat_inj.mp ?_, UInt16.toNat_inj.mp ?_⟩
  · rw [toNat_unit (by omega)]; omega
  · rw [toNat_unit (by omega)]; omega

theorem wellFormed_of_decodeChars {cs : List Char} (h : decodeChars us = some cs) :
    WellFormed us ∧ cs.flatMap encodeChar = us := by
  fun_induction decodeChars us generalizing cs with
  | case1 => cases h; exact ⟨.nil, rfl⟩
  | case2 => cases h
  | case3 u hh v rest hl ih =>
    obtain ⟨ds, hds, rfl⟩ := Option.map_eq_some_iff.mp h
    obtain ⟨hform, hunits⟩ := ih hds
    exact ⟨.pair hh hl hform, by rw [List.flatMap_cons, encodeChar_pair hh hl, hunits]; rfl⟩
  | case4 => cases h
  | case5 => cases h
  | case6 u rest hh hl ih =>
    obtain ⟨ds, hds, rfl⟩ := Option.map_eq_some_iff.mp h
    obtain ⟨hform, hunits⟩ := ih hds
    have hh := Bool.not_eq_true _ ▸ hh
    have hl := Bool.not_eq_true _ ▸ hl
    exact ⟨.unit hh hl hform, by rw [List.flatMap_cons, encodeChar_unit hh hl, hunits]; rfl⟩

/-- The units of a text that was read are those it was read from. -/
theorem encode_of_decode {s : String} (h : decode us = some s) : encode s = us := by
  obtain ⟨cs, hcs, rfl⟩ := Option.map_eq_some_iff.mp h
  rw [encode, String.toList_ofList]
  exact (wellFormed_of_decodeChars hcs).2

theorem decode_eq_none_iff : decode us = none ↔ ¬WellFormed us := by
  constructor
  · intro hnone hform
    have hsome : ∃ cs, decodeChars us = some cs := by
      clear hnone
      induction hform with
      | nil => exact ⟨[], rfl⟩
      | unit hh hl _ ih => obtain ⟨cs, hcs⟩ := ih; exact ⟨_, by rw [decodeChars_unit hh hl, hcs]; rfl⟩
      | pair hh hl _ ih => obtain ⟨cs, hcs⟩ := ih; exact ⟨_, by rw [decodeChars_pair hh hl, hcs]; rfl⟩
    obtain ⟨cs, hcs⟩ := hsome
    rw [decode, hcs] at hnone
    cases hnone
  · intro hform
    cases h : decode us with
    | none => rfl
    | some s =>
      obtain ⟨cs, hcs, -⟩ := Option.map_eq_some_iff.mp h
      exact absurd (wellFormed_of_decodeChars hcs).1 hform

end ScriptIr.Text.Utf16
