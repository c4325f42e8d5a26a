import ScriptIr.Proofs.Wire.Reading

/-!
# Reads and the byte strings they accept

A read is judged by all the bytes it accepts, not only by those that were written for it:
`Parses act form` says that `act` answers `a` exactly where bytes of the form `form a` stand, and stops
behind them.

* `Parses`: a read and the byte strings it accepts, closed under sequencing (`Parses.bind`) and
  repetition (`parses_times`).
* `parses_uint`, `parses_number`: every four bytes are a word, every eight bytes a number.
-/
namespace ScriptIr.Wire

open List

variable {bytes : List UInt8} {data : Bytes} {p : Nat} {form : α → List UInt8 → Prop}

/-! ## Every byte string is a byte form -/

theorem word_wordOf (b0 b1 b2 b3 : UInt8) : word (wordOf b0 b1 b2 b3) = [b0, b1, b2, b3] := by
  have h0 := b0.toNat_lt; have h1 := b1.toNat_lt; have h2 := b2.toNat_lt; have h3 := b3.toNat_lt
  have hw := wordOf_toNat b0 b1 b2 b3
  generalize wordOf b0 b1 b2 b3 = w at hw
  have e0 : w.toUInt8 = b0 := by
    apply UInt8.toNat_inj.mp; simp [hw]; omega
  have e1 : (w >>> 8).toUInt8 = b1 := by
    apply UInt8.toNat_inj.mp; simp [UInt32.toNat_shiftRight, Nat.shiftRight_eq_div_pow, hw]; omega
  have e2 : (w >>> 16).toUInt8 = b2 := by
    apply UInt8.toNat_inj.mp; simp [UInt32.toNat_shiftRight, Nat.shiftRight_eq_div_pow, hw]; omega
  have e3 : (w >>> 24).toUInt8 = b3 := by
    apply UInt8.toNat_inj.mp; simp [UInt32.toNat_shiftRight, Nat.shiftRight_eq_div_pow, hw]; omega
  simp only [word, e0, e1, e2, e3]

theorem word_toWord (h : bytes.length = 4) : word (toWord bytes.toArray) = bytes := by
  match bytes, h with
  | [b0, b1, b2, b3], _ => exact word_wordOf b0 b1 b2 b3

theorem double_join (low high : UInt32) :
    double (low.toUInt64 ||| (high.toUInt64 <<< 32)) = word low ++ word high := by
  have hl := low.toNat_lt; have hh := high.toNat_lt
  have e : (high.toUInt64 <<< 32).toNat = 2 ^ 32 * high.toNat := by
    simp [UInt64.toNat_shiftLeft, Nat.shiftLeft_eq]; omega
  have hsum : (low.toUInt64 ||| (high.toUInt64 <<< 32)).toNat = 2 ^ 32 * high.toNat + low.toNat := by
    rw [UInt64.toNat_or, e, Nat.or_comm, ← Nat.two_pow_add_eq_or_of_lt (by simpa using hl)]
    simp
  generalize low.toUInt64 ||| (high.toUInt64 <<< 32) = w at hsum
  have elow : w.toUInt32 = low := by
    apply UInt32.toNat_inj.mp; simp [hsum]
  have ehigh : (w >>> 32).toUInt32 = high := by
    apply UInt32.toNat_inj.mp; simp [UInt64.toNat_shiftRight, Nat.shiftRight_eq_div_pow, hsum]; omega
  rw [double, elow, ehigh]

theorem double_toDouble (h : bytes.length = 8) : double (toDouble bytes.toArray) = bytes := by
  match bytes, h with
  | [b0, b1, b2, b3, b4, b5, b6, b7], _ =>
    unfold toDouble
    rw [double_join]
    show word (wordOf b0 b1 b2 b3) ++ word (wordOf b4 b5 b6 b7) = _
    rw [word_wordOf, word_wordOf]
    rfl

theorem holds_nil : Holds data p [] ↔ p ≤ data.size := by
  constructor
  · intro h
    exact h.bound
  · intro h
    exact ⟨data.toList.take p, data.toList.drop p, by simp, by simp [Nat.min_eq_left h]⟩

theorem holds_extract {n : Nat} (h : p + n ≤ data.size) :
    Holds data p (data.extract p (p + n)).toList := by
  refine ⟨data.toList.take p, data.toList.drop (p + n), ?_, by simp; omega⟩
  rw [Array.toList_extract, extract_eq_take_drop, Nat.add_sub_cancel_left, append_assoc]
  rw [← drop_drop, take_append_drop, take_append_drop]

/-! ## Byte strings of lists -/

/-- The bytes of a list: those of its members, one after the other. -/
inductive Sequence (form : α → List UInt8 → Prop) : List α → List UInt8 → Prop where
  | nil : Sequence form [] []
  | cons {a : α} {rest : List α} {as bs : List UInt8} (first : form a as)
      (more : Sequence form rest bs) : Sequence form (a :: rest) (as ++ bs)

def Counted (form : α → List UInt8 → Prop) (xs : List α) (bytes : List UInt8) : Prop :=
  ∃ (count : UInt32) (rest : List UInt8), count.toNat = xs.length ∧ bytes = word count ++ rest
    ∧ Sequence form xs rest

theorem sequence_cons {a : α} {rest : List α} :
    Sequence form (a :: rest) bytes ↔ ∃ as bs, bytes = as ++ bs ∧ form a as ∧ Sequence form rest bs := by
  constructor
  · rintro (_ | ⟨hfirst, hmore⟩)
    exact ⟨_, _, rfl, hfirst, hmore⟩
  · rintro ⟨as, bs, rfl, hfirst, hmore⟩
    exact .cons hfirst hmore

theorem sequence_nil : Sequence form [] bytes ↔ bytes = [] := by
  constructor
  · rintro ⟨⟩
    rfl
  · rintro rfl
    exact .nil

/-! ## Reads -/

namespace Read

variable {act : Read α}

def Parses (act : Read α) (form : α → List UInt8 → Prop) : Prop :=
  ∀ (data : Bytes) (p : Nat), p ≤ data.size → ∀ (a : α) (c : Cursor), act ⟨data, p⟩ = .ok a c ↔
    ∃ bytes, form a bytes ∧ Holds data p bytes ∧ c = ⟨data, p + bytes.length⟩

theorem Parses.congr {form' : α → List UInt8 → Prop} (h : Parses act form)
    (hform : ∀ a bytes, form a bytes ↔ form' a bytes) : Parses act form' := by
  intro data p hp a c
  rw [h data p hp a c]
  simp only [hform]

theorem parses_pure (a : α) : Parses (pure a) fun a' bytes => a' = a ∧ bytes = [] := by
  intro data p hp a' c
  constructor
  · intro h
    cases h
    exact ⟨[], ⟨rfl, rfl⟩, holds_nil.mpr hp, rfl⟩
  · rintro ⟨_, ⟨rfl, rfl⟩, -, rfl⟩
    rfl

theorem parses_throw (fault : ModuleFault) : Parses (throw fault : Read α) fun _ _ => False := by
  intro data p hp a c
  constructor
  · intro h
    cases h
  · rintro ⟨_, ⟨⟩, -⟩

theorem Parses.bind {next : α → Read β} {form' : α → β → List UInt8 → Prop} (h : Parses act form)
    (h' : ∀ a, Parses (next a) (form' a)) :
    Parses (act >>= next) fun b bytes =>
      ∃ a as bs, bytes = as ++ bs ∧ form a as ∧ form' a b bs := by
  intro data p hp b c
  show EStateM.bind act next ⟨data, p⟩ = _ ↔ _
  unfold EStateM.bind
  constructor
  · intro hrun
    split at hrun
    next a c' hact =>
      obtain ⟨as, hform, hholds, rfl⟩ := (h data p hp a c').mp hact
      obtain ⟨bs, hform', hholds', rfl⟩ := (h' a data _ hholds.bound b c).mp hrun
      refine ⟨as ++ bs, ⟨a, as, bs, rfl, hform, hform'⟩, holds_append.mpr ⟨hholds, hholds'⟩, ?_⟩
      rw [length_append, Nat.add_assoc]
    next => cases hrun
  · rintro ⟨_, ⟨a, as, bs, rfl, hform, hform'⟩, hholds, rfl⟩
    obtain ⟨h1, h2⟩ := holds_append.mp hholds
    rw [(h data p hp a _).mpr ⟨as, hform, h1, rfl⟩]
    refine (h' a data _ h1.bound b _).mpr ⟨bs, hform', h2, ?_⟩
    rw [length_append, Nat.add_assoc]

theorem Parses.map (f : α → β) (h : Parses act form) :
    Parses (act >>= fun a => pure (f a)) fun b bytes => ∃ a, b = f a ∧ form a bytes := by
  refine (h.bind fun a => parses_pure (f a)).congr fun b bytes => ?_
  constructor
  · rintro ⟨a, as, _, rfl, hform, rfl, rfl⟩
    exact ⟨a, rfl, by rwa [append_nil]⟩
  · rintro ⟨a, rfl, hform⟩
    exact ⟨a, bytes, [], by simp, hform, rfl, rfl⟩

theorem parses_take (n : Nat) : Parses (take n) fun a bytes => a = bytes.toArray ∧ bytes.length = n := by
  intro data p hp a c
  unfold take
  constructor
  · intro h
    split at h
    next hle =>
      cases h
      have hlen : (data.extract p (p + n)).toList.length = n := by
        have : p + n ≤ data.size := hle
        simp; omega
      exact ⟨_, ⟨(Array.toArray_toList ..).symm, hlen⟩, holds_extract hle, by rw [hlen]⟩
    next => cases h
  · rintro ⟨bytes, ⟨rfl, rfl⟩, hholds, rfl⟩
    exact yields_take bytes data p hholds

theorem parses_uint : Parses uint fun v bytes => bytes = word v := by
  refine ((parses_take 4).map toWord).congr fun v bytes => ?_
  constructor
  · rintro ⟨_, rfl, rfl, hlen⟩
    exact (word_toWord hlen).symm
  · rintro rfl
    exact ⟨_, (toWord_word v).symm, rfl, length_word v⟩

theorem parses_number : Parses number fun bits bytes => bytes = double bits := by
  refine ((parses_take 8).map toDouble).congr fun v bytes => ?_
  constructor
  · rintro ⟨_, rfl, rfl, hlen⟩
    exact (double_toDouble hlen).symm
  · rintro rfl
    exact ⟨_, (toDouble_double v).symm, rfl, length_double v⟩

theorem parses_times (h : Parses act form) (n : Nat) :
    Parses (times n act) fun xs bytes => xs.length = n ∧ Sequence form xs bytes := by
  induction n with
  | zero =>
    refine (parses_pure []).congr fun xs bytes => ?_
    constructor
    · rintro ⟨rfl, rfl⟩
      exact ⟨rfl, .nil⟩
    · rintro ⟨hlen, hseq⟩
      obtain rfl := eq_nil_of_length_eq_zero hlen
      exact ⟨rfl, sequence_nil.mp hseq⟩
  | succ n ih =>
    refine (h.bind fun a => ih.map (a :: ·)).congr fun xs bytes => ?_
    constructor
    · rintro ⟨a, as, bs, rfl, hform, rest, rfl, rfl, hseq⟩
      exact ⟨rfl, .cons hform hseq⟩
    · rintro ⟨hlen, hseq⟩
      match xs, hlen with
      | a :: rest, hlen =>
        obtain ⟨as, bs, rfl, hform, hmore⟩ := sequence_cons.mp hseq
        exact ⟨a, as, bs, rfl, hform, rest, rfl, Nat.succ.inj hlen, hmore⟩

theorem parses_counted (h : Parses act form) :
    Parses (uint >>= fun n => times n.toNat act) (Counted form) := by
  refine (parses_uint.bind fun n => parses_times h n.toNat).congr fun xs bytes => ?_
  constructor
  · rintro ⟨n, _, bs, rfl, rfl, hlen, hseq⟩
    exact ⟨n, bs, hlen.symm, rfl, hseq⟩
  · rintro ⟨n, rest, hlen, rfl, hseq⟩
    exact ⟨n, _, rest, rfl, rfl, hlen.symm, hseq⟩

end Read

end ScriptIr.Wire
