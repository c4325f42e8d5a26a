import ScriptIr.Proofs.Wire.Parsing

/-!
# Writing and reading are inverse

What a writer has taken in can be read at the offsets it answered, whatever was written before and
after; and a text that can be read is the one whose bytes stand there.

* `Read.text_eq`: what reading a text does at any cursor, failures included.
* `Write`, `Writer.performAll`: the calls of a writer, and a history of them.
* `toList_perform`: a call adds padding and the bytes of its value, and changes nothing else.
-/
namespace ScriptIr.Wire

/-! ## Texts -/

theorem units_toUnits {n : Nat} {bytes : List UInt8} (h : bytes.length = n * 2) :
    units (toUnits bytes) = bytes ∧ (toUnits bytes).length = n := by
  induction n generalizing bytes with
  | zero => obtain rfl := List.eq_nil_of_length_eq_zero (by omega); exact ⟨rfl, rfl⟩
  | succ n ih =>
    match bytes, h with
    | [_], h => simp only [List.length_singleton] at h; omega
    | low :: high :: rest, h =>
      have hrest : rest.length = n * 2 := by simp only [List.length_cons] at h; omega
      obtain ⟨hunits, hlen⟩ := ih hrest
      have hl := low.toNat_lt; have hh := high.toNat_lt
      have e : (high.toUInt16 <<< 8).toNat = 2 ^ 8 * high.toNat := by
        simp [UInt16.toNat_shiftLeft, Nat.shiftLeft_eq]; omega
      have hsum : (low.toUInt16 ||| (high.toUInt16 <<< 8)).toNat = 2 ^ 8 * high.toNat + low.toNat := by
        rw [UInt16.toNat_or, e, Nat.or_comm, ← Nat.two_pow_add_eq_or_of_lt (by simpa using hl)]
        simp
      rw [toUnits]
      generalize low.toUInt16 ||| (high.toUInt16 <<< 8) = u at hsum
      have elow : u.toUInt8 = low := by
        apply UInt8.toNat_inj.mp; simp [hsum]
      have ehigh : (u >>> 8).toUInt8 = high := by
        apply UInt8.toNat_inj.mp; simp [UInt16.toNat_shiftRight, Nat.shiftRight_eq_div_pow, hsum]; omega
      refine ⟨?_, by rw [List.length_cons, hlen]⟩
      show u.toUInt8 :: (u >>> 8).toUInt8 :: units (toUnits rest) = _
      rw [elow, ehigh, hunits]

namespace Cursor

def next4 (c : Cursor) : Bytes := c.data.extract c.position (c.position + 4)

def unitCount (c : Cursor) : Nat := (toWord c.next4).toNat

def unitBytes (c : Cursor) : List UInt8 :=
  (c.data.extract (c.position + 4) (c.position + 4 + c.unitCount * 2)).toList

end Cursor

namespace Read

variable {data : Bytes} {p : Nat} {act : Read α} {next : α → Read β} {c c' : Cursor}

theorem bind_of_ok {a : α} (h : act c = .ok a c') : (act >>= next) c = next a c' := by
  show EStateM.bind act next c = _
  unfold EStateM.bind
  rw [h]

theorem bind_of_error {e : ModuleFault} (h : act c = .error e c') : (act >>= next) c = .error e c' := by
  show EStateM.bind act next c = _
  unfold EStateM.bind
  rw [h]

theorem uint_of_le (h : c.position + 4 ≤ c.data.size) :
    uint c = .ok (toWord c.next4) ⟨c.data, c.position + 4⟩ := bind_of_ok (if_pos h)

theorem text_eq (c : Cursor) : text c =
      if c.position + 4 ≤ c.data.size then
        if c.position + 4 + c.unitCount * 2 ≤ c.data.size then
          match Text.Utf16.decode (toUnits c.unitBytes) with
          | some s => .ok s ⟨c.data, c.position + 4 + c.unitCount * 2⟩
          | none => .error .loneSurrogate ⟨c.data, c.position + 4 + c.unitCount * 2⟩
        else .error (.truncated (c.position + 4)) ⟨c.data, c.position + 4⟩
      else .error (.truncated c.position) c := by
  by_cases hcount : c.position + 4 ≤ c.data.size
  case neg =>
    rw [if_neg hcount]
    exact bind_of_error (bind_of_error (if_neg hcount))
  rw [if_pos hcount]
  refine (bind_of_ok (uint_of_le hcount)).trans ?_
  by_cases hunits : c.position + 4 + c.unitCount * 2 ≤ c.data.size
  case neg =>
    rw [if_neg hunits]
    exact bind_of_error (if_neg hunits)
  rw [if_pos hunits]
  refine (bind_of_ok (if_pos hunits)).trans ?_
  show (match Text.Utf16.decode (toUnits c.unitBytes) with
    | some s => pure s
    | none => throw .loneSurrogate : Read String) _ = _
  cases Text.Utf16.decode (toUnits c.unitBytes) <;> rfl

theorem text_eq_ok {s : String} {c : Cursor} :
    text ⟨data, p⟩ = .ok s c ↔ (Text.Utf16.encode s).length < 2 ^ 32 ∧ Holds data p (textForm s)
      ∧ c = ⟨data, p + (textForm s).length⟩ := by
  constructor
  · intro h
    rw [text_eq] at h
    by_cases hcount : p + 4 ≤ data.size
    case neg => rw [if_neg hcount] at h; cases h
    rw [if_pos hcount] at h
    by_cases hle : p + 4 + (Cursor.mk data p).unitCount * 2 ≤ data.size
    case neg => rw [if_neg hle] at h; cases h
    rw [if_pos hle] at h
    cases hs : Text.Utf16.decode (toUnits (Cursor.mk data p).unitBytes) with
    | none => rw [hs] at h; cases h
    | some s' =>
      rw [hs] at h
      cases h
      have hlen : (Cursor.mk data p).unitBytes.length = (Cursor.mk data p).unitCount * 2 := by
        simp only [Cursor.unitBytes, Array.length_toList, Array.size_extract]; omega
      obtain ⟨hunits, hn⟩ := units_toUnits hlen
      have hencode := Text.Utf16.encode_of_decode hs
      have hword : word (Cursor.mk data p).unitCount.toUInt32 = (Cursor.mk data p).next4.toList := by
        have h4 : (Cursor.mk data p).next4.toList.length = 4 := by simp [Cursor.next4]; omega
        rw [← word_toWord h4, Cursor.unitCount, Nat.toUInt32_eq, UInt32.ofNat_toNat, Array.toArray_toList]
      have hform : textForm s = (Cursor.mk data p).next4.toList ++ (Cursor.mk data p).unitBytes := by
        rw [textForm, hencode, hn, hunits, hword]
      refine ⟨by rw [hencode, hn]; exact UInt32.toNat_lt _, ?_, ?_⟩
      · rw [hform, holds_append]
        refine ⟨holds_extract hcount, ?_⟩
        rw [← hword, length_word]
        exact holds_extract hle
      · rw [length_textForm, hencode, hn, Nat.add_assoc]
  · rintro ⟨hlen, hholds, rfl⟩
    exact yields_text s hlen data p hholds

/-- A text cannot be read exactly where its count or its units are cut short, or a surrogate is
without its partner. -/
theorem text_eq_error {c : Cursor} : (∃ fault c', text c = .error fault c') ↔
    c.data.size < c.position + 4 ∨ c.data.size < c.position + 4 + c.unitCount * 2
      ∨ ¬Text.Utf16.WellFormed (toUnits c.unitBytes) := by
  rw [← Text.Utf16.decode_eq_none_iff, text_eq]
  by_cases hcount : c.position + 4 ≤ c.data.size
  case neg => simp [hcount]; omega
  by_cases hunits : c.position + 4 + c.unitCount * 2 ≤ c.data.size
  case neg => simp [hcount, hunits]; omega
  cases Text.Utf16.decode (toUnits c.unitBytes) <;> simp [hcount, hunits]

end Read

/-! ## Calls of a writer -/

def LeastPadding (size n pad : Nat) : Prop := size ∣ n + pad ∧ ∀ k, size ∣ n + k → pad ≤ k

theorem le_nextMultiple_of_pos {size : Nat} (h : 0 < size) (n : Nat) : n ≤ nextMultiple n size := by
  have := Nat.lt_div_mul_add (a := n + size - 1) h
  unfold nextMultiple
  omega

theorem leastPadding_nextMultiple {size : Nat} (h : 0 < size) (n : Nat) :
    LeastPadding size n (nextMultiple n size - n) := by
  have hle := le_nextMultiple_of_pos h n
  refine ⟨⟨(n + size - 1) / size, by rw [Nat.add_sub_cancel' hle, nextMultiple, Nat.mul_comm]⟩, ?_⟩
  rintro k ⟨q, hq⟩
  have hdiv : (n + size - 1) / size < q + 1 := by
    rw [Nat.div_lt_iff_lt_mul h, Nat.add_mul, Nat.mul_comm q]
    omega
  have hmul : nextMultiple n size ≤ size * q := by
    rw [nextMultiple, Nat.mul_comm]
    exact Nat.mul_le_mul_left size (Nat.le_of_lt_succ hdiv)
  omega

theorem Writer.toList_text (w : Writer) (s : String) : (w.text s).2.bytes.toList
        = w.bytes.toList ++ (List.replicate (nextMultiple w.size 4 - w.size) 0 ++ textForm s)
      ∧ (w.text s).1 = nextMultiple w.size 4 := by
  have hle : w.bytes.size ≤ nextMultiple w.bytes.size 4 := le_nextMultiple_of_pos (by decide) _
  constructor
  · simp [Writer.text, Writer.append, Writer.align, textForm]
  · simp [Writer.text, Writer.append, Writer.align, Writer.size]; omega

/-- A call of a writer. -/
inductive Write where
  | byte (b : UInt8)
  | uint (v : UInt32)
  | number (bits : UInt64)
  | text (s : String)
  | raw (bytes : Bytes)
  | align (size : Nat)

namespace Write

/-- What the call answers, and the writer after it. Alignment answers nothing. -/
def perform (w : Writer) : Write → Option Nat × Writer
  | byte b => Prod.map some id (w.byte b)
  | uint v => Prod.map some id (w.uint v)
  | number bits => Prod.map some id (w.number bits)
  | text s => Prod.map some id (w.text s)
  | raw bytes => Prod.map some id (w.raw bytes)
  | align size => (none, w.align size)

/-- Texts whose units can be counted in a word, and sizes that have multiples. -/
def Allowed : Write → Prop
  | text s => (Text.Utf16.encode s).length < 2 ^ 32
  | align size => 0 < size
  | _ => True

/-- A value is padded to a multiple of this before it is written. -/
def alignment : Write → Nat
  | text _ => 4
  | align size => size
  | _ => 1

def form : Write → List UInt8
  | byte b => [b]
  | uint v => word v
  | number bits => double bits
  | text s => textForm s
  | raw bytes => bytes.toList
  | align _ => []

def answer (n : Nat) : Write → Option Nat
  | align _ => none
  | _ => some n

def ReadsBack (c c' : Cursor) : Write → Prop
  | byte b => Read.take 1 c = .ok #[b] c'
  | uint v => Read.uint c = .ok v c'
  | number bits => Read.number c = .ok bits c'
  | text s => Read.text c = .ok s c'
  | raw bytes => Read.take bytes.size c = .ok bytes c'
  | align _ => True

variable {op : Write} {data : Bytes} {p : Nat}

theorem toList_perform (h : op.Allowed) (w : Writer) : ∃ pad, LeastPadding op.alignment w.size pad
      ∧ (op.perform w).2.bytes.toList = w.bytes.toList ++ (List.replicate pad 0 ++ op.form)
      ∧ (op.perform w).1 = op.answer (w.size + pad) := by
  have hnone : LeastPadding 1 w.size 0 := ⟨Nat.one_dvd _, fun k _ => Nat.zero_le k⟩
  cases op with
  | byte b => exact ⟨0, hnone, by simp [perform, Writer.byte, form], rfl⟩
  | uint v => exact ⟨0, hnone, by simp [perform, Writer.uint, Writer.append, form], rfl⟩
  | number bits => exact ⟨0, hnone, by simp [perform, Writer.number, Writer.append, form], rfl⟩
  | text s =>
    have hleast := leastPadding_nextMultiple (by decide : 0 < 4) w.size
    obtain ⟨hbytes, hoffset⟩ := w.toList_text s
    refine ⟨_, hleast, hbytes, ?_⟩
    rw [Nat.add_sub_cancel' (le_nextMultiple_of_pos (by decide) _)]
    exact congrArg some hoffset
  | raw bytes => exact ⟨0, hnone, by simp [perform, Writer.raw, form], rfl⟩
  | align size =>
    exact ⟨_, leastPadding_nextMultiple h w.size, by simp [perform, Writer.align, form], rfl⟩

/-- Where the bytes of a value stand, the matching read finds the value. -/
theorem readsBack_of_holds (h : op.Allowed) (hp : Holds data p op.form) :
    op.ReadsBack ⟨data, p⟩ ⟨data, p + op.form.length⟩ := by
  cases op with
  | byte b => exact Read.yields_take [b] data p hp
  | uint v => exact Read.yields_uint v data p hp
  | number bits => exact Read.yields_number bits data p hp
  | text s => exact Read.yields_text s h data p hp
  | raw bytes =>
    have := Read.yields_take bytes.toList data p hp
    rwa [Array.length_toList, Array.toArray_toList] at this
  | align size => trivial

end Write

namespace Writer

def performAll (w : Writer) (ops : List Write) : Writer := ops.foldl (fun w op => (op.perform w).2) w

/-- Nothing that was written changes, whatever the call. -/
theorem prefix_perform (w : Writer) (op : Write) : w.bytes.toList <+: (op.perform w).2.bytes.toList := by
  cases op <;> simp [Write.perform, byte, uint, number, text, raw, align, append]

theorem prefix_performAll (ops : List Write) (w : Writer) :
    w.bytes.toList <+: (w.performAll ops).bytes.toList := by
  induction ops generalizing w with
  | nil => exact List.prefix_refl _
  | cons op ops ih => exact (w.prefix_perform op).trans (ih _)

/-- **Writing and reading are inverse.** In any history of calls, a call adds the least padding that its
alignment demands and the bytes of its value, answers where the value begins, and what it wrote is
read at that offset in the end, up to where the call stopped. A text that is read from any bytes
stands there as a writer would put it, and only cut or ill-formed texts cannot be read. -/
theorem written_values_read_back (before after : List Write) (op : Write) (h : op.Allowed) :
    let w := empty.performAll before
    let w' := (op.perform w).2
    let final := w'.performAll after
    (∃ pad, LeastPadding op.alignment w.size pad
      ∧ w'.bytes.toList = w.bytes.toList ++ (List.replicate pad 0 ++ op.form)
      ∧ (op.perform w).1 = op.answer (w.size + pad))
    ∧ w'.bytes.toList <+: final.bytes.toList
    ∧ (∀ offset c, (op.perform w).1 = some offset → c.data = final.bytes →
        Read.seek offset c = .ok () ⟨final.bytes, offset⟩
        ∧ op.ReadsBack ⟨final.bytes, offset⟩ ⟨final.bytes, w'.size⟩)
    ∧ ∀ c : Cursor,
      (∀ s c', Read.text c = .ok s c' → ∃ bytes, Holds c.data c.position bytes
        ∧ c' = ⟨c.data, c.position + bytes.length⟩
        ∧ ∀ v : Writer, v.size % 4 = 0 → v.text s = (v.size, ⟨v.bytes ++ bytes⟩))
      ∧ ((∃ fault c', Read.text c = .error fault c') ↔
        c.data.size < c.position + 4 ∨ c.data.size < c.position + 4 + c.unitCount * 2
          ∨ ¬Text.Utf16.WellFormed (toUnits c.unitBytes)) := by
  intro w w' final
  have hfinal : w'.bytes.toList <+: final.bytes.toList := w'.prefix_performAll after
  obtain ⟨pad, hleast, hbytes, hanswer⟩ := Write.toList_perform h w
  refine ⟨⟨pad, hleast, hbytes, hanswer⟩, hfinal, fun offset c hoffset hc => ?_,
    fun c => ⟨fun s c' hread => ?_, Read.text_eq_error⟩⟩
  · obtain rfl : w.size + pad = offset := by
      rw [hanswer] at hoffset
      cases op with
      | align size => cases hoffset
      | _ => exact Option.some.inj hoffset
    have hend : w'.size = w.size + pad + op.form.length := by
      show w'.bytes.size = _
      rw [← Array.length_toList, hbytes]
      simp [size]; omega
    have hholds : Holds w'.bytes (w.size + pad) op.form :=
      ⟨w.bytes.toList ++ List.replicate pad 0, [], by rw [hbytes]; simp, by simp [size]⟩
    have hholds := hholds.mono hfinal
    have hbound := hholds.bound
    constructor
    · unfold Read.seek
      rw [hc, if_pos (by omega)]
    · rw [hend]
      exact Write.readsBack_of_holds h hholds
  · obtain ⟨-, hholds, hc⟩ := Read.text_eq_ok.mp hread
    refine ⟨textForm s, hholds, hc, fun v hv => ?_⟩
    have hpad : nextMultiple v.size 4 - v.size = 0 := by unfold nextMultiple; omega
    simp [text, align, append, hpad, textForm]

/-- A text of three units behind one byte, in the middle of other values. -/
theorem written_text_reads_back :
    let w := (empty.performAll [.byte 7, .text "h😀"]).performAll [.align 8, .number 0x7FF0000000000001]
    Read.text ⟨w.bytes, 4⟩ = .ok "h😀" ⟨w.bytes, 14⟩ :=
  ((written_values_read_back [.byte 7] [.align 8, .number 0x7FF0000000000001] (.text "h😀")
    (show (Text.Utf16.encode "h😀").length < 2 ^ 32 by decide +kernel)).2.2.1 4 ⟨_, 0⟩ rfl rfl).2

end Writer

end ScriptIr.Wire
