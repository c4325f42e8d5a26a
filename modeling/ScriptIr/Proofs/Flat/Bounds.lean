import Mathlib.Algebra.BigOperators.Group.List.Basic
import ScriptIr.Proofs.Flat.Grammar
import ScriptIr.Proofs.Wire.Writing

/-!
# Reads stay inside their section

Whatever calls are made of a cursor, and whether or not they succeed, its position stays inside the data.
So a section that can be decoded is long enough for all that was read from it, whatever its counts say.

* `Call`, `Cursor.performAll`: the calls of a cursor, and a history of them.
* `Call.perform_eq`: when a call succeeds, and where it leaves the cursor in either case.
-/
namespace ScriptIr.Wire

/-- A call of a cursor. -/
inductive Call where
  | uint
  | number
  | text
  | take (n : Nat)
  | seek (position : Nat)

namespace Call

/-- Whether a read succeeded, and the cursor after it. -/
def outcome : EStateM.Result ModuleFault Cursor α → Bool × Cursor
  | .ok _ c => (true, c)
  | .error _ c => (false, c)

def perform (c : Cursor) : Call → Bool × Cursor
  | uint => outcome (Read.uint c)
  | number => outcome (Read.number c)
  | text => outcome (Read.text c)
  | take n => outcome (Read.take n c)
  | seek position => outcome (Read.seek position c)

/-- The bytes that a call needs are there, and those of a text are one. -/
def Fits (c : Cursor) : Call → Prop
  | uint => 4 ≤ c.remaining
  | number => 8 ≤ c.remaining
  | text => c.position + 4 + c.unitCount * 2 ≤ c.data.size ∧
      Text.Utf16.WellFormed (toUnits c.unitBytes)
  | take n => n ≤ c.remaining
  | seek position => position ≤ c.data.size

/-- The position behind what a successful call read. -/
def behind (c : Cursor) : Call → Nat
  | uint => c.position + 4
  | number => c.position + 8
  | text => c.position + 4 + c.unitCount * 2
  | take n => c.position + n
  | seek position => position

/-- The position at which a failing call stops. Only a text can be given up half-way: behind its count
if its units are cut, and behind these if they are not well formed. -/
def stop (c : Cursor) : Call → Nat
  | text =>
    if c.position + 4 ≤ c.data.size then
      if c.position + 4 + c.unitCount * 2 ≤ c.data.size then c.position + 4 + c.unitCount * 2
      else c.position + 4
    else c.position
  | _ => c.position

variable {c : Cursor}

section

variable (h : c.position ≤ c.data.size)
include h

theorem outcome_take (n : Nat) (f : Bytes → α) :
    outcome ((Read.take n >>= fun bytes => pure (f bytes)) c) =
      if n ≤ c.remaining then (true, ⟨c.data, c.position + n⟩) else (false, c) := by
  have hiff : c.position + n ≤ c.data.size ↔ n ≤ c.remaining := by unfold Cursor.remaining; omega
  split
  · next hn => rw [Read.bind_of_ok (if_pos (hiff.mpr hn))]; rfl
  · next hn => rw [Read.bind_of_error (if_neg (mt hiff.mp hn))]; rfl

theorem perform_eq (call : Call) :
    (call.Fits c → call.perform c = (true, ⟨c.data, call.behind c⟩)) ∧
      (¬call.Fits c → call.perform c = (false, ⟨c.data, call.stop c⟩)) := by
  cases call with
  | uint =>
    have heq := outcome_take h 4 toWord
    exact ⟨fun hfits => heq.trans (if_pos hfits), fun hfails => heq.trans (if_neg hfails)⟩
  | number =>
    have heq := outcome_take h 8 toDouble
    exact ⟨fun hfits => heq.trans (if_pos hfits), fun hfails => heq.trans (if_neg hfails)⟩
  | take n =>
    have heq := outcome_take h n id
    rw [show (fun bytes : Bytes => (pure (id bytes) : Read Bytes)) = pure from rfl, bind_pure] at heq
    exact ⟨fun hfits => heq.trans (if_pos hfits), fun hfails => heq.trans (if_neg hfails)⟩
  | seek position =>
    exact ⟨fun hfits => congrArg outcome (if_pos hfits), fun hfails => congrArg outcome (if_neg hfails)⟩
  | text =>
    have hnone : Text.Utf16.decode (toUnits c.unitBytes) = none ↔ _ := Text.Utf16.decode_eq_none_iff
    simp only [perform, Read.text_eq, Fits, behind, stop]
    by_cases hcount : c.position + 4 ≤ c.data.size
    case neg => exact ⟨fun hfits => absurd hfits.1 (by omega), fun _ => by simp only [if_neg hcount]; rfl⟩
    by_cases hunits : c.position + 4 + c.unitCount * 2 ≤ c.data.size
    case neg =>
      exact ⟨fun hfits => absurd hfits.1 hunits, fun _ => by simp only [if_pos hcount, if_neg hunits]; rfl⟩
    simp only [if_pos hcount, if_pos hunits]
    cases hs : Text.Utf16.decode (toUnits c.unitBytes) with
    | some s =>
      exact ⟨fun _ => rfl, fun hfails => absurd (hnone.mpr fun hwell => hfails ⟨hunits, hwell⟩) (by simp [hs])⟩
    | none => exact ⟨fun hfits => absurd hfits.2 (hnone.mp hs), fun _ => rfl⟩

theorem behind_le {call : Call} (hfits : call.Fits c) :
    call.behind c ≤ c.data.size := by
  have hr : c.remaining = c.data.size - c.position := rfl
  cases call <;> simp only [Fits, behind] at hfits ⊢ <;> omega

theorem stop_le (call : Call) : call.stop c ≤ c.data.size := by
  unfold stop
  repeat' split
  all_goals omega

/-- No call leaves the data, whether it succeeds or not. -/
theorem inside_perform (call : Call) :
    (call.perform c).2.data = c.data ∧ (call.perform c).2.position ≤ c.data.size := by
  by_cases hfits : call.Fits c
  · rw [(call.perform_eq h).1 hfits]
    exact ⟨rfl, behind_le h hfits⟩
  · rw [(call.perform_eq h).2 hfits]
    exact ⟨rfl, stop_le h call⟩

end

end Call

def Cursor.performAll (c : Cursor) (calls : List Call) : Cursor :=
  calls.foldl (fun c call => (call.perform c).2) c

theorem Cursor.inside_performAll (calls : List Call) {c : Cursor} (h : c.position ≤ c.data.size) :
    (c.performAll calls).data = c.data ∧ (c.performAll calls).position ≤ c.data.size := by
  induction calls generalizing c with
  | nil => exact ⟨rfl, h⟩
  | cons call calls ih =>
    obtain ⟨hdata, hle⟩ := call.inside_perform h
    rw [← hdata] at hle ⊢
    exact ih hle

/-! ## Sizes -/

variable {form : α → List UInt8 → Prop} {size : α → Nat} {xs : List α} {bytes : List UInt8}

theorem Sequence.length_le (h : Sequence form xs bytes)
    (hform : ∀ x bytes, form x bytes → 4 * size x ≤ bytes.length) :
    4 * (xs.map size).sum ≤ bytes.length := by
  induction h with
  | nil => exact Nat.zero_le _
  | cons first _ ih =>
    have := hform _ _ first
    simp only [List.map_cons, List.sum_cons, List.length_append]
    omega

theorem Counted.length_le (h : Counted form xs bytes)
    (hform : ∀ x bytes, form x bytes → 4 * size x ≤ bytes.length) :
    4 * (xs.map size).sum ≤ bytes.length := by
  obtain ⟨_, rest, -, rfl, hseq⟩ := h
  have := hseq.length_le hform
  rw [List.length_append]
  omega

end ScriptIr.Wire

namespace ScriptIr.Flat

open Wire List

variable {file : ModuleFile} {bytes : List UInt8}

def Function.operandCount (f : Function) : Nat := (f.blocks.flatten.flatMap (·.operands)).length

theorem length_operandForm {o : Operand} (h : OperandForm file o bytes) : 4 * 1 ≤ bytes.length := by
  cases h <;> simp

theorem length_instForm {i : Inst} (h : InstForm file i bytes) :
    4 * (1 + i.operands.length) ≤ bytes.length := by
  obtain ⟨fields, rfl, -, as, bs, has, hbs, hfields⟩ := h
  have hfixed := has.length_le fun _ _ => length_operandForm
  have hrest := hbs.length_le fun _ _ => length_operandForm
  have hlen := congrArg length (take_append_drop i.tag.layout.fixed.length i.operands)
  have hle : as.length + bs.length ≤ fields.length := by
    split at hfields
    · exact Nat.le_of_eq (by rw [hfields, length_append])
    · obtain ⟨count, -, rfl⟩ := hfields
      rw [length_append, length_append]
      omega
  simp only [map_const', sum_replicate_nat, Nat.mul_one, length_append,
    Wire.length_word] at *
  omega

theorem size_eq (f : Function) : (f.blocks.map fun is => (is.map fun i => 1 + i.operands.length).sum).sum
      = f.instCount + f.operandCount := by
  simp only [Function.instCount, Function.operandCount, sum_map_add, length_flatMap,
    length_flatten, map_flatten, sum_flatten, map_map, map_const',
    sum_replicate_nat, Nat.mul_one]
  rfl

theorem decode_size_le {payload : Bytes} {f : Function} (h : Function.decode file payload = .ok f) :
    4 * (f.instCount + f.operandCount) ≤ payload.size := by
  obtain ⟨⟨name, blocks, -, hbytes, hblocks⟩, -⟩ := decode_eq_ok_iff.mp h
  have hle := hblocks.length_le fun _ _ hblock => hblock.length_le fun _ _ => length_instForm
  rw [← Array.length_toList, hbytes, length_append, length_append, ← size_eq]
  omega

/-- **Reads stay inside.** After any history of calls of a cursor over any bytes, some of which may have
failed, the position is inside the data; the next call succeeds exactly if the bytes it needs are there,
and is then behind what it read; it stops in place if it fails, but for a text, which may be given up
behind its count or its units. A decoded function has at most as many instructions and operands as its
section has words. -/
theorem reads_stay_inside (data : Bytes) (calls : List Call) :
    let c := (Cursor.start data).performAll calls
    (c.data = data ∧ c.position ≤ data.size ∧ c.position + c.remaining = data.size)
    ∧ (∀ call : Call, (call.Fits c → call.perform c = (true, ⟨data, call.behind c⟩))
      ∧ (¬call.Fits c → call.perform c = (false, ⟨data, call.stop c⟩)))
    ∧ (∀ n bytes c', Read.take n c = .ok bytes c' → bytes.size = n ∧ Wire.Holds data c.position bytes.toList)
    ∧ ∀ file f, Function.decode file data = .ok f → f.instCount + f.operandCount ≤ data.size / 4 := by
  intro c
  obtain ⟨hdata, hle⟩ : c.data = data ∧ c.position ≤ data.size :=
    Cursor.inside_performAll calls (Nat.zero_le data.size)
  rw [← hdata] at hle ⊢
  refine ⟨⟨rfl, hle, Nat.add_sub_cancel' hle⟩, fun call => call.perform_eq hle,
    fun n bytes c' htake => ?_, fun file f hf => ?_⟩
  · obtain ⟨read, ⟨rfl, hn⟩, hholds, -⟩ := (Read.parses_take n c.data c.position hle bytes c').mp htake
    exact ⟨by simpa using hn, hholds⟩
  · have := decode_size_le hf
    omega

end ScriptIr.Flat
