import ScriptIr.Error
import ScriptIr.Wire.Writer

/-!
# Cursor over a section

Reading keeps a position in the bytes of a section. A read that fails leaves the cursor where it
stopped: a missing word leaves it in place, a text whose units are missing leaves it behind the
count, a text that is not UTF-16 leaves it behind the units.
-/
namespace ScriptIr.Wire

/-- The word with the given bytes, low byte first. -/
def wordOf (b0 b1 b2 b3 : UInt8) : UInt32 :=
  b0.toUInt32 ||| (b1.toUInt32 <<< 8) ||| (b2.toUInt32 <<< 16) ||| (b3.toUInt32 <<< 24)

def toWord (bytes : Bytes) : UInt32 :=
  wordOf (bytes.getD 0 0) (bytes.getD 1 0) (bytes.getD 2 0) (bytes.getD 3 0)

def toDouble (bytes : Bytes) : UInt64 :=
  (toWord bytes).toUInt64 ||| ((toWord (bytes.extract 4 8)).toUInt64 <<< 32)

/-- Pairs of bytes as UTF-16 units. -/
def toUnits : List UInt8 → List UInt16
  | low :: high :: rest => (low.toUInt16 ||| (high.toUInt16 <<< 8)) :: toUnits rest
  | _ => []

/-- A place in bytes that are read. -/
structure Cursor where
  data : Bytes
  position : Nat := 0
  deriving Inhabited

namespace Cursor

def start (data : Bytes) : Cursor := ⟨data, 0⟩

def remaining (c : Cursor) : Nat := c.data.size - c.position

end Cursor

abbrev Read := EStateM ModuleFault Cursor

namespace Read

def run (act : Read α) (data : Bytes) : Except ModuleFault α :=
  match EStateM.run act (Cursor.start data) with
  | .ok a _ => .ok a
  | .error e _ => .error e

def seek (position : Nat) : Read Unit := fun c =>
  if position ≤ c.data.size then .ok () { c with position }
  else .error (.pastEnd position) c

def take (n : Nat) : Read Bytes := fun c =>
  if c.position + n ≤ c.data.size then
    .ok (c.data.extract c.position (c.position + n)) { c with position := c.position + n }
  else .error (.truncated c.position) c

def uint : Read UInt32 := return toWord (← take 4)

def number : Read UInt64 := return toDouble (← take 8)

def text : Read String := do
  let count ← uint
  let bytes ← take (count.toNat * 2)
  match Text.Utf16.decode (toUnits bytes.toList) with
  | some s => return s
  | none => throw .loneSurrogate

def times (n : Nat) (act : Read α) : Read (List α) :=
  match n with
  | 0 => return []
  | n + 1 => do
    let a ← act
    let rest ← times n act
    return a :: rest

end Read

end ScriptIr.Wire
