import ScriptIr.Text.Utf16

/-!
# Append-only byte buffer

Sections and files are built by appending little-endian values. Every write answers the offset at
which its value begins; a text is first padded to a multiple of four and is then written as a count
of UTF-16 units and the units themselves.
-/
namespace ScriptIr.Wire

abbrev Bytes := Array UInt8

def nextMultiple (n size : Nat) : Nat := (n + size - 1) / size * size

def word (v : UInt32) : List UInt8 :=
  [v.toUInt8, (v >>> 8).toUInt8, (v >>> 16).toUInt8, (v >>> 24).toUInt8]

def double (bits : UInt64) : List UInt8 := word bits.toUInt32 ++ word (bits >>> 32).toUInt32

def units (us : List UInt16) : List UInt8 :=
  us.flatMap fun (u : UInt16) => [u.toUInt8, (u >>> 8).toUInt8]

/-- A buffer that only grows. -/
structure Writer where
  /-- What has been written so far. -/
  bytes : Bytes := #[]
  deriving DecidableEq, Inhabited

namespace Writer

/-- Nothing written yet. -/
def empty : Writer := {}

def size (w : Writer) : Nat := w.bytes.size

def append (w : Writer) (bytes : List UInt8) : Nat × Writer := (w.size, ⟨w.bytes ++ bytes⟩)

def raw (w : Writer) (bytes : Bytes) : Nat × Writer := (w.size, ⟨w.bytes ++ bytes⟩)

def byte (w : Writer) (b : UInt8) : Nat × Writer := (w.size, ⟨w.bytes.push b⟩)

def uint (w : Writer) (v : UInt32) : Nat × Writer := w.append (word v)

def number (w : Writer) (bits : UInt64) : Nat × Writer := w.append (double bits)

def align (w : Writer) (size : Nat) : Writer :=
  ⟨w.bytes ++ Array.replicate (nextMultiple w.size size - w.size) 0⟩

/-- Appends a text. The offset is that of its count, which lies at a multiple of four. -/
def text (w : Writer) (s : String) : Nat × Writer :=
  let us := Text.Utf16.encode s
  (w.align 4).append (word us.length.toUInt32 ++ units us)

end Writer

end ScriptIr.Wire
