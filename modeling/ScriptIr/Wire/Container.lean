import ScriptIr.Wire.Writer

/-!
# Module container

A module file is a header and a sequence of sections, each a byte count and its payload, padded to a
multiple of eight. The header holds a magic word, the number of sections, and for each section its
kind and the offset of its byte count.

* `Container.toBytes`: the whole file.
-/
namespace ScriptIr.Wire

inductive SectionKind where
  | function
  | stringPool
  deriving DecidableEq, Repr, Inhabited

namespace SectionKind

/-- The word that stands for the kind in the header. -/
def code : SectionKind → UInt32
  | function => 0
  | stringPool => 1

def ofCode? (n : UInt32) : Option SectionKind :=
  if n == 0 then some function else if n == 1 then some stringPool else none

def name : SectionKind → String
  | function => "Function"
  | stringPool => "StringPool"

end SectionKind

/-- The bytes with which the header begins. -/
def magic : Bytes := #[0x48, 0x59, 0x49, 0x52]

/-- Sections in file order, each with its kind and payload. -/
structure Container where
  sections : Array (SectionKind × Bytes) := #[]
  deriving Inhabited

namespace Container

def empty : Container := {}

def add (c : Container) (kind : SectionKind) (payload : Bytes) : Container :=
  ⟨c.sections.push (kind, payload)⟩

def headerLength (n : Nat) : Nat := 8 + 8 * n

def offsetsFrom (start : Nat) : List Bytes → List Nat
  | [] => []
  | payload :: rest => start :: offsetsFrom (nextMultiple (start + 4 + payload.size) 8) rest

def offsets (c : Container) : List Nat :=
  offsetsFrom (nextMultiple (4 + headerLength c.sections.size) 8)
    (c.sections.toList.map (·.2))

def appendSection (w : Writer) (payload : Bytes) : Writer :=
  ((w.uint payload.size.toUInt32).2.raw payload).2.align 8

def header (c : Container) : Bytes :=
  let start := magic ++ word c.sections.size.toUInt32
  (c.sections.toList.zip c.offsets).foldl
    (fun bytes (s, offset) => bytes ++ (word s.1.code ++ word offset.toUInt32)) start

def toBytes (c : Container) : Bytes :=
  (c.sections.foldl (fun w s => appendSection w s.2) (appendSection Writer.empty c.header)).bytes

end Container

end ScriptIr.Wire
