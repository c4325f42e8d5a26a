import ScriptIr.Wire.Writer

/-!
# String pool

Each distinct text of a module is stored once and is named by its offset in the pool.
-/
namespace ScriptIr.Wire

/-- The texts stored so far, in order of first use, with their offsets. -/
structure StringPool where
  /-- The bytes of the pool. -/
  writer : Writer := {}
  /-- Each text with its offset. -/
  entries : Array (String × Nat) := #[]
  deriving Inhabited

namespace StringPool

def empty : StringPool := {}

def size (p : StringPool) : Nat := p.entries.size

def bytes (p : StringPool) : Bytes := p.writer.bytes

/-- The offset of a text that has been stored. -/
def offset? (p : StringPool) (s : String) : Option Nat :=
  (p.entries.find? (fun e => e.1 == s)).map (·.2)

def intern (p : StringPool) (s : String) : Nat × StringPool :=
  match p.offset? s with
  | some offset => (offset, p)
  | none =>
    let (offset, writer) := p.writer.text s
    (offset, ⟨writer, p.entries.push (s, offset)⟩)

end StringPool

end ScriptIr.Wire
