import ScriptIr.Wire.Container
import ScriptIr.Wire.Cursor

/-!
# Module files

A module file is read by following its header. Sections must follow one another without gaps other
than padding, and exactly one of them is the string pool.

* `ModuleFile.textAt`, `ModuleFile.texts`: one entry of the string pool, and all of them.
-/
namespace ScriptIr.Wire

/-- A section found through the header: its kind, the offset of its byte count, its payload. -/
structure Section where
  kind : SectionKind
  offset : UInt32
  payload : Bytes
  deriving Inhabited

structure ModuleFile where
  sections : List Section
  /-- The payload of the string pool. -/
  pool : Bytes
  deriving Inhabited

def lengthPrefixed (data : Bytes) (offset : Nat) : Except ModuleFault Bytes :=
  Read.run (do Read.seek offset; let n ← Read.uint; Read.take n.toNat) data

namespace ModuleFile

def readSections (data : Bytes) (count expected : Nat) : Read (List Section) :=
  match count with
  | 0 => return []
  | count + 1 => do
    let code ← Read.uint
    let offset ← Read.uint
    let some kind := SectionKind.ofCode? code | throw (.unknownSection code)
    if offset.toNat % 8 ≠ 0 then throw (.misalignedSection offset)
    if offset.toNat ≠ expected then throw (.detachedSection offset expected)
    let payload ← match lengthPrefixed data offset.toNat with
      | .ok payload => pure payload
      | .error e => throw e
    let rest ← readSections data count (nextMultiple (expected + 4 + payload.size) 8)
    return ⟨kind, offset, payload⟩ :: rest

def readHeader (data header : Bytes) : Read (List Section) := do
  let start ← Read.take 4
  if start ≠ magic then throw .badMagic
  let count ← Read.uint
  readSections data count.toNat (nextMultiple (4 + header.size) 8)

def findPool (sections : List Section) : Except ModuleFault Bytes :=
  match sections.filter (fun s => s.kind == .stringPool) with
  | [pool] => .ok pool.payload
  | [] => .error .missingPool
  | _ => .error .secondPool

def parse (data : Bytes) : Except ModuleFault ModuleFile := do
  let header ← lengthPrefixed data 0
  let sections ← Read.run (readHeader data header) header
  let pool ← findPool sections
  return ⟨sections, pool⟩

def functions (m : ModuleFile) : List Bytes :=
  (m.sections.filter (fun s => s.kind == .function)).map (·.payload)

def textAt (m : ModuleFile) (offset : UInt32) : Except ModuleFault String :=
  Read.run (do Read.seek offset.toNat; Read.text) m.pool

/-- The entries from the cursor on. Every entry has a count of four bytes, so `fuel` entries are
enough for a section of `4 * fuel` bytes. -/
def readTexts (fuel : Nat) : Read (List (Nat × String)) :=
  match fuel with
  | 0 => return []
  | fuel + 1 => do
    let c ← get
    if c.remaining = 0 then return []
    Read.seek (nextMultiple c.position 4)
    let c ← get
    if c.remaining = 0 then return []
    let s ← Read.text
    let rest ← readTexts fuel
    return (c.position, s) :: rest

def texts (m : ModuleFile) : Except ModuleFault (List (Nat × String)) :=
  Read.run (readTexts (m.pool.size + 1)) m.pool

end ModuleFile

end ScriptIr.Wire
