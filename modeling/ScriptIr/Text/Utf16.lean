/-!
# UTF-16 code units

Text is stored as UTF-16: a character below `0x10000` is one unit, any other is a surrogate pair.
`decode` accepts exactly the sequences in which every surrogate belongs to a pair.
-/
namespace ScriptIr.Text.Utf16

def isHigh (u : UInt16) : Bool := 0xD800 ≤ u && u < 0xDC00

def isLow (u : UInt16) : Bool := 0xDC00 ≤ u && u < 0xE000

def encodeChar (c : Char) : List UInt16 :=
  if c.toNat < 0x10000 then [c.toNat.toUInt16]
  else
    let n := c.toNat - 0x10000
    [(0xD800 + n / 0x400).toUInt16, (0xDC00 + n % 0x400).toUInt16]

def encode (s : String) : List UInt16 := s.toList.flatMap encodeChar

def pair (high low : UInt16) : Char :=
  Char.ofNat (0x10000 + (high.toNat - 0xD800) * 0x400 + (low.toNat - 0xDC00))

/-- The characters of a sequence of units, `none` when a surrogate stands alone. -/
def decodeChars : List UInt16 → Option (List Char)
  | [] => some []
  | u :: rest =>
    if isHigh u then
      match rest with
      | [] => none
      | v :: rest => if isLow v then (decodeChars rest).map (pair u v :: ·) else none
    else if isLow u then none
    else (decodeChars rest).map (Char.ofNat u.toNat :: ·)

/-- The text of a sequence of units, `none` when a surrogate stands alone. -/
def decode (units : List UInt16) : Option String := (decodeChars units).map String.ofList

end ScriptIr.Text.Utf16
