/-!
# Binary64 numbers by their bits

A number is the 64 bits of its IEEE 754 form, so that every bit of a literal is kept. A finite
number is a mantissa times a power of two; the operations below are exact on those and round once,
to nearest with ties to even.
-/
namespace ScriptIr.Number

abbrev Bits := UInt64

def magnitude (bits : Bits) : Bits := bits &&& 0x7FFFFFFFFFFFFFFF

def isNegative (bits : Bits) : Bool := bits >>> 63 == 1

def negate (bits : Bits) : Bits := bits ^^^ 0x8000000000000000

def infinity : Bits := 0x7FF0000000000000

def isNaN (bits : Bits) : Bool := magnitude bits > infinity

def isInfinite (bits : Bits) : Bool := magnitude bits == infinity

def isZero (bits : Bits) : Bool := magnitude bits == 0

/-- Mantissa and exponent: the magnitude of a finite number is `m * 2 ^ e`. -/
def decode (bits : Bits) : Nat × Int :=
  let n := (magnitude bits).toNat
  let field : Nat := n / Nat.pow 2 52
  if field = 0 then (n, -1074) else (Nat.pow 2 52 + n % Nat.pow 2 52, (field : Int) - 1075)

def roundHalfEven (num den : Nat) : Nat :=
  let q := num / den
  let r := 2 * (num % den)
  if r < den then q else if den < r then q + 1 else if q % 2 = 0 then q else q + 1

def scale (num den : Nat) (e : Int) : Nat × Nat :=
  if 0 ≤ e then (num * Nat.pow 2 e.toNat, den) else (num, den * Nat.pow 2 (-e).toNat)

def exponentOf (num den : Nat) : Int :=
  let guess : Int := (num.log2 : Int) - den.log2 - 52
  let (n, d) := scale num den (-guess)
  let e := if n / d < Nat.pow 2 52 then guess - 1 else guess
  max e (-1074)

/-- The magnitude nearest to `num / den`, infinity when it is too large. -/
def ofRatio (num den : Nat) : Bits :=
  if num = 0 then 0
  else
    let e := exponentOf num den
    let (n, d) := scale num den (-e)
    let bits := (e + 1074).toNat * Nat.pow 2 52 + roundHalfEven n d
    if bits < infinity.toNat then bits.toUInt64 else infinity

def ofNat (n : Nat) : Bits := ofRatio n 1

def mul (a b : Bits) : Bits :=
  let (m, e) := decode a
  let (n, f) := decode b
  let (num, den) := scale (m * n) 1 (e + f)
  ofRatio num den

/-- The quotient of two finite magnitudes, rounded. The divisor is not zero. -/
def div (a b : Bits) : Bits :=
  let (m, e) := decode a
  let (n, f) := decode b
  let (num, den) := scale m n (e - f)
  ofRatio num den

def powerOfTen (k : Nat) : Bits := ofNat (Nat.pow 10 k)

end ScriptIr.Number
