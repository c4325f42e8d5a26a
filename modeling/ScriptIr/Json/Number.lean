import ScriptIr.Number.Binary64

/-!
# Numbers of a document

A numeral is read by its digits. A whole number that fits in 64 bits is exact. Any other number is a
binary64 value computed from the leading digits that fit in 64 bits and a power of ten, with one
rounding for each step; a value beyond the largest finite number is out of range.
-/
namespace ScriptIr.Json

open ScriptIr.Number (Bits)

inductive Number where
  /-- A whole number below `2 ^ 64`. -/
  | natural (n : Nat)
  /-- The whole number `-n`, where `n` is positive and at most `2 ^ 63`. -/
  | negative (n : Nat)
  /-- A binary64 value. -/
  | real (bits : Bits)
  deriving DecidableEq, Repr, Inhabited

def Number.bits : Number → Bits
  | natural n => Number.ofNat n
  | negative n => Number.negate (Number.ofNat n)
  | real bits => bits

structure Exponent where
  negative : Bool
  digits : List Nat
  deriving DecidableEq, Repr, Inhabited

/-- A number as it is written. -/
structure Numeral where
  negative : Bool
  whole : List Nat
  /-- The digits after the point, if there is one. -/
  fraction : Option (List Nat)
  exponent : Option Exponent
  deriving DecidableEq, Repr, Inhabited

namespace Numeral

def digit (c : Char) : Nat := c.toNat - '0'.toNat

def digits (cs : List Char) : List Nat × List Char :=
  ((cs.takeWhile Char.isDigit).map digit, cs.dropWhile Char.isDigit)

def someDigits? (cs : List Char) : Option (List Nat × List Char) :=
  match digits cs with
  | ([], _) => none
  | r => some r

/-- The whole part: it starts with a zero only if it is zero. -/
def whole? (cs : List Char) : Option (List Nat × List Char) := do
  let (ds, rest) ← someDigits? cs
  if ds.head? = some 0 && ds.length ≠ 1 then none else some (ds, rest)

def fraction? : List Char → Option (Option (List Nat) × List Char)
  | '.' :: cs => do
    let (ds, rest) ← someDigits? cs
    return (some ds, rest)
  | cs => some (none, cs)

def exponentSign : List Char → Bool × List Char
  | '-' :: cs => (true, cs)
  | '+' :: cs => (false, cs)
  | cs => (false, cs)

def exponent? : List Char → Option (Option Exponent)
  | [] => some none
  | c :: cs =>
    if c = 'e' || c = 'E' then do
      let (negative, cs) := exponentSign cs
      match ← someDigits? cs with
      | (ds, []) => some (some ⟨negative, ds⟩)
      | _ => none
    else none

def parse? (cs : List Char) : Option Numeral := do
  let (negative, cs) := match cs with
    | '-' :: cs => (true, cs)
    | cs => (false, cs)
  let (whole, cs) ← whole? cs
  let (fraction, cs) ← fraction? cs
  let exponent ← exponent? cs
  return ⟨negative, whole, fraction, exponent⟩

/-- A number `significand * 10 ^ exponent` whose digits are still arriving. -/
structure Digits where
  significand : Nat := 0
  exponent : Int := 0
  /-- Whether a digit no longer fitted. -/
  full : Bool := false
  deriving DecidableEq, Repr, Inhabited

namespace Digits

def fits (s : Digits) (d : Nat) : Bool := !s.full && s.significand * 10 + d < Nat.pow 2 64

def addWhole (s : Digits) (d : Nat) : Digits :=
  if s.fits d then { s with significand := s.significand * 10 + d }
  else { s with exponent := s.exponent + 1, full := true }

def addFraction (s : Digits) (d : Nat) : Digits :=
  if s.fits d then
    { s with significand := s.significand * 10 + d, exponent := s.exponent - 1 }
  else { s with full := true }

end Digits

def wholeDigits (n : Numeral) : Digits := n.whole.foldl Digits.addWhole {}

/-- The digits of the whole part and the fraction. A fraction starts afresh after a whole part
that did not fit. -/
def allDigits (n : Numeral) : Digits :=
  (n.fraction.getD []).foldl Digits.addFraction { n.wholeDigits with full := false }

/-- The largest power of ten that is a finite binary64 number. -/
def maxPower : Nat := 308

/-- The magnitude `f * 10 ^ e`, `none` when it is too large. Small values are reached by dividing by
the largest power of ten until the exponent is in range. -/
def scaled? (f : Bits) (e : Int) : Option Bits :=
  if _ : e < -(maxPower : Int) then
    if Number.isZero f then some f
    else scaled? (Number.div f (Number.powerOfTen maxPower)) (e + maxPower)
  else if e < 0 then some (Number.div f (Number.powerOfTen (-e).toNat))
  else if Number.isZero f then some f
  else if maxPower < e then none
  else
    let r := Number.mul f (Number.powerOfTen e.toNat)
    if Number.isInfinite r then none else some r
termination_by (-e).toNat
decreasing_by simp only [maxPower] at *; omega

def ofDigits (ds : List Nat) : Nat := ds.foldl (fun n d => n * 10 + d) 0

def maxExponent : Nat := Nat.pow 2 31 - 1

def magnitude? (n : Numeral) : Option Bits :=
  let ds := n.allDigits
  let f := Number.ofNat ds.significand
  match n.exponent with
  | none => scaled? f ds.exponent
  | some x =>
    let e := ofDigits x.digits
    if maxExponent < e then if ds.significand ≠ 0 && !x.negative then none else some 0
    else scaled? f (if x.negative then ds.exponent - e else ds.exponent + e)

/-- The value of a numeral, `none` when it is out of range. Minus zero is a real number, and so is a
negative whole number below `-2 ^ 63`. -/
def value? (n : Numeral) : Option Number :=
  let ds := n.wholeDigits
  let sign (b : Bits) : Bits := if n.negative then Number.negate b else b
  if n.fraction.isNone && n.exponent.isNone && !ds.full then
    if !n.negative then some (.natural ds.significand)
    else if ds.significand = 0 || Nat.pow 2 63 < ds.significand then
      some (.real (sign (Number.ofNat ds.significand)))
    else some (.negative ds.significand)
  else n.magnitude?.map fun b => .real (sign b)

end Numeral

end ScriptIr.Json
