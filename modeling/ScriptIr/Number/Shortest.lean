import ScriptIr.Number.Binary64

/-!
# Shortest decimal digits

A number is printed with the fewest decimal digits that read back as the same number. Of the decimals
with that many digits the one nearest to the number is taken, and of two equally near the larger.

A decimal reads back when it lies in the interval of reals that round to the number. The interval
reaches half way to each neighbour; its ends belong to it when the mantissa is even. Below a power of
two the neighbours are closer, so the lower half is shorter there.
-/
namespace ScriptIr.Number

/-- The decimal `digits * 10 ^ exponent`. -/
structure Decimal where
  digits : Nat
  exponent : Int
  deriving DecidableEq, Repr, Inhabited

/-- A value with the ends of the interval that rounds to it, all over one denominator. -/
structure Interval where
  low : Nat
  value : Nat
  high : Nat
  den : Nat
  /-- Whether the ends belong to the interval. -/
  closed : Bool

def interval (bits : Bits) : Interval :=
  let (m, e) := decode bits
  let below := if m = Nat.pow 2 52 then 1 else 2
  let (unit, den) := scale 1 1 (e - 2)
  { low := (4 * m - below) * unit, value := 4 * m * unit, high := (4 * m + 2) * unit, den
    closed := m % 2 = 0 }

def digitCount (n : Nat) : Nat := (Nat.toDigits 10 n).length

def magnitudeOf (num den : Nat) : Int :=
  if den ≤ num then digitCount (num / den)
  else
    let l := digitCount (den / num)
    let j := if den ≤ num * Nat.pow 10 (l - 1) then l - 1 else l
    1 - (j : Int)

def scaleTen (num den : Nat) (e : Int) : Nat × Nat :=
  if 0 ≤ e then (num * Nat.pow 10 e.toNat, den) else (num, den * Nat.pow 10 (-e).toNat)

/-- The decimal in the interval that is nearest to the value among the multiples of
`10 ^ exponent`, if one of the value's two neighbours there lies in the interval. -/
def onGrid (i : Interval) (exponent : Int) : Option Nat :=
  let (value, den) := scaleTen i.value i.den (-exponent)
  let factor := if 0 ≤ -exponent then Nat.pow 10 (-exponent).toNat else 1
  let low := i.low * factor
  let high := i.high * factor
  let floor := value / den
  let down := if i.closed then low ≤ floor * den else low < floor * den
  let up := if i.closed then (floor + 1) * den ≤ high else (floor + 1) * den < high
  if down && up then
    if 2 * (value % den) < den then some floor else some (floor + 1)
  else if down then some floor
  else if up then some (floor + 1)
  else none

def search (i : Interval) (k : Int) (n : Nat) : Decimal :=
  match onGrid i (k - n) with
  | some digits => ⟨digits, k - n⟩
  | none =>
    if n < 17 then search i k (n + 1)
    else ⟨(scaleTen i.value i.den (n - k)).1 / (scaleTen i.value i.den (n - k)).2, k - n⟩
termination_by 17 - n

/-- Removes factors of ten; a number below `10 ^ fuel` has fewer than `fuel` of them. -/
def trim (fuel : Nat) (d : Decimal) : Decimal :=
  match fuel with
  | 0 => d
  | fuel + 1 =>
    if d.digits ≠ 0 ∧ d.digits % 10 = 0 then trim fuel ⟨d.digits / 10, d.exponent + 1⟩ else d

def shortest (bits : Bits) : Decimal :=
  let i := interval bits
  trim 18 (search i (magnitudeOf i.value i.den) 1)

end ScriptIr.Number
