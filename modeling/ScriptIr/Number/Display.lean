import ScriptIr.Number.Shortest

/-!
# Number text

Numbers in dumps and listings are written without an exponent, whatever their size. A number used as
the name of a property is written the way the language converts it to text: with an exponent from
`10 ^ 21` on and below `10 ^ -6`.
-/
namespace ScriptIr.Number

def zeros (n : Nat) : String := String.ofList (List.replicate n '0')

def positional (d : Decimal) : String :=
  let ds := Nat.toDigits 10 d.digits
  if 0 ≤ d.exponent then String.ofList ds ++ zeros d.exponent.toNat
  else
    let places := (-d.exponent).toNat
    if places < ds.length then
      String.ofList (ds.take (ds.length - places)) ++ "."
        ++ String.ofList (ds.drop (ds.length - places))
    else "0." ++ zeros (places - ds.length) ++ String.ofList ds

/-- A decimal with one digit before the point and an exponent, which has a sign only if `plus` is
set or it is negative. -/
def scientific (plus : Bool) (d : Decimal) : String :=
  let ds := Nat.toDigits 10 d.digits
  let exponent : Int := d.exponent + (ds.length - 1 : Nat)
  let mantissa :=
    match ds with
    | first :: rest => if rest.isEmpty then first.toString else first.toString ++ "." ++ String.ofList rest
    | [] => "0"
  let mark := if exponent < 0 then "e-" else if plus then "e+" else "e"
  mantissa ++ mark ++ toString exponent.natAbs

def display (bits : Bits) : String :=
  if isNaN bits then "NaN"
  else
    let sign := if isNegative bits then "-" else ""
    if isInfinite bits then sign ++ "inf"
    else if isZero bits then sign ++ "0"
    else sign ++ positional (shortest (magnitude bits))

def largeKey : Bits := powerOfTen 21

/-- Magnitudes below this are property names with an exponent. -/
def smallKey : Bits := ofRatio 1 (Nat.pow 10 6)

def propertyKey (bits : Bits) : String :=
  if isNaN bits then "NaN"
  else if isZero bits then "0"
  else
    let sign := if isNegative bits then "-" else ""
    let size := magnitude bits
    if isInfinite bits then sign ++ "Infinity"
    else if largeKey ≤ size || size < smallKey then sign ++ scientific true (shortest size)
    else sign ++ positional (shortest size)

end ScriptIr.Number
