/-
How a floating-point number is written.

The digits are the shortest ones that read back.  The notation is positional as
long as the point stands at most 21 places behind the first digit and at most
six zeros would follow it; other numbers have one digit before the point and a
signed exponent without padding.  The sign of zero is not written.
-/
import AttributeGraph.Decimal.Shortest

namespace AttributeGraph.Decimal

/-- A decimal number as text. -/
def Digits.toText (d : Digits) : String :=
  let count : Int := d.digits.length
  let zeros (n : Int) : List Char := List.replicate n.toNat '0'
  if count ≤ d.point ∧ d.point ≤ 21 then
    String.ofList (d.digits ++ zeros (d.point - count))
  else if 0 < d.point ∧ d.point ≤ 21 then
    String.ofList (d.digits.take d.point.toNat ++ '.' :: d.digits.drop d.point.toNat)
  else if -6 < d.point ∧ d.point ≤ 0 then
    String.ofList ('0' :: '.' :: zeros (-d.point) ++ d.digits)
  else
    let exponent := d.point - 1
    let sign := if exponent < 0 then "-" else "+"
    let mantissa := match d.digits with
      | [] => []
      | [c] => [c]
      | c :: rest => c :: '.' :: rest
    String.ofList mantissa ++ "e" ++ sign ++ toString exponent.natAbs

/-- A floating-point number as text. -/
def floatText (x : Float) : String :=
  match Binary64.ofFloat? x with
  | none => if x.isNaN then "NaN" else if x < 0 then "-Infinity" else "Infinity"
  | some b =>
    if b.significand = 0 then "0"
    else (if b.negative then "-" else "") ++ (shortest b).toText

/-- The number with the given decimal digits and exponent, rounded to the nearest. -/
def readFloat (negative : Bool) (mantissa : Nat) (exponent : Int) : Float :=
  let digits : Int := (Nat.toDigits 10 mantissa).length
  let size :=
    if mantissa = 0 ∨ digits + exponent < -400 then 0.0
    else if 400 < digits + exponent then 1.0 / 0.0
    else Float.ofScientific mantissa (decide (exponent < 0)) exponent.natAbs
  if negative then -size else size

end AttributeGraph.Decimal
