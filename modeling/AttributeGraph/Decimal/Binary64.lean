/-
Finite binary floating-point numbers as exact values.

A finite number of 64 bits is `significand * 2 ^ exponent` with a sign.
`Binary64.ofFloat?` reads the three parts off the bits, and `toNat?` says which
numbers are natural numbers and which one each of them is.
-/

namespace AttributeGraph.Decimal

/-- The parts of a finite number: its value is `significand * 2 ^ exponent`, negated if the sign
is set. -/
structure Binary64 where
  negative : Bool
  significand : Nat
  exponent : Int
deriving DecidableEq

namespace Binary64

/-- The parts of a number given by its 64 bits; none for the infinities and for what is no
number. -/
def ofBits? (bits : UInt64) : Option Binary64 :=
  let b : Nat := bits.toNat
  let negative : Bool := b / Nat.pow 2 63 == 1
  let biased : Nat := b / Nat.pow 2 52 % Nat.pow 2 11
  let fraction : Nat := b % Nat.pow 2 52
  if biased = 2047 then none
  else if biased = 0 then some ⟨negative, fraction, -1074⟩
  else some ⟨negative, fraction + Nat.pow 2 52, (biased : Int) - 1075⟩

/-- The parts of a floating-point number. -/
def ofFloat? (x : Float) : Option Binary64 := ofBits? x.toBits

/-- The whole part of the size of a number. -/
def wholePart (x : Binary64) : Nat :=
  if 0 ≤ x.exponent then x.significand * Nat.pow 2 x.exponent.toNat
  else x.significand / Nat.pow 2 (-x.exponent).toNat

/-- The natural number that a number is, if it is one. -/
def toNat? (x : Binary64) : Option Nat :=
  if x.significand = 0 then some 0
  else if x.negative then none
  else if 0 ≤ x.exponent then some (x.significand * Nat.pow 2 x.exponent.toNat)
  else
    let scale := Nat.pow 2 (-x.exponent).toNat
    if x.significand % scale = 0 then some (x.significand / scale) else none

end Binary64

end AttributeGraph.Decimal
