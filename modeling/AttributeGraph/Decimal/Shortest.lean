/-
The shortest decimal digits that read back as a given floating-point number.

The reals that round to a number `x` fill an interval around it, ends included
exactly if the significand is even.  For one, two, three digits and so on, the
two neighbours of `x` on the decimal grid with that many digits are tested
against the interval; the first grid with a hit wins, and of two hits the nearer
one, a tie going to the even digit.  Every step is exact arithmetic on natural
numbers.
-/
import AttributeGraph.Decimal.Binary64

namespace AttributeGraph.Decimal

/-- A positive decimal number: its value is `0.d₁d₂… * 10 ^ point` for the given digits. -/
structure Digits where
  digits : List Char
  point : Int
deriving DecidableEq

/-- A positive real and the reals around it that round to it, all three over one denominator. -/
structure Rounding where
  low : Nat
  value : Nat
  high : Nat
  den : Nat
  /-- Whether the two ends round to the value too. -/
  closed : Bool
deriving DecidableEq

namespace Rounding

/-- The interval of a positive number.  Below a power of two the lower neighbour is nearer. -/
def ofBinary64 (x : Binary64) : Rounding :=
  let below := if x.significand = Nat.pow 2 52 ∧ -1074 < x.exponent then 1 else 2
  let shift := x.exponent - 2
  let scale := if 0 ≤ shift then Nat.pow 2 shift.toNat else 1
  { low := (4 * x.significand - below) * scale
    value := 4 * x.significand * scale
    high := (4 * x.significand + 2) * scale
    den := if 0 ≤ shift then 1 else Nat.pow 2 (-shift).toNat
    closed := x.significand % 2 == 0 }

/-- Where the decimal point of the value stands: the value is below `10 ^ point` and at least a
tenth of it. -/
def point (r : Rounding) : Int :=
  if r.den ≤ r.value then (Nat.toDigits 10 (r.value / r.den)).length
  else leading 400 r.value 0
where
  /-- Multiply by ten until the value reaches one. -/
  leading : Nat → Nat → Nat → Int
    | 0, _, zeros => 1 - (zeros : Int)
    | n + 1, v, zeros => if r.den ≤ v then 1 - (zeros : Int) else leading n (v * 10) (zeros + 1)

/-- The hit on the grid with `count` digits. -/
def onGrid? (r : Rounding) (point : Int) (count : Nat) : Option Nat :=
  let step := point - count
  let up := if 0 ≤ step then Nat.pow 10 step.toNat else 1
  let down := if 0 ≤ step then 1 else Nat.pow 10 (-step).toNat
  -- a grid point `k` stands for `k * up / down`, and is compared over `den * down`
  let height (k : Nat) : Nat := k * up * r.den
  let value := r.value * down
  let inside (k : Nat) : Bool :=
    if r.closed then r.low * down ≤ height k && height k ≤ r.high * down
    else r.low * down < height k && height k < r.high * down
  let floor := value / (up * r.den)
  let ceiling := floor + 1
  match inside floor, inside ceiling with
  | true, true =>
    let gapBelow := value - height floor
    let gapAbove := height ceiling - value
    if gapBelow < gapAbove then some floor
    else if gapAbove < gapBelow then some ceiling
    else if floor % 2 = 0 then some floor else some ceiling
  | true, false => some floor
  | false, true => some ceiling
  | false, false => none

/-- The first hit on the grids with `count`, `count + 1`, … digits, as digits and point. -/
def search (r : Rounding) (point : Int) : Nat → Nat → Digits
  | 0, _ => ⟨['0'], 1⟩
  | fuel + 1, count =>
    match r.onGrid? point count with
    | some k =>
      let digits := Nat.toDigits 10 k
      ⟨(digits.reverse.dropWhile (· == '0')).reverse, point - count + digits.length⟩
    | none => search r point fuel (count + 1)

end Rounding

/-- The shortest digits of a positive number; seventeen always suffice. -/
def shortest (x : Binary64) : Digits :=
  let r := Rounding.ofBinary64 x
  r.search r.point 17 1

end AttributeGraph.Decimal
