import Pasture.Decimal.Binary64

/-! # The fewest digits that read back

Every decimal in the interval of reals nearest to a number reads back as that number. On the grid
of the decimals with a given number of digits it suffices to try the two neighbours of the number:
if any point of the grid lies in the interval, one of them does. The first grid with a hit wins; of
two hits the nearer, and of two equally near the even one.
-/
namespace Pasture.Decimal

/-- The interval of reals that are nearest to a positive number, as numerators over one
denominator. The ends belong to it if the significand is even. -/
structure Interval where
  low : Nat
  value : Nat
  high : Nat
  den : Nat
  closed : Bool
  deriving DecidableEq, Repr

namespace Interval

/-- The lower neighbour of a power of two is only half as far away as the upper one. -/
def ofBinary (significand : Nat) (exponent : Int) : Interval :=
  let reach := if significand = Binary64.implicitBit ∧ -1074 < exponent then 1 else 2
  let unit := Binary64.unscale 1 1 (2 - exponent)
  { low := (4 * significand - reach) * unit.1
    value := 4 * significand * unit.1
    high := (4 * significand + 2) * unit.1
    den := unit.2
    closed := significand % 2 = 0 }

def holds (i : Interval) (num den : Nat) : Bool :=
  if i.closed then i.low * den ≤ num * i.den && num * i.den ≤ i.high * den
  else i.low * den < num * i.den && num * i.den < i.high * den

end Interval

def powerOfTen (p : Int) : Nat × Nat :=
  if 0 ≤ p then (Nat.pow 10 p.toNat, 1) else (1, Nat.pow 10 (-p).toNat)

def decade (num den : Nat) : Int :=
  let guess := (Binary64.binade num den * 30103).fdiv 100000
  let reaches (e : Int) : Bool :=
    let ten := powerOfTen e
    ten.1 * den ≤ num * ten.2
  if reaches (guess + 1) then guess + 1 else if reaches guess then guess else guess - 1

/-- The neighbour of the number on the grid of the multiples of `10 ^ p` that lies in the interval,
if there is one. -/
def onGrid (i : Interval) (p : Int) : Option Nat :=
  let ten := powerOfTen p
  let below := i.value * ten.2 / (i.den * ten.1)
  let rest := i.value * ten.2 % (i.den * ten.1)
  let hitBelow := i.holds (below * ten.1) ten.2
  let hitAbove := i.holds ((below + 1) * ten.1) ten.2
  if hitBelow && hitAbove then
    some (if 2 * rest < i.den * ten.1 ∨ (2 * rest = i.den * ten.1 ∧ below % 2 = 0) then below
      else below + 1)
  else if hitBelow then some below
  else if hitAbove then some (below + 1)
  else none

/-- The digits and the power of ten of the shortest decimal that reads back as the positive number
`significand * 2 ^ exponent`. Seventeen digits always suffice. -/
def shortest (significand : Nat) (exponent : Int) : List Char × Int :=
  let i := Interval.ofBinary significand exponent
  let top := decade i.value i.den
  let hit := (List.range 17).findSome? fun (k : Nat) =>
    let p := top - k
    (onGrid i p).map fun d => (d, p)
  let (d, p) := hit.getD (0, 0)
  let digits := Nat.toDigits 10 d
  let kept := (digits.reverse.dropWhile (· == '0')).reverse
  (kept, p + (digits.length - kept.length))

end Pasture.Decimal
