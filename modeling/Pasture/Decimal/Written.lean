import Pasture.Decimal.Shortest

/-! # Written numbers

How a binary number is written.
-/
namespace Pasture.Decimal

/-- The choices of a way to write numbers. A number whose first digit counts `10 ^ e` is written
positionally if `leastPositional ≤ e < positionalLimit`, with at least one digit after the point,
and with an exponent of at least `exponentWidth` digits otherwise. -/
structure Layout where
  leastPositional : Int
  positionalLimit : Int
  exponentWidth : Nat
  exponentMark : Char
  infinite : String
  undefined : String

/-- Numbers up to sixteen digits and small fractions are written out, others as in `1.5e-07`. -/
def layout : Layout where
  leastPositional := -4
  positionalLimit := 16
  exponentWidth := 2
  exponentMark := 'e'
  infinite := "inf"
  undefined := "nan"

def zeros (n : Nat) : List Char := List.replicate n '0'

def positional (digits : List Char) (whole : Int) : List Char :=
  if whole ≤ 0 then '0' :: '.' :: zeros (-whole).toNat ++ digits
  else
    let n := whole.toNat
    if digits.length ≤ n then digits ++ zeros (n - digits.length) ++ ['.', '0']
    else digits.take n ++ '.' :: digits.drop n

def scientific (l : Layout) (digits : List Char) (e : Int) : List Char :=
  let head := match digits with
    | d :: e :: ds => d :: '.' :: e :: ds
    | ds => ds
  let power := Nat.toDigits 10 e.natAbs
  head ++ l.exponentMark :: (if e < 0 then '-' else '+') ::
    zeros (l.exponentWidth - power.length) ++ power

/-- A positive number, given by its digits and the power of ten that the last of them counts. -/
def Layout.write (l : Layout) (digits : List Char) (power : Int) : List Char :=
  let e := power + digits.length - 1
  if l.leastPositional ≤ e ∧ e < l.positionalLimit then positional digits (e + 1)
  else scientific l digits e

end Pasture.Decimal

namespace Pasture.Binary64

open Decimal

def sign (negative : Bool) : String := if negative then "-" else ""

def text : Binary64 → String
  | .nan => layout.undefined
  | .infinity negative => sign negative ++ layout.infinite
  | .finite negative significand exponent =>
    if significand = 0 then sign negative ++ "0.0"
    else
      let (digits, power) := shortest significand exponent
      sign negative ++ String.ofList (layout.write digits power)

end Pasture.Binary64
