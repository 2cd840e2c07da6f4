/-! # Binary floating-point numbers of 64 bits

A finite number is a sign, a significand and a power of two. Numbers are built in normal form: the
significand is below 2^53, the exponent lies between -1074 and 971, and a significand below 2^52
has the exponent -1074, so that one number has one form (the two zeros apart).
-/
namespace Pasture

inductive Binary64 where
  | nan
  | infinity (negative : Bool)
  | finite (negative : Bool) (significand : Nat) (exponent : Int)
  deriving DecidableEq, Repr

namespace Binary64

/-- The two zeros are one number, and a NaN differs from every number, itself included. -/
instance : BEq Binary64 where
  beq
    | .infinity s, .infinity t => s == t
    | .finite s m e, .finite t n f => m == n && (m == 0 || s == t && e == f)
    | _, _ => false

def implicitBit : Nat := 0x10000000000000

def zero (negative : Bool) : Binary64 := .finite negative 0 (-1074)

/-- The whole number nearest to `num / den`; of two equally near, the even one. -/
def roundDiv (num den : Nat) : Nat :=
  let q := num / den
  let r := num % den
  if den < 2 * r ∨ (2 * r = den ∧ q % 2 = 1) then q + 1 else q

def unscale (num den : Nat) (e : Int) : Nat × Nat :=
  if 0 ≤ e then (num, den * Nat.pow 2 e.toNat) else (num * Nat.pow 2 (-e).toNat, den)

/-- The greatest `e` with `2 ^ e ≤ num / den`, for a positive fraction. -/
def binade (num den : Nat) : Int :=
  let e : Int := num.log2 - den.log2
  let scaled := unscale num den e
  if scaled.2 ≤ scaled.1 then e else e - 1

def ofRatio (negative : Bool) (num den : Nat) : Binary64 :=
  if num = 0 then zero negative else
  let e := max (binade num den - 52) (-1074)
  let scaled := unscale num den e
  let m := roundDiv scaled.1 scaled.2
  let (m, e) := if m = 2 * implicitBit then (implicitBit, e + 1) else (m, e)
  if 971 < e then .infinity negative else .finite negative m e

/-- The number nearest to `digits * 10 ^ exponent`. A nonzero decimal from 10^400 on is infinite
and one below 10^(-400) is zero, which spares the powers of ten of an extreme exponent. -/
def ofDecimal (negative : Bool) (digits : Nat) (exponent : Int) : Binary64 :=
  if digits = 0 then zero negative
  else if 400 < exponent then .infinity negative
  else if exponent + digits.log2 < -400 then zero negative
  else if 0 ≤ exponent then ofRatio negative (digits * Nat.pow 10 exponent.toNat) 1
  else ofRatio negative digits (Nat.pow 10 (-exponent).toNat)

example : ofDecimal false 1 (-1) = .finite false 0x1999999999999a (-56) ∧
    ofDecimal false 17976931348623157 292 = .finite false (2 * implicitBit - 1) 971 ∧
    ofDecimal false 17976931348623159 292 = .infinity false ∧
    ofDecimal true 3 (-324) = .finite true 1 (-1074) ∧
    ofDecimal true 2 (-324) = zero true := by
  decide +kernel

end Binary64
end Pasture
