import Pasture.Decimal.Binary64
import Pasture.Text.Character

/-! # Numbers from free text

Numbers as people write them: between blanks, with a sign, in the decimal digits of any script, and
with single underscores between two digits.
-/
namespace Pasture.Decimal

def signAt : List Char → Bool × List Char
  | '-' :: cs => (true, cs)
  | '+' :: cs => (false, cs)
  | cs => (false, cs)

def signed (text : String) : Bool × List Char :=
  signAt ((Text.trimBlank text.toList).map Text.plainDigit)

/-- A run of digits in which single underscores may part two digits. -/
def digitRun? : List Char → Option (List Char × List Char)
  | [] => none
  | c :: '_' :: rest =>
    if c.isDigit then (digitRun? rest).map fun (ds, r) => (c :: ds, r) else none
  | c :: cs =>
    if c.isDigit then
      match digitRun? cs with
      | some (ds, r) => some (c :: ds, r)
      | none => some ([c], cs)
    else none

def integerDigits? (text : String) : Option (Bool × List Char) :=
  let (negative, body) := signed text
  match digitRun? body with
  | some (digits, []) => some (negative, digits)
  | _ => none

def integerOf (negative : Bool) (digits : List Char) : Int :=
  let n : Int := Nat.ofDigitChars 10 digits 0
  if negative then -n else n

/-- The exponent part of a decimal; the whole text has to be used up. -/
def exponentPart? : List Char → Option Int
  | [] => some 0
  | c :: cs =>
    if c = 'e' ∨ c = 'E' then
      let (negative, cs) := signAt cs
      match digitRun? cs with
      | some (ds, []) => some (integerOf negative ds)
      | _ => none
    else none

def unsigned? (negative : Bool) (text : List Char) : Option Binary64 :=
  let (whole, rest) := (digitRun? text).getD ([], text)
  let (fraction, rest) := match rest with
    | '.' :: r => (digitRun? r).getD ([], r)
    | r => ([], r)
  if whole.isEmpty && fraction.isEmpty then none
  else (exponentPart? rest).map fun e =>
    .ofDecimal negative (Nat.ofDigitChars 10 (whole ++ fraction) 0) (e - fraction.length)

def binary64? (text : String) : Option Binary64 :=
  let (negative, body) := signed text
  let word := String.ofList (body.map Char.toLower)
  if word = "inf" ∨ word = "infinity" then some (.infinity negative)
  else if word = "nan" then some .nan
  else unsigned? negative body

end Pasture.Decimal
