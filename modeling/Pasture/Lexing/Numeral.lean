import Pasture.Diagnostic.ParseError

/-! # Numerals

A numeral is a run of digits, perhaps a point and a second run, perhaps an exponent. Underscores may
stand anywhere in a run and mean nothing. It denotes an integer if it has neither point nor
exponent, and the nearest binary number otherwise.

What stops the reading of a text in the middle is a fault. It is placed relative to the lexeme in
which it is found, so that reading needs no positions.
-/
namespace Pasture.Lexing

inductive Fault where
  /-- `before` is the text between the start of the lexeme and the place of the fault. -/
  | malformed (cause : LexicalCause) (before : List Char)
  | digitLimit (digits : Nat)
  deriving DecidableEq, Repr

/-- The failure to report if the lexeme starts at `place`. -/
def Fault.failure (file : String) (place : Position) : Fault → Failure
  | malformed cause before => .rejected (.lexical file cause (place.advance before))
  | digitLimit digits => .digitLimit digits

def isRunChar (c : Char) : Bool := c.isDigit || c = '_'

structure Exponent where
  mark : Char
  sign : Option Char
  run : List Char
  deriving DecidableEq, Repr

structure Numeral where
  whole : List Char
  fraction : Option (List Char) := none
  exponent : Option Exponent := none
  deriving DecidableEq, Repr

def Exponent.text (e : Exponent) : List Char := e.mark :: e.sign.toList ++ e.run

def digitsOf (run : List Char) : List Char := run.filter Char.isDigit

def valueOf (digits : List Char) : Nat := Nat.ofDigitChars 10 digits 0

def Exponent.value (e : Exponent) : Int :=
  let n : Int := valueOf (digitsOf e.run)
  if e.sign = some '-' then -n else n

def maxInteger : Nat := 0x7fffffffffffffff

namespace Numeral

def text (n : Numeral) : List Char :=
  n.whole ++ (n.fraction.map ('.' :: ·)).getD [] ++ (n.exponent.map Exponent.text).getD []

def literal (n : Numeral) : Except Fault Literal :=
  match n.fraction, n.exponent with
  | none, none =>
    let digits := digitsOf n.whole
    if maxDigits < digits.length then .error (.digitLimit digits.length)
    else if maxInteger < valueOf digits then .error (.malformed (.outOfRange digits) [])
    else .ok (.integer (valueOf digits))
  | fraction, exponent =>
    let whole := digitsOf n.whole
    let part := digitsOf (fraction.getD [])
    let power := (exponent.map Exponent.value).getD 0
    .ok (.float (.ofDecimal false (valueOf (whole ++ part)) (power - part.length)))

def signAt : List Char → Option Char × List Char
  | '+' :: cs => (some '+', cs)
  | '-' :: cs => (some '-', cs)
  | cs => (none, cs)

/-- Completes a numeral by the exponent that follows it, if one does. -/
def withExponent (n : Numeral) : List Char → Except Fault (Numeral × List Char)
  | [] => .ok (n, [])
  | c :: cs =>
    if c = 'e' ∨ c = 'E' then
      let (sign, rest) := signAt cs
      let n := { n with exponent := some ⟨c, sign, rest.takeWhile isRunChar⟩ }
      if (rest.takeWhile isRunChar).any Char.isDigit then .ok (n, rest.dropWhile isRunChar)
      else .error (.malformed .missingExponent n.text)
    else .ok (n, c :: cs)

def read (cs : List Char) : Except Fault (Numeral × List Char) :=
  let whole := cs.takeWhile isRunChar
  match cs.dropWhile isRunChar with
  | '.' :: rest =>
    let fraction := rest.takeWhile isRunChar
    match rest.dropWhile isRunChar with
    | '.' :: _ => .error (.malformed .extraPoint (whole ++ '.' :: fraction))
    | rest => withExponent { whole, fraction := some fraction } rest
  | rest => withExponent { whole } rest

theorem signAt_append (cs : List Char) : (signAt cs).1.toList ++ (signAt cs).2 = cs := by
  unfold signAt; split <;> rfl

theorem withExponent_append {n m : Numeral} {cs rest : List Char} (hn : n.exponent = none)
    (h : withExponent n cs = .ok (m, rest)) : m.text ++ rest = n.text ++ cs := by
  cases cs with
  | nil => simp_all [withExponent]
  | cons c cs =>
    simp only [withExponent] at h
    split at h
    · split at h
      · cases h
        have hs := signAt_append cs
        simp [text, hn, Exponent.text, hs, List.takeWhile_append_dropWhile]
      · cases h
    · cases h; rfl

theorem read_append {cs rest : List Char} {n : Numeral} (h : read cs = .ok (n, rest)) :
    n.text ++ rest = cs := by
  have hc := List.takeWhile_append_dropWhile (p := isRunChar) (l := cs)
  unfold read at h
  split at h
  · rename_i r hr
    have hd := List.takeWhile_append_dropWhile (p := isRunChar) (l := r)
    split at h
    · cases h
    · have := withExponent_append rfl h
      simp_all [text]
  · have := withExponent_append rfl h
    simp_all [text]

theorem withExponent_keeps {n m : Numeral} {cs rest : List Char}
    (h : withExponent n cs = .ok (m, rest)) : m.whole = n.whole ∧ m.fraction = n.fraction := by
  cases cs with
  | nil => simp_all [withExponent]
  | cons c cs =>
    simp only [withExponent] at h
    split at h
    · split at h <;> cases h
      exact ⟨rfl, rfl⟩
    · cases h; exact ⟨rfl, rfl⟩

theorem text_ne_nil_of_read {c : Char} {cs rest : List Char} {n : Numeral}
    (h : read (c :: cs) = .ok (n, rest)) (hc : isRunChar c ∨ c = '.') : n.text ≠ [] := by
  unfold read at h
  split at h
  · split at h
    · cases h
    · have := withExponent_keeps h
      simp [text, this.2]
  · rename_i hdot
    have := withExponent_keeps h
    rcases hc with hc | rfl
    · simp [text, this.1, hc]
    · exact absurd (List.dropWhile_cons_of_neg (by decide)) (hdot cs)

end Numeral
end Pasture.Lexing
