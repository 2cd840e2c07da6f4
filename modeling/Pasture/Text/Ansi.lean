/-! # Colour sequences

The escape sequences that colour a terminal, and their removal. A sequence is the escape character,
an opening bracket, any number of digits, semicolons and question marks, and a letter.
-/
namespace Pasture.Text

def escapeChar : Char := '\x1b'

inductive Paint where
  | red | yellow | cyan | blue | bold
  deriving DecidableEq, Repr

def Paint.code : Paint → String
  | red => "\x1b[1;31m"
  | yellow => "\x1b[1;33m"
  | cyan => "\x1b[1;36m"
  | blue => "\x1b[1;34m"
  | bold => "\x1b[1m"

def Paint.on (p : Paint) (color : Bool) (text : String) : String :=
  if color then p.code ++ text ++ "\x1b[0m" else text

/-- What is open between two characters: nothing, the escape character, or the characters of a
sequence that has not come to its letter, the last first. -/
inductive Sequence where
  | nothing
  | escape
  | parameters (read : List Char)
  deriving DecidableEq, Repr

def isParameter (c : Char) : Bool := c.isDigit || c = ';' || c = '?'

def stripFrom : Sequence → List Char → List Char
  | .nothing, [] => []
  | .escape, [] => [escapeChar]
  | .parameters read, [] => escapeChar :: '[' :: read.reverse
  | .nothing, c :: cs =>
    if c = escapeChar then stripFrom .escape cs else c :: stripFrom .nothing cs
  | .escape, c :: cs =>
    if c = '[' then stripFrom (.parameters []) cs
    else if c = escapeChar then escapeChar :: stripFrom .escape cs
    else escapeChar :: c :: stripFrom .nothing cs
  | .parameters read, c :: cs =>
    if isParameter c then stripFrom (.parameters (c :: read)) cs
    else if c.isAlpha then stripFrom .nothing cs
    else
      escapeChar :: '[' :: read.reverse ++
        (if c = escapeChar then stripFrom .escape cs else c :: stripFrom .nothing cs)

def stripAnsi (text : String) : String := String.ofList (stripFrom .nothing text.toList)

example : stripAnsi "a\x1b[1;31mb\x1b[0mc\x1b[9\x1b[2" = "abc\x1b[9\x1b[2" := by decide +kernel

end Pasture.Text
