import Pasture.Text.Character

/-! # Quoted text

A text is shown between quotes on one line, in characters that can be seen. The quote is an
apostrophe unless the text has an apostrophe and no double quote. The quote itself, the backslash
and three control characters have an escape of two characters; every other hidden character is
written by its code in lower-case hexadecimal, with two, four or eight digits.
-/
namespace Pasture.Text.Quoted

def hex (width n : Nat) : List Char :=
  let digits := Nat.toDigits 16 n
  List.replicate (width - digits.length) '0' ++ digits

def escape (quote c : Char) : List Char :=
  if c = quote ∨ c = '\\' then ['\\', c]
  else if c = '\n' then ['\\', 'n']
  else if c = '\r' then ['\\', 'r']
  else if c = '\t' then ['\\', 't']
  else if isPrintable c then [c]
  else if c.toNat < 0x100 then '\\' :: 'x' :: hex 2 c.toNat
  else if c.toNat < 0x10000 then '\\' :: 'u' :: hex 4 c.toNat
  else '\\' :: 'U' :: hex 8 c.toNat

def quoteOf (text : List Char) : Char :=
  if '\'' ∈ text ∧ '"' ∉ text then '"' else '\''

def encodeChars (text : List Char) : List Char :=
  let quote := quoteOf text
  quote :: text.flatMap (escape quote) ++ [quote]

def encode (text : String) : String :=
  String.ofList (encodeChars text.toList)

def encodeList (texts : List String) : String :=
  "[" ++ ", ".intercalate (texts.map encode) ++ "]"

/-- Quoted texts between round brackets; a comma follows a text that stands alone. -/
def encodeTuple : List String → String
  | [text] => "(" ++ encode text ++ ",)"
  | texts => "(" ++ ", ".intercalate (texts.map encode) ++ ")"

example : encode "it's" = "\"it's\"" ∧ encode "'\"" = "'\\'\"'" ∧ encode "\x00é\n" = "'\\x00é\\n'" := by
  decide +kernel

end Pasture.Text.Quoted
