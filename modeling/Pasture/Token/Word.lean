/-! # Symbols and keywords

The fixed words of the language: single punctuation characters and reserved names.
-/
namespace Pasture

inductive Symbol where
  | lparen | rparen | lbrace | rbrace | lbracket | rbracket | comma | dot | colon | question | assign
  deriving DecidableEq, Repr

namespace Symbol

def all : List Symbol :=
  [lparen, rparen, lbrace, rbrace, lbracket, rbracket, comma, dot, colon, question, assign]

def char : Symbol → Char
  | lparen => '('
  | rparen => ')'
  | lbrace => '\x7b'
  | rbrace => '\x7d'
  | lbracket => '['
  | rbracket => ']'
  | comma => ','
  | dot => '.'
  | colon => ':'
  | question => '?'
  | assign => '='

def name : Symbol → String
  | lparen => "LPAREN"
  | rparen => "RPAREN"
  | lbrace => "LBRACE"
  | rbrace => "RBRACE"
  | lbracket => "LBRACKET"
  | rbracket => "RBRACKET"
  | comma => "COMMA"
  | dot => "DOT"
  | colon => "COLON"
  | question => "QUESTION"
  | assign => "ASSIGN"

def ofChar? (c : Char) : Option Symbol := all.find? fun s => s.char = c

theorem char_of_ofChar? {c : Char} {s : Symbol} (h : ofChar? c = some s) : s.char = c := by
  simpa using List.find?_some h

end Symbol

/-- The reserved names, called after what they introduce. -/
inductive Keyword where
  | importing | naming | origin | function | result | mutable | branch | otherwise | each | within | loop
  deriving DecidableEq, Repr

namespace Keyword

def all : List Keyword :=
  [importing, naming, origin, function, result, mutable, branch, otherwise, each, within, loop]

def spelling : Keyword → List Char
  | importing => ['u', 's', 'i', 'n', 'g']
  | naming => ['a', 's']
  | origin => ['f', 'r', 'o', 'm']
  | function => ['f', 'u', 'n']
  | result => ['r', 'e', 't', 'u', 'r', 'n']
  | mutable => ['v', 'a', 'r']
  | branch => ['i', 'f']
  | otherwise => ['e', 'l', 's', 'e']
  | each => ['f', 'o', 'r']
  | within => ['i', 'n']
  | loop => ['w', 'h', 'i', 'l', 'e']

def text (k : Keyword) : String := String.ofList k.spelling

def name : Keyword → String
  | importing => "USING"
  | naming => "AS"
  | origin => "FROM"
  | function => "FUN"
  | result => "RETURN"
  | mutable => "VAR"
  | branch => "IF"
  | otherwise => "ELSE"
  | each => "FOR"
  | within => "IN"
  | loop => "WHILE"

def ofWord? (word : List Char) : Option Keyword := all.find? fun k => k.spelling = word

@[simp] theorem ofWord?_spelling (k : Keyword) : ofWord? k.spelling = some k := by
  cases k <;> decide

theorem spelling_of_ofWord? {word : List Char} {k : Keyword} (h : ofWord? word = some k) :
    k.spelling = word := by
  simpa using List.find?_some h

end Keyword
end Pasture
