/-! # Operators

The operators of expressions, their spelling and their classes.
-/
namespace Pasture

inductive Operator where
  | plus | minus | times | divide | modulo | power
  | and | or | not
  | bitAnd | bitOr | bitXor | shiftLeft | shiftRight | bitNot
  | equal | notEqual | less | greater | lessEqual | greaterEqual
  deriving DecidableEq, Repr

namespace Operator

def all : List Operator :=
  [plus, minus, times, divide, modulo, power, and, or, not, bitAnd, bitOr, bitXor, shiftLeft,
    shiftRight, bitNot, equal, notEqual, less, greater, lessEqual, greaterEqual]

def spelling : Operator → List Char
  | plus => ['+']
  | minus => ['-']
  | times => ['*']
  | divide => ['/']
  | modulo => ['%']
  | power => ['*', '*']
  | and => ['&', '&']
  | or => ['|', '|']
  | not => ['!']
  | bitAnd => ['&']
  | bitOr => ['|']
  | bitXor => ['^']
  | shiftLeft => ['<', '<']
  | shiftRight => ['>', '>']
  | bitNot => ['~']
  | equal => ['=', '=']
  | notEqual => ['!', '=']
  | less => ['<']
  | greater => ['>']
  | lessEqual => ['<', '=']
  | greaterEqual => ['>', '=']

def text (op : Operator) : String := String.ofList op.spelling

def name : Operator → String
  | plus => "PLUS"
  | minus => "MINUS"
  | times => "TIMES"
  | divide => "DIVIDE"
  | modulo => "MODULO"
  | power => "POWER"
  | and => "AND"
  | or => "OR"
  | not => "NOT"
  | bitAnd => "BITWISE_AND"
  | bitOr => "BITWISE_OR"
  | bitXor => "BITWISE_XOR"
  | shiftLeft => "LEFT_SHIFT"
  | shiftRight => "RIGHT_SHIFT"
  | bitNot => "BITWISE_NOT"
  | equal => "EQUAL"
  | notEqual => "NOT_EQUAL"
  | less => "LESS"
  | greater => "GREATER"
  | lessEqual => "LESS_EQUAL"
  | greaterEqual => "GREATER_EQUAL"

def ofSpelling? (text : List Char) : Option Operator :=
  all.find? fun op => op.spelling = text

def isAssignable : Operator → Bool
  | plus | minus | times | divide | modulo | power | and | or
  | bitAnd | bitOr | bitXor | shiftLeft | shiftRight => true
  | _ => false

/-- The operator at the front of a text; one of two characters wins over one of a single. -/
def longest? (text : List Char) : Option Operator :=
  ofSpelling? (text.take 2) <|> ofSpelling? (text.take 1)

@[simp] theorem ofSpelling?_spelling (op : Operator) : ofSpelling? op.spelling = some op := by
  cases op <;> decide

theorem spelling_of_ofSpelling? {text : List Char} {op : Operator}
    (h : ofSpelling? text = some op) : op.spelling = text := by
  simpa using List.find?_some h

theorem spelling_ne_nil (op : Operator) : op.spelling ≠ [] := by cases op <;> decide

theorem spelling_prefix_of_longest? {text : List Char} {op : Operator}
    (h : longest? text = some op) : op.spelling <+: text := by
  unfold longest? at h
  cases h2 : ofSpelling? (text.take 2) with
  | some o =>
    rw [h2] at h
    cases h
    exact spelling_of_ofSpelling? h2 ▸ List.take_prefix 2 text
  | none =>
    rw [h2] at h
    exact spelling_of_ofSpelling? h ▸ List.take_prefix 1 text

end Operator
end Pasture
