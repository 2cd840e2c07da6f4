import Pasture.Grammar.Parser
import Pasture.Tree.Module

/-! # The grammar of expressions

The binary and prefix operators are ordered in rows from the loosest to the tightest; one function
climbs the rows down to the atoms. Every rule is handed a parser of nested expressions and a bound
on the number of tokens left, which bounds its loops as well. The knot is tied on that bound: a
nested expression has at least one token less.
-/
namespace Pasture

inductive Fixity where
  | left | right | pre
  deriving DecidableEq, Repr

def Fixity.name : Fixity → String
  | left => "left"
  | right => "right"
  | pre => "prefix"

structure PrecedenceRow where
  fixity : Fixity
  operators : List Operator
  deriving DecidableEq, Repr

/-- From the operators that bind loosest to those that bind tightest. -/
def precedence : List PrecedenceRow :=
  [⟨.left, [.or]⟩,
    ⟨.left, [.and]⟩,
    ⟨.left, [.bitOr]⟩,
    ⟨.left, [.bitXor]⟩,
    ⟨.left, [.bitAnd]⟩,
    ⟨.left, [.equal, .notEqual]⟩,
    ⟨.left, [.less, .lessEqual, .greater, .greaterEqual]⟩,
    ⟨.left, [.shiftLeft, .shiftRight]⟩,
    ⟨.left, [.plus, .minus]⟩,
    ⟨.left, [.times, .divide, .modulo]⟩,
    ⟨.pre, [.plus, .minus, .not, .bitNot]⟩,
    ⟨.right, [.power]⟩]

namespace Grammar

open Pasture.Parser

def leftChain (ops : List Operator) (operand : Parser Expr) : Nat → Expr → Parser Expr
  | 0, left => pure left
  | n + 1, left => do
    match ← operatorIn ops with
    | some op =>
      let right ← operand
      leftChain ops operand n (.binary left op right)
    | none => return left

def rightChain (ops : List Operator) (operand : Parser Expr) : Nat → Parser Expr
  | 0 => operand
  | n + 1 => do
    let left ← operand
    match ← operatorIn ops with
    | some op => return .binary left op (← rightChain ops operand n)
    | none => return left

/-- A row of prefix operators; no other operator may start an operand. -/
def prefixChain (ops : List Operator) (operand : Parser Expr) : Nat → Parser Expr
  | 0 => operand
  | n + 1 => do
    if ← sees .operator then
      match ← operatorIn ops with
      | some op => return .unary op (← prefixChain ops operand n)
      | none => fail .notUnary
    else operand

def climb (atom : Parser Expr) (n : Nat) : List PrecedenceRow → Parser Expr
  | [] => atom
  | row :: rows =>
    match row.fixity with
    | .left => do
      let first ← climb atom n rows
      leftChain row.operators (climb atom n rows) n first
    | .right => rightChain row.operators (climb atom n rows) n
    | .pre => prefixChain row.operators (climb atom n rows) n

/-- One item of a bracketed list; an empty slot is refused. -/
def listItem (nested : Parser Expr) (close : Symbol) (what : Expectation) : Parser Expr := do
  if ← seesAny [.symbol .comma, .symbol close] then fail (.expected what)
  else nested

def arguments (nested : Parser Expr) (n : Nat) : Parser (List Expr) :=
  listItems .rparen .argumentsClose (listItem nested .rparen .argument) n

def elements (nested : Parser Expr) (n : Nat) : Parser (List Expr) :=
  listItems .rbracket .elementsClose (listItem nested .rbracket .element) n

def bound (nested : Parser Expr) (next : Symbol) : Parser (Option Expr) := do
  if ← sees (.symbol next) then return none
  else return some (← nested)

/-- What follows an opening bracket behind an array: `i]`, `a:b]`, `a:]`, `:b]` or `:]`. -/
def index (nested : Parser Expr) : Parser (Index Expr) := do
  match ← bound nested .colon, ← skip (.symbol .colon) with
  | some value, false =>
    expect (.symbol .rbracket) .indexClose
    return .single value
  | start, _ =>
    let stop ← bound nested .rbracket
    expect (.symbol .rbracket) .sliceClose
    return .slice start stop

def indices (nested : Parser Expr) : Nat → Expr → Parser Expr
  | 0, base => pure base
  | n + 1, base => do
    if ← skip (.symbol .lbracket) then
      let i ← index nested
      indices nested n (.element base i)
    else return base

def primary (nested : Parser Expr) (n : Nat) : Parser Expr := do
  match (← current).map Token.lexeme with
  | some (.literal value) =>
    let _ ← advance
    return .literal value
  | some (.symbol .lparen) =>
    let _ ← advance
    let inner ← nested
    expect (.symbol .rparen) .groupClose
    return .group inner
  | some (.symbol .lbracket) =>
    let _ ← advance
    return .array (← elements nested n)
  | some (.identifier i) =>
    let _ ← advance
    if ← skip (.symbol .lparen) then return .call i (← arguments nested n)
    else return .name i
  | _ => fail (.expected .expression)

def atomOver (nested : Parser Expr) (n : Nat) : Parser Expr := do
  let base ← primary nested n
  indices nested n base

def expressionOver (nested : Parser Expr) (n : Nat) : Parser Expr := do
  let condition ← climb (atomOver nested n) n precedence
  if ← skip (.symbol .question) then
    let whenTrue ← nested
    expect (.symbol .colon) .ternaryColon
    let whenFalse ← nested
    return .ternary condition whenTrue whenFalse
  else return condition

/-- The expressions of a stream of at most `n` tokens. -/
def expressionWithin : Nat → Parser Expr
  | 0 => fail (.expected .expression)
  | n + 1 => expressionOver (expressionWithin n) (n + 1)

def expression : Parser Expr := fun ends ts => expressionWithin ts.length ends ts

def atom : Parser Expr := fun ends ts =>
  atomOver (expressionWithin (ts.length - 1)) ts.length ends ts

end Grammar
end Pasture
