import Pasture.Grammar.Module

/-! # Cursors

A place in a stream of tokens. It is asked about the tokens around it and moved on by parsers, among
them those for the parts of the grammar. A parser that fails may have moved it too.
-/
namespace Pasture

structure Cursor where
  tokens : List Token
  position : Nat := 0
  deriving DecidableEq, Repr

inductive Entry where
  | atom
  | expression
  | statement
  | item
  | block
  | branch
  | loop
  | function
  | imports
  | moduleNamed (name : String)
  | statementTokens
  deriving DecidableEq, Repr

namespace Entry

abbrev Result : Entry → Type
  | atom | expression => Expr
  | statement | item | branch | loop => Statement
  | block => List Statement
  | function => Function
  | imports => List Import
  | moduleNamed _ => Module
  | statementTokens => List Token

def parser : (e : Entry) → Parser e.Result
  | atom => Grammar.atom
  | expression => Grammar.expression
  | statement => Grammar.statement
  | item => Grammar.item
  | block => Grammar.block
  | branch => Grammar.branch
  | loop => Grammar.loop
  | function => Grammar.function
  | imports => Grammar.imports
  | moduleNamed name => Grammar.moduleNamed name
  | statementTokens => Grammar.statementTokens

end Entry

inductive Step where
  | current
  | peek (offset : Int)
  | sees (kind : Kind)
  | seesAny (kinds : List Kind)
  | atEnd
  | exhausted
  | operatorIn (operators : List Operator)
  | advance
  | take (kind : Kind) (complaint : Complaint)
  | skipNewlines
  | fail (complaint : Complaint) (found : Option Token) (suggestions : List Suggestion)
  | parse (entry : Entry)

namespace Step

abbrev Answer : Step → Type
  | current | peek _ => Option Token
  | sees _ | seesAny _ | atEnd | exhausted => Bool
  | operatorIn _ => Option Operator
  | advance | take _ _ => Token
  | skipNewlines => Unit
  | fail _ _ _ => Empty
  | parse e => e.Result

inductive Refusal where
  | rejected (e : ParseError)
  | outOfRange

end Step

namespace Cursor

def rest (c : Cursor) : List Token := c.tokens.drop c.position

/-- The index to which a distance from the cursor leads. In front of the stream it is counted from
the end, but only once: there is none before that. -/
def indexAt? (c : Cursor) (offset : Int) : Option Nat :=
  let i := (c.position : Int) + offset
  if 0 ≤ i then some i.toNat
  else if 0 ≤ i + c.tokens.length then some (i + c.tokens.length).toNat
  else none

def peek (c : Cursor) (offset : Int) : Option Token := do c.tokens[← c.indexAt? offset]?

example :
    let c : Cursor := { tokens := [.plain .newline none, .plain .endOfInput none], position := 1 }
    c.peek (-1) = some (.plain .newline none) ∧ c.peek (-2) = some (.plain .endOfInput none) ∧
      c.peek 1 = none ∧ c.indexAt? (-4) = none := by decide

def run {α : Type} (c : Cursor) (p : Parser α) : Except ParseError α × Cursor :=
  let stop (left : List Token) : Cursor := { c with position := c.tokens.length - left.length }
  match p (Token.endOf c.tokens) c.rest with
  | .ok value left => (.ok value, stop left)
  | .error e left => (.error e, stop left)

def answer {α : Type} (c : Cursor) (p : Parser α) : Except Step.Refusal α × Cursor :=
  let (result, stop) := c.run p
  (result.mapError .rejected, stop)

def step (c : Cursor) : (s : Step) → Except Step.Refusal s.Answer × Cursor
  | .current => c.answer Parser.current
  | .peek offset =>
    (if (c.indexAt? offset).isSome then .ok (c.peek offset) else .error .outOfRange, c)
  | .sees k => c.answer (Parser.sees k)
  | .seesAny ks => c.answer (Parser.seesAny ks)
  | .atEnd => c.answer Parser.atEnd
  | .exhausted => c.answer Parser.exhausted
  | .operatorIn ops => c.answer (Parser.operatorIn ops)
  | .advance => c.answer Parser.advance
  | .take k complaint => c.answer (Parser.take k complaint)
  | .skipNewlines => c.answer Parser.skipNewlines
  | .fail complaint none suggestions => c.answer (Parser.fail complaint suggestions)
  | .fail complaint (some t) suggestions => c.answer (Parser.refuse (some t) complaint suggestions)
  | .parse e => c.answer e.parser

/-- One step after another, refused or not. -/
def walk (c : Cursor) (steps : List Step) : Cursor :=
  steps.foldl (fun c s => (c.step s).2) c

end Cursor
end Pasture
