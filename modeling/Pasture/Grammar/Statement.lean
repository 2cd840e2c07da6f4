import Pasture.Grammar.Expression
import Pasture.Tree.Module

/-! # The grammar of statements

A simple statement is first cut out of the stream, up to the newline, the closing brace or the end
behind it, and then parsed on its own. Branches and loops have blocks and are parsed from the stream
itself.
-/
namespace Pasture.Grammar

open Pasture.Parser

/-- The tokens of a statement, and what is left behind it; `none` if the stream has no end for it. A
newline ends the statement and is taken, unless brackets are open, and then it is dropped. A closing
brace or the end of the input ends the statement and stays. -/
def cutStatement (depth : Nat) : List Token → Option (List Token × List Token)
  | [] => none
  | t :: ts =>
    match t.lexeme with
    | .symbol .rbrace | .endOfInput => some ([], t :: ts)
    | .newline => if depth = 0 then some ([], ts) else cutStatement depth ts
    | .symbol .lparen | .symbol .lbracket =>
      (cutStatement (depth + 1) ts).map fun (run, rest) => (t :: run, rest)
    | .symbol .rparen | .symbol .rbracket =>
      (cutStatement (depth - 1) ts).map fun (run, rest) => (t :: run, rest)
    | _ => (cutStatement depth ts).map fun (run, rest) => (t :: run, rest)

def statementTokens : Parser (List Token) := fun ends ts =>
  match cutStatement 0 ts with
  | some (run, rest) => .ok run rest
  | none => .error (.syntactic (.expected .statementEnd) ends none) []

def statementEnd : Parser Unit := do
  unless ← exhausted do fail .unrecognised

def result : Parser Statement := do
  if ← exhausted then return .result none
  let value ← expression
  statementEnd
  return .result (some value)

def declaration (left : Expr) (colon : Token) (isMutable : Bool) : Parser Statement := do
  match left with
  | .name ⟨name, []⟩ =>
    let type ← identifier .typeName
    expect (.symbol .assign) .initialiser
    let value ← expression
    return .declaration (.simple name) type value isMutable
  | _ => refuse (some colon) (.expected .declaredName)

/-- What follows the sign of an assignment to `left`; `a op= b` assigns `a op b`. -/
def assignment (left : Expr) (sign : Token) : Parser Statement := do
  match left.reference? with
  | none => refuse (some sign) (.expected .reference)
  | some target =>
    let right ← expression
    match sign.lexeme with
    | .fused op => return .assignment target (.binary left op right)
    | _ => return .assignment target right

def typeHint (left : Expr) : Suggestion :=
  let target := match left with
    | .name i => i.text
    | _ => "name"
  ⟨"declare the type", "var " ++ target ++ ": <type> = ..."⟩

/-- What follows `sign` behind `left`; `isMutable` tells that `var` has been taken. -/
def signed (left : Expr) (sign : Token) (isMutable : Bool) : Parser Statement :=
  match sign.lexeme with
  | .symbol .colon => declaration left sign isMutable
  | .symbol .assign | .fused _ =>
    if isMutable then refuse (some sign) .untyped [typeHint left]
    else assignment left sign
  | _ => refuse (some sign) .unrecognised

def plainStatement (isMutable : Bool) : Parser Statement := do
  let left ← expression
  match ← current with
  | none =>
    if isMutable then fail (.expected .declaredType)
    else return .expression left
  | some t =>
    let _ ← advance
    let statement ← signed left t isMutable
    statementEnd
    return statement

def simpleStatement : Parser Statement := do
  if ← skip (.keyword .result) then result
  else plainStatement (← skip (.keyword .mutable))

def statement : Parser Statement := do
  let tokens ← statementTokens
  match simpleStatement.run tokens with
  | .ok s _ => return s
  | .error e _ => throw e

/-- Whether `else` is the next token that is no newline. -/
def elseFollows : Parser Bool := fun _ ts =>
  .ok ((ts.dropWhile Token.isNewline).head?.any fun t => t.kind = .keyword .otherwise) ts

def branchOver (block : Parser (List Statement)) : Nat → Parser Statement
  | 0 => fail (.expected .branchKeyword)
  | n + 1 => do
    expect (.keyword .branch) .branchKeyword
    let condition ← expression
    let body ← block
    if ← elseFollows then
      skipNewlines
      let _ ← advance
      if ← sees (.keyword .branch) then
        let inner ← branchOver block n
        return .branch condition body (some [inner])
      else return .branch condition body (some (← block))
    else return .branch condition body none

def loopOver (block : Parser (List Statement)) : Parser Statement := do
  expect (.keyword .loop) .loopKeyword
  let condition ← expression
  return .loop condition (← block)

def itemOver (block : Parser (List Statement)) (n : Nat) : Parser Statement := do
  if ← sees (.keyword .branch) then branchOver block n
  else if ← sees (.keyword .loop) then loopOver block
  else statement

def blockItems (item : Parser Statement) : Nat → Parser (List Statement)
  | 0 => fail (.expected .blockClose)
  | n + 1 => do
    skipNewlines
    if ← skip (.symbol .rbrace) then return []
    else if ← atEnd then fail (.expected .blockClose)
    else
      let s ← item
      return s :: (← blockItems item n)

def blockWithin : Nat → Parser (List Statement)
  | 0 => fail (.expected .blockOpen)
  | n + 1 => do
    expect (.symbol .lbrace) .blockOpen
    blockItems (itemOver (blockWithin n) n) n

def block : Parser (List Statement) := fun ends ts => blockWithin ts.length ends ts

def branch : Parser Statement := fun ends ts => branchOver block ts.length ends ts

def loop : Parser Statement := loopOver block

def item : Parser Statement := fun ends ts => itemOver block ts.length ends ts

end Pasture.Grammar
