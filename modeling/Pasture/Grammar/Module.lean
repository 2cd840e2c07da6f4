import Pasture.Grammar.Statement
import Pasture.Lexing.Lex
import Pasture.Token.Normal

/-! # The grammar of modules

A module has at most one import block, then functions, then statements, and ends with the input.
-/
namespace Pasture.Grammar

open Pasture.Parser

def parameter : Parser Parameter := do
  let name ← identifier .parameter
  expect (.symbol .colon) .parameterColon
  let type ← identifier .parameterType
  return ⟨name, type⟩

def parameters : Parser (List Parameter) := do
  expect (.symbol .lparen) .parametersOpen
  fun ends ts => listItems .rparen .parametersClose parameter ts.length ends ts

/-- The type of a result, which may be left out with its colon. -/
def resultType : Parser (Option Identifier) := do
  if ← skip (.symbol .colon) then return some (← identifier .resultType)
  else return none

def function : Parser Function := do
  let name ← identifier .functionName
  let parameters ← parameters
  let resultType ← resultType
  let body ← block
  return { name, parameters, resultType, body }

def importedName : Parser (Identifier × Identifier) := do
  let name ← identifier .importedName
  if ← skip (.keyword .naming) then return (name, ← identifier .localName)
  else return (name, name)

def importedNames : Nat → Parser (List (Identifier × Identifier))
  | 0 => fail (.expected .importedName)
  | n + 1 => do
    let name ← importedName
    if ← skip (.symbol .comma) then return name :: (← importedNames n)
    else return [name]

/-- Names from one module; without `from` each name is a module itself. -/
def importEntry (n : Nat) : Parser (List Import) := do
  let names ← importedNames n
  if ← skip (.keyword .origin) then
    let origin ← identifier .origin
    return names.map fun (name, localName) => ⟨name, localName, origin⟩
  else return names.map fun (name, localName) => ⟨name, localName, name⟩

def importEntries : Nat → Parser (List Import)
  | 0 => fail (.expected .importedName)
  | n + 1 => do
    skipNewlines
    if ← skip (.symbol .rbrace) then return []
    else
      let entry ← importEntry (n + 1)
      if ← skip .newline then return entry ++ (← importEntries n)
      else if ← sees (.symbol .rbrace) then return entry ++ (← importEntries n)
      else fail (.expected .importEnd)

def imports : Parser (List Import) := do
  expect (.symbol .lbrace) .importsOpen
  fun ends ts => importEntries ts.length ends ts

/-- How far a module has come: what is at the top of it may still follow only at the opening, and
functions until the first statement. -/
inductive Stage where
  | opening | definitions | statements
  deriving DecidableEq, Repr

structure Contents where
  imports : List Import := []
  functions : List Function := []
  statements : List Statement := []

def contents : Nat → Stage → Parser Contents
  | 0, _ => fail (.expected .moduleEnd)
  | n + 1, stage => do
    match (← current).map Token.lexeme with
    | none => fail (.expected .moduleEnd)
    | some .newline =>
      let _ ← advance
      contents n stage
    | some .endOfInput =>
      let _ ← advance
      return {}
    | some (.keyword .importing) =>
      if stage = .opening then
        let _ ← advance
        let found ← imports
        let rest ← contents n .definitions
        return { rest with imports := found ++ rest.imports }
      else fail .misplacedImports
    | some (.keyword .function) =>
      if stage = .statements then fail .misplacedFunction
      else
        let _ ← advance
        let f ← function
        let rest ← contents n .definitions
        return { rest with functions := f :: rest.functions }
    | some (.symbol .rbrace) => fail (.expected .statement)
    | some _ =>
      let s ← item
      let rest ← contents n .statements
      return { rest with statements := s :: rest.statements }

def moduleWithin (name : String) (n : Nat) : Parser Module := do
  let c ← contents n .opening
  return {
    name := .simple name
    imports := c.imports
    functions := c.functions
    statements := c.statements }

/-- A module, up to and including the end of the input. -/
def moduleNamed (name : String) : Parser Module :=
  fun ends ts => moduleWithin name ts.length ends ts

end Pasture.Grammar

namespace Pasture

def tokenise (source file : String) : Except Failure (List Token) := do
  let tokens ← Lexing.lex source file
  (normalise tokens).mapError .rejected

def parseTokens (tokens : List Token) (name : String) : Except ParseError Module :=
  match (Grammar.moduleNamed name).run tokens with
  | .ok m _ => .ok m
  | .error e _ => .error e

def parseSource (source file name : String) : Except Failure Module := do
  let tokens ← tokenise source file
  (parseTokens tokens name).mapError .rejected

end Pasture
