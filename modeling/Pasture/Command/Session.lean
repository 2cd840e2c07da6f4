import Pasture.Command.Outcome
import Pasture.Diagnostic.Renderer
import Pasture.Grammar.Module
import Pasture.Text.Character
import Pasture.Tree.Outline

/-! # Interactive sessions

A session answers each line by its tokens and its outline, or by a report, until the line `exit` or
the end of the input.
-/
namespace Pasture.Command

def version : String := "0.1.0"

namespace Session

def file : String := "<repl>"

def banner : Output := .line ("SheepPig REPL v" ++ version)

def prompt : Output := ⟨":> ", ""⟩

def isExit (line : List Char) : Bool := Text.trimBlank line = ['e', 'x', 'i', 't']

def report (r : Renderer) (e : ParseError) : Output :=
  .complaint (e.diagnostic.render r.color r.sourceOf)

def answer (r : Renderer) (line : String) : Output × Option Crash :=
  match tokenise line file with
  | .error (.rejected e) => (report r e, none)
  | .error (.digitLimit n) => ({}, some (.digitLimit n))
  | .ok tokens =>
    let shown := Output.line (" -- Tokens: " ++ Text.Quoted.encodeList (tokens.map Token.describe))
    match parseTokens tokens "repl" with
    | .error e => (shown ++ report r e, none)
    | .ok m => (shown ++ .lines (m.outline.lines 0), none)

inductive Turn where
  | more (r : Renderer) (output : Output)
  | over (o : Outcome)

/-- Every line is registered with the renderer before it is answered. -/
def turn (r : Renderer) (line : List Char) : Turn :=
  if isExit line then .over (.success (.line ""))
  else
    let r := r.register file (String.ofList line)
    match answer r (String.ofList line) with
    | (output, some why) => .over ⟨output, .crash why⟩
    | (output, none) => .more r output

variable {m : Type → Type} [Monad m]

/-- Answers one line after the other, each with a prompt behind the answer. What is left is the
renderer or, if a line ends the session, its ending. -/
def turns (emit : Output → m Unit) (r : Renderer) : List (List Char) → m (Except Ending Renderer)
  | [] => return .ok r
  | line :: lines => do
    match turn r line with
    | .over o =>
      emit o.output
      return .error o.ending
    | .more r output =>
      emit output
      emit prompt
      turns emit r lines

/-- What stands around the turns of a session, however their lines are come by. -/
def around (emit : Output → m Unit) (talk : Renderer → m (Except Ending Renderer)) : m Ending := do
  emit banner
  emit prompt
  match ← talk { color := true } with
  | .error ending => return ending
  | .ok _ =>
    emit (.line "")
    return .exit 0

def note (o : Output) : StateM Output Unit := modify (· ++ o)

def linesOf (input : List Char) : List (List Char) := Text.feedLines (Text.unifyBreaks input)

def run (input : String) : Outcome :=
  let (ending, output) := (around note (turns note · (linesOf input.toList))).run {}
  ⟨output, ending⟩

end Session
end Pasture.Command
