import Pasture.Diagnostic.ParseError

/-! # Parsers

A parser takes tokens from the front of a stream. It knows the place just past the whole stream, to
which it points when the tokens run out. A parser that fails leaves the stream where it stood.
-/
namespace Pasture

abbrev Parser := ReaderT (Option Span) (EStateM ParseError (List Token))

namespace Parser

def run {α : Type} (p : Parser α) (tokens : List Token) :
    EStateM.Result ParseError (List Token) α :=
  p (Token.endOf tokens) tokens

def current : Parser (Option Token) := fun _ ts => .ok ts.head? ts

def sees (k : Kind) : Parser Bool := fun _ ts => .ok (ts.head?.any fun t => t.kind = k) ts

def seesAny (ks : List Kind) : Parser Bool :=
  fun _ ts => .ok (ts.head?.any fun t => ks.contains t.kind) ts

/-- Whether no token is left but perhaps the one that stands for the end. -/
def atEnd : Parser Bool := fun _ ts => .ok (ts.head?.all Token.isEnd) ts

def exhausted : Parser Bool := fun _ ts => .ok ts.isEmpty ts

def refuse {α : Type} (found : Option Token) (complaint : Complaint)
    (suggestions : List Suggestion := []) : Parser α :=
  fun ends ts => .error (.syntactic complaint ends found suggestions) ts

def fail {α : Type} (complaint : Complaint) (suggestions : List Suggestion := []) : Parser α :=
  fun ends ts => .error (.syntactic complaint ends ts.head? suggestions) ts

def advance : Parser Token := fun ends ts =>
  match ts with
  | [] => .error (.syntactic (.expected .more) ends none) []
  | t :: ts => .ok t ts

def take (k : Kind) (complaint : Complaint) : Parser Token := fun ends ts =>
  match ts with
  | [] => .error (.syntactic complaint ends none) []
  | t :: rest =>
    if t.kind = k then .ok t rest else .error (.syntactic complaint ends (some t)) (t :: rest)

def expect (k : Kind) (what : Expectation) : Parser Unit := do
  let _ ← take k (.expected what)

def identifier (what : Expectation) : Parser Identifier := fun ends ts =>
  match ts with
  | [] => .error (.syntactic (.expected what) ends none) []
  | t :: rest =>
    match t.lexeme with
    | .identifier i => .ok i rest
    | _ => .error (.syntactic (.expected what) ends (some t)) (t :: rest)

def operatorIn (ops : List Operator) : Parser (Option Operator) := fun _ ts =>
  match ts with
  | [] => .ok none []
  | t :: rest =>
    match t.lexeme with
    | .operator op => if ops.contains op then .ok (some op) rest else .ok none (t :: rest)
    | _ => .ok none (t :: rest)

def skipNewlines : Parser Unit := fun _ ts => .ok () (ts.dropWhile Token.isNewline)

/-- Takes the next token if it is of the given kind, and tells whether it did. -/
def skip (k : Kind) : Parser Bool := fun _ ts =>
  match ts with
  | [] => .ok false []
  | t :: rest => if t.kind = k then .ok true rest else .ok false (t :: rest)

/-- Items parted by commas up to the symbol `close`, each on lines of its own if need be; an item is
known to follow. The number `n` bounds the tokens that are left. -/
def commaList {α : Type} (close : Symbol) (what : Expectation) (item : Parser α) :
    Nat → Parser (List α)
  | 0 => do
    let x ← item
    return [x]
  | n + 1 => do
    skipNewlines
    let x ← item
    skipNewlines
    if ← skip (.symbol .comma) then
      return x :: (← commaList close what item n)
    else
      expect (.symbol close) what
      return [x]

def listItems {α : Type} (close : Symbol) (what : Expectation) (item : Parser α) (n : Nat) :
    Parser (List α) := do
  skipNewlines
  if ← skip (.symbol close) then return []
  else commaList close what item n

end Parser
end Pasture
