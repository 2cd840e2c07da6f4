import Pasture.Diagnostic.Cause
import Pasture.Token.Basic

/-! # Rejections

A diagnostic is a message for the user with the places it points to, hints for a repair and further
notes.

The report on a text or a sequence of tokens that is rejected: the cause, the place, and the token
that was refused. A rejection by the grammar without a token says that the input ran out.
-/
namespace Pasture

inductive Severity where
  | error | warning | note
  deriving DecidableEq, Repr

def Severity.name : Severity → String
  | .error => "error"
  | .warning => "warning"
  | .note => "note"

structure Suggestion where
  message : String
  replacement : String
  deriving DecidableEq, Repr

/-- A place in a source with a remark. Only the style `primary` is underlined by carets. -/
structure Label where
  span : Span
  message : String
  style : String := "primary"
  deriving DecidableEq, Repr

structure Diagnostic where
  severity : Severity
  code : String
  message : String
  labels : List Label := []
  suggestions : List Suggestion := []
  notes : List String := []
  deriving DecidableEq, Repr

def Diagnostic.summary (diagnostics : List Diagnostic) : String :=
  toString diagnostics.length ++ " error(s): " ++ "; ".intercalate (diagnostics.map (·.message))

inductive Phase where
  | lexical | syntactic
  deriving DecidableEq, Repr

namespace Phase

def name : Phase → String
  | lexical => "lexical"
  | syntactic => "syntactic"

def code : Phase → String
  | lexical => "E100"
  | syntactic => "E200"

end Phase

inductive Cause where
  | lexical (cause : LexicalCause)
  | syntactic (complaint : Complaint)
  | reported (phase : Phase) (message : String)
  deriving DecidableEq, Repr

def Cause.phase : Cause → Phase
  | lexical _ => .lexical
  | syntactic _ => .syntactic
  | reported phase _ => phase

structure ParseError where
  cause : Cause
  span : Option Span
  token : Option Token := none
  atEnd : Bool
  suggestions : List Suggestion := []
  deriving DecidableEq, Repr

namespace ParseError

def phase (e : ParseError) : Phase := e.cause.phase

def message (e : ParseError) : String :=
  match e.cause with
  | .lexical cause => cause.message
  | .syntactic complaint =>
    complaint.text ++ ", found " ++ (e.token.map Token.describe).getD "end of input"
  | .reported _ message => message

def text (e : ParseError) : String :=
  match e.span with
  | some span => span.text ++ ": " ++ e.message
  | none => e.message

def diagnostic (e : ParseError) : Diagnostic where
  severity := .error
  code := e.phase.code
  message := e.message
  labels := match e.span with
    | some span => [⟨span, if e.atEnd then "input ends here" else "", "primary"⟩]
    | none => []
  suggestions := e.suggestions

def diagnostics (e : ParseError) : List Diagnostic := [e.diagnostic]

def lexical (file : String) (cause : LexicalCause) (place : Position) : ParseError where
  cause := .lexical cause
  span := some (.single file place)
  atEnd := cause.atEnd

/-- The token `found` is refused; `none` says that the tokens ran out, at the place `ends`. -/
def syntactic (complaint : Complaint) (ends : Option Span) (found : Option Token)
    (suggestions : List Suggestion := []) : ParseError where
  cause := .syntactic complaint
  span := match found with
    | some t => t.span
    | none => ends
  token := found
  atEnd := found.all Token.isEnd
  suggestions := suggestions

end ParseError

/-- Why a text yields no module: it is rejected, or it holds an integer of more digits than are
converted at all. -/
inductive Failure where
  | rejected (error : ParseError)
  | digitLimit (digits : Nat)
  deriving DecidableEq, Repr

/-- The longest run of digits that is converted to an integer. -/
def maxDigits : Nat := 4300

def digitLimitMessage (digits : Nat) : String :=
  "Exceeds the limit (" ++ toString maxDigits ++
    " digits) for integer string conversion: value has " ++ toString digits ++
    " digits; use sys.set_int_max_str_digits() to increase the limit"

end Pasture
