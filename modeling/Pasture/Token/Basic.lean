import Pasture.Decimal.Written
import Pasture.Source.Span
import Pasture.Text.Quoted
import Pasture.Token.Operator
import Pasture.Token.Word

/-! # Tokens

A name is one segment or several joined by dots. A token is a lexeme, the unit of meaning, with the
span it was read from, if it was read from a text. Tokens are also handed in from outside, and then
a symbol or a word may be written in another way or not at all, and a literal may lack its value.
Two tokens are alike (`==`) if their lexemes and their texts are, wherever they stand.
-/
namespace Pasture

structure Identifier where
  head : String
  tail : List String
  deriving DecidableEq, Repr

namespace Identifier

def simple (name : String) : Identifier := ⟨name, []⟩

def isSimple (i : Identifier) : Bool := i.tail.isEmpty

def segments (i : Identifier) : List String := i.head :: i.tail

/-- One name after another, as in `a.b` and `c` to `a.b.c`. -/
def join (i j : Identifier) : Identifier := ⟨i.head, i.tail ++ j.segments⟩

def text (i : Identifier) : String := ".".intercalate i.segments

@[simp] theorem segments_join (i j : Identifier) :
    (i.join j).segments = i.segments ++ j.segments := rfl

structure TooFewSegments where
  segments : List String
  deriving DecidableEq, Repr

def TooFewSegments.message (e : TooFewSegments) : String :=
  "compound identifier needs at least two segments, got " ++ Text.Quoted.encodeTuple e.segments

def compound? : List String → Except TooFewSegments Identifier
  | first :: second :: rest => .ok ⟨first, second :: rest⟩
  | segments => .error ⟨segments⟩

end Identifier
inductive Literal where
  | integer (value : Int)
  | float (value : Binary64)
  | char (value : Option String)
  | string (value : Option String)
  | boolean (value : Option Bool)
  | none
  deriving DecidableEq, Repr

namespace Literal

/-- Numbers are alike if they are the same number. -/
instance : BEq Literal where
  beq
    | .integer m, .integer n => m == n
    | .float x, .float y => x == y
    | .char s, .char t => s == t
    | .string s, .string t => s == t
    | .boolean p, .boolean q => p == q
    | .none, .none => true
    | _, _ => false

inductive Form where
  | integer | float | char | string | boolean | none
  deriving DecidableEq, Repr

def form : Literal → Form
  | .integer _ => .integer
  | .float _ => .float
  | .char _ => .char
  | .string _ => .string
  | .boolean _ => .boolean
  | .none => .none

end Literal

def nothingShown : String := "None"

def flagShown (b : Bool) : String := if b then "True" else "False"

namespace Literal

def shown? : Literal → Option String
  | .integer n => some (toString n)
  | .float x => some x.text
  | .char s | .string s => s.map Text.Quoted.encode
  | .boolean b => b.map flagShown
  | .none => Option.none

def shown (l : Literal) : String := l.shown?.getD nothingShown

def words : List (List Char × Literal) :=
  [(['t', 'r', 'u', 'e'], .boolean (some true)), (['f', 'a', 'l', 's', 'e'], .boolean (some false)),
    (['N', 'o', 'n', 'e'], .none)]

def ofWord? (word : List Char) : Option Literal := words.lookup word

end Literal

namespace Literal.Form

def all : List Form := [integer, float, char, string, boolean, none]

def name : Form → String
  | integer => "INTEGER_LIT"
  | float => "FLOAT_LIT"
  | char => "CHAR_LIT"
  | string => "STRING_LIT"
  | boolean => "BOOLEAN_LIT"
  | none => "NONE_LIT"

def title : Form → String
  | integer => "integer literal"
  | float => "float literal"
  | char => "char literal"
  | string => "string literal"
  | boolean => "boolean literal"
  | none => "literal"

end Literal.Form

/-- The unit of meaning in a token. `fused op` is the compound assignment `op=`. -/
inductive Lexeme where
  | symbol (s : Symbol)
  | newline
  | endOfInput
  | operator (op : Operator)
  | fused (op : Operator)
  | keyword (k : Keyword)
  | literal (l : Literal)
  | identifier (i : Identifier)
  deriving DecidableEq, Repr, BEq

inductive Kind where
  | symbol (s : Symbol)
  | newline
  | endOfInput
  | operator
  | fused
  | keyword (k : Keyword)
  | literal (f : Literal.Form)
  | identifier
  deriving DecidableEq, Repr

namespace Kind

def all : List Kind :=
  Symbol.all.map .symbol ++ [.newline, .endOfInput, .operator, .fused] ++
    Keyword.all.map .keyword ++ Literal.Form.all.map .literal ++ [.identifier]

def name : Kind → String
  | .symbol s => s.name
  | .newline => "NEWLINE"
  | .endOfInput => "EOF"
  | .operator => "OPERATOR"
  | .fused => "BINARY_ASSIGN"
  | .keyword k => k.name
  | .literal f => f.name
  | .identifier => "IDENTIFIER"

def ofName? (name : String) : Option Kind := all.find? fun k => k.name = name

end Kind

namespace Lexeme

def kind : Lexeme → Kind
  | .symbol s => .symbol s
  | .newline => .newline
  | .endOfInput => .endOfInput
  | .operator _ => .operator
  | .fused _ => .fused
  | .keyword k => .keyword k
  | .literal l => .literal l.form
  | .identifier _ => .identifier

def fixedText? : Lexeme → Option String
  | .symbol s => some s.char.toString
  | .newline => some "\n"
  | .endOfInput => some ""
  | .keyword k => some k.text
  | _ => none

end Lexeme

/-- `text` counts for lexemes without a value only. -/
structure Token where
  lexeme : Lexeme
  span : Option Span
  text : Option String
  deriving DecidableEq, Repr

namespace Token

def plain (l : Lexeme) (span : Option Span) : Token := ⟨l, span, l.fixedText?⟩

/-- The span takes no part in the comparison. -/
instance : BEq Token where
  beq s t := s.lexeme == t.lexeme && s.text == t.text

def kind (t : Token) : Kind := t.lexeme.kind

def describe (t : Token) : String :=
  match t.lexeme with
  | .symbol _ => "'" ++ t.text.getD nothingShown ++ "'"
  | .newline => "newline"
  | .endOfInput => "end of input"
  | .operator op => "operator '" ++ op.text ++ "'"
  | .fused op => "operator '" ++ op.text ++ "='"
  | .keyword _ => "keyword '" ++ t.text.getD nothingShown ++ "'"
  | .literal l => l.form.title ++ " " ++ l.shown
  | .identifier i => "identifier '" ++ i.text ++ "'"

def isNewline (t : Token) : Bool := t.lexeme matches .newline

def isEnd (t : Token) : Bool := t.lexeme matches .endOfInput

/-- The place just past the last token that has a span. -/
def endOf (tokens : List Token) : Option Span :=
  (tokens.reverse.findSome? (·.span)).map Span.after

def listing (t : Token) : String :=
  let place := match t.span with
    | some s => toString s.startLine ++ ":" ++ toString s.startColumn
    | none => "?"
  let kind := t.kind.name
  "".pushn ' ' (8 - place.length) ++ place ++ "  " ++ kind ++ "".pushn ' ' (14 - kind.length) ++
    " " ++ t.describe

end Token

structure NotLiteral where
  kind : Kind
  deriving DecidableEq, Repr

def NotLiteral.message (e : NotLiteral) : String :=
  "not a literal token: " ++ e.kind.name

def Token.literal? (t : Token) : Except NotLiteral Literal :=
  match t.lexeme with
  | .literal l => .ok l
  | other => .error ⟨other.kind⟩

end Pasture
