import Pasture.Diagnostic.ParseError

/-! # Normal token streams

The parsers read a stream in which newlines that are mere layout are gone and dotted names are one
token. A newline is dropped if the token before it is a newline, an opening bracket or a comma;
every run `a . b . c` is fused into one identifier, whose span runs from the first token to the last.
-/
namespace Pasture

def Symbol.absorbsNewline : Symbol → Bool
  | .lparen | .lbrace | .lbracket | .comma => true
  | _ => false

def Token.absorbsNewline (t : Token) : Bool :=
  match t.lexeme with
  | .newline => true
  | .symbol s => s.absorbsNewline
  | _ => false

namespace Normal

/-- Drops the newlines that are layout; `absorbing` tells this of the first token. -/
def elide (absorbing : Bool) : List Token → List Token
  | [] => []
  | t :: ts =>
    if t.isNewline && absorbing then elide true ts
    else t :: elide t.absorbsNewline ts

/-- A dotted name under construction, with the spans of its first and its last token. -/
structure Chain where
  name : Identifier
  first : Option Span
  last : Option Span
  deriving DecidableEq, Repr

namespace Chain

def start (i : Identifier) (span : Option Span) : Chain := ⟨i, span, span⟩

def extend (c : Chain) (i : Identifier) (span : Option Span) : Chain :=
  ⟨c.name.join i, c.first, span⟩

def token (c : Chain) : Token :=
  .plain (.identifier c.name) (c.first.bind fun first => c.last.map first.through)

end Chain

/-- The dot has no segment behind it but `found`. The end of the input has no place of its own. -/
def segmentError (dot : Token) (found : Option Token) : ParseError :=
  let e := ParseError.syntactic (.expected .segment) dot.span found
  if e.atEnd then { e with span := dot.span }
  else { e with span := e.span <|> dot.span }

/-- What is open between two tokens: nothing, a name, or a name with a dot behind it. -/
inductive Open where
  | nothing
  | name (chain : Chain)
  | dotted (chain : Chain) (dot : Token)
  deriving DecidableEq, Repr

def fuse : Open → List Token → Except ParseError (List Token)
  | .nothing, [] => .ok []
  | .name chain, [] => .ok [chain.token]
  | .dotted _ dot, [] => .error (segmentError dot none)
  | .nothing, t :: ts =>
    match t.lexeme with
    | .identifier i => fuse (.name (.start i t.span)) ts
    | _ => (t :: ·) <$> fuse .nothing ts
  | .name chain, t :: ts =>
    match t.lexeme with
    | .symbol .dot => fuse (.dotted chain t) ts
    | .identifier i => (chain.token :: ·) <$> fuse (.name (.start i t.span)) ts
    | _ => (chain.token :: t :: ·) <$> fuse .nothing ts
  | .dotted chain dot, t :: ts =>
    match t.lexeme with
    | .identifier i => fuse (.name (chain.extend i t.span)) ts
    | _ => .error (segmentError dot (some t))

end Normal

def normalise (tokens : List Token) : Except ParseError (List Token) :=
  Normal.fuse .nothing (Normal.elide false tokens)

end Pasture
