/-! # Places in a source text

Lines and columns count characters from one, and only a line feed starts a new line.
A span names a file and runs from the place of its first character to that of its last.
-/
namespace Pasture

structure Position where
  line : Nat
  column : Nat
  deriving DecidableEq, Repr

namespace Position

def start : Position := ⟨1, 1⟩

def step (p : Position) (c : Char) : Position :=
  if c = '\n' then ⟨p.line + 1, 1⟩ else ⟨p.line, p.column + 1⟩

def advance (p : Position) (text : List Char) : Position :=
  text.foldl step p

@[simp] theorem advance_nil (p : Position) : p.advance [] = p := rfl

@[simp] theorem advance_cons (p : Position) (c : Char) (text : List Char) :
    p.advance (c :: text) = (p.step c).advance text := rfl

@[simp] theorem advance_append (p : Position) (s t : List Char) :
    p.advance (s ++ t) = (p.advance s).advance t :=
  List.foldl_append

end Position

/-- Coordinates are integers, since spans are also handed in from outside and then obey no rule. -/
structure Span where
  file : String
  startLine : Int
  startColumn : Int
  endLine : Int
  endColumn : Int
  deriving DecidableEq, Repr

namespace Span

/-- The span of a text that starts at `first` and is followed by `next`. A text that ends with a
line break has no last column on the line it reaches and is given column one. -/
def between (file : String) (first next : Position) : Span where
  file := file
  startLine := first.line
  startColumn := first.column
  endLine := next.line
  endColumn := if 1 < next.column then next.column - 1 else 1

def single (file : String) (p : Position) : Span where
  file := file
  startLine := p.line
  startColumn := p.column
  endLine := p.line
  endColumn := p.column

def through (first last : Span) : Span where
  file := first.file
  startLine := first.startLine
  startColumn := first.startColumn
  endLine := last.endLine
  endColumn := last.endColumn

def after (s : Span) : Span where
  file := s.file
  startLine := s.endLine
  startColumn := s.endColumn + 1
  endLine := s.endLine
  endColumn := s.endColumn + 1

/-- `file:line:column` of the first character. -/
def text (s : Span) : String :=
  s.file ++ ":" ++ toString s.startLine ++ ":" ++ toString s.startColumn

@[simp] theorem through_self (s : Span) : s.through s = s := rfl

end Span
end Pasture
