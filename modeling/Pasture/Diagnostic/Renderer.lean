import Pasture.Diagnostic.ParseError
import Pasture.Files.Disk
import Pasture.Text.Ansi
import Pasture.Text.Lines

/-! # Renderers

A diagnostic is shown with the source line that each of its labels points to and a mark below the
characters of the span. A span that runs on to later lines is marked to the end of its first line.

A renderer knows the lines of the sources that were handed to it and of the files it has shown
before. Any other file is read when it is first needed; one that cannot be read has no lines.
-/
namespace Pasture

open Text

def Severity.paint : Severity → Paint
  | .error => .red
  | .warning => .yellow
  | .note => .cyan

def padLeft (width : Nat) (text : String) : String :=
  "".pushn ' ' (width - text.length) ++ text

namespace Excerpt

def bar (color : Bool) : String := "  " ++ Paint.blue.on color "   |"

def lineOf (source : List (List Char)) (span : Span) : Option (List Char) :=
  if 1 ≤ span.startLine then source[(span.startLine - 1).toNat]? else none

/-- How many characters of its first line a span covers; at least one. -/
def markWidth (span : Span) (line : List Char) : Nat :=
  let last : Int := if span.endLine = span.startLine then span.endColumn else line.length
  (max 1 (last - span.startColumn + 1)).toNat

def mark (label : Label) (line : List Char) : String :=
  let sign := if label.style = "primary" then '^' else '-'
  let signs := "".pushn sign (markWidth label.span line)
  if label.message.isEmpty then signs else signs ++ " " ++ label.message

def labelLines (color : Bool) (paint : Paint) (source : List (List Char)) (label : Label) :
    List String :=
  let span := label.span
  let head := ["  " ++ Paint.blue.on color "-->" ++ " " ++ span.text, bar color]
  match lineOf source span with
  | none =>
    if label.message.isEmpty then head
    else head ++ [bar color ++ " " ++ paint.on color label.message]
  | some line =>
    head ++
      ["  " ++ Paint.blue.on color (padLeft 4 (toString span.startLine) ++ " |") ++ " " ++
          String.ofList line,
        bar color ++ " " ++ "".pushn ' ' (span.startColumn - 1).toNat ++
          paint.on color (mark label line)]

end Excerpt

open Excerpt

def Diagnostic.lines (color : Bool) (sourceOf : String → List (List Char)) (d : Diagnostic) :
    List String :=
  let paint := d.severity.paint
  let gutter := "  " ++ Paint.blue.on color "="
  (paint.on color (d.severity.name ++ "[" ++ d.code ++ "]") ++
      Paint.bold.on color (": " ++ d.message)) ::
    d.labels.flatMap (fun l => labelLines color paint (sourceOf l.span.file) l) ++
    d.notes.map (fun note => gutter ++ " note: " ++ note) ++
    d.suggestions.map (fun s => gutter ++ " help: " ++ s.message ++ ": " ++ s.replacement)

def Diagnostic.render (color : Bool) (sourceOf : String → List (List Char)) (d : Diagnostic) :
    String :=
  "\n".intercalate (d.lines color sourceOf)

structure Renderer where
  color : Bool
  sources : List (String × List (List Char)) := []

namespace Renderer

def register (r : Renderer) (file source : String) : Renderer :=
  { r with sources := (file, Text.lines source.toList) :: r.sources }

def sourceOf (r : Renderer) (file : String) : List (List Char) :=
  (r.sources.lookup file).getD []

variable {m : Type → Type} [Monad m]

def load (disk : Disk m) (r : Renderer) (file : String) : m Renderer := do
  if (r.sources.lookup file).isSome then return r
  else
    let bytes ← disk.read? (.ofText file)
    return r.register file ((bytes.bind Text.ofBytes?).getD "")

def loadAll (disk : Disk m) (r : Renderer) (d : Diagnostic) : m Renderer :=
  d.labels.foldlM (fun r l => r.load disk l.span.file) r

/-- The text of a diagnostic, and the renderer that now knows its files. -/
def render (disk : Disk m) (r : Renderer) (d : Diagnostic) : m (String × Renderer) := do
  let r ← r.loadAll disk d
  return (d.render r.color r.sourceOf, r)

end Renderer
end Pasture
