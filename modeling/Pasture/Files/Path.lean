/-! # Paths

A path is a list of names, from the root of all files or from the working directory. Empty names
and single dots are left out; two dots stay and mean the directory above.
-/
namespace Pasture

structure Path where
  isAbsolute : Bool
  names : List String
  deriving DecidableEq, Repr

namespace Path

def parts : List Char → List (List Char)
  | [] => [[]]
  | c :: cs =>
    if c = '/' then [] :: parts cs
    else match parts cs with
      | [] => [[c]]
      | first :: rest => (c :: first) :: rest

def ofText (text : String) : Path where
  isAbsolute := text.toList.head? = some '/'
  names := ((parts text.toList).filter fun name => name ≠ [] ∧ name ≠ ['.']).map String.ofList

def text (p : Path) : String :=
  if p.isAbsolute then "/" ++ "/".intercalate p.names
  else if p.names.isEmpty then "."
  else "/".intercalate p.names

/-- Names of files are handed over with a null character behind them, so none can stand inside. -/
def holdsNull (p : Path) : Bool := p.names.any fun name => name.toList.contains '\x00'

def longestName : Nat := 255

def longestText : Nat := 4095

def isOverlong (p : Path) : Bool := longestText < p.text.utf8ByteSize

def join (p q : Path) : Path :=
  if q.isAbsolute then q else { p with names := p.names ++ q.names }

/-- Without its double dots, each of which takes the name before it away. -/
def collapse (p : Path) : Path :=
  { p with names := (p.names.foldl step []).reverse }
where
  step (seen : List String) (name : String) : List String :=
    if name = ".." then seen.tail else name :: seen

/-- The path itself and the directories above it, from the inside out. -/
def upward (p : Path) : List Path :=
  (List.range (p.names.length + 1)).map fun k => { p with names := p.names.take (p.names.length - k) }

/-- The last name without what follows its last dot, unless that dot is its first or last
character. -/
def stem (p : Path) : String :=
  let name := (p.names.getLast?.getD "").toList
  let suffix := name.reverse.takeWhile (· ≠ '.')
  let front := (name.reverse.dropWhile (· ≠ '.')).tail.reverse
  if suffix.isEmpty || front.isEmpty then String.ofList name else String.ofList front

example : (ofText "d/a.b.sp").stem = "a.b" ∧ (ofText ".sp").stem = ".sp" ∧ (ofText "x.").stem = "x." ∧
    (ofText "..sp").stem = "." ∧ (ofText "noext").stem = "noext" := by
  decide +kernel

end Path
end Pasture
