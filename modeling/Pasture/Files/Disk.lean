import Pasture.Files.Path

/-! # Disks

What the commands need to know of the files: a record of operations, so that they run on real files
as on a collection of files that is given as a value.
-/
namespace Pasture

inductive FileKind where
  | file | directory
  deriving DecidableEq, Repr

inductive NameFault where
  | nullCharacter
  | tooLong
  deriving DecidableEq, Repr

def NameFault.message : NameFault → String
  | nullCharacter => "embedded null byte"
  | tooLong => "File name too long"

structure Disk (m : Type → Type) where
  /-- What there is at a path. -/
  kind? : Path → m (Option FileKind)
  /-- The bytes of a file. -/
  read? : Path → m (Option ByteArray)
  /-- Everything below a directory, each as a path from it. -/
  below : Path → m (List (Path × FileKind))
  /-- The absolute path without dots. -/
  resolve : Path → m Path

/-- Whether a path is too long as a whole, or asks a directory for a name that is. -/
def Disk.overlong {m : Type → Type} [Monad m] (disk : Disk m) (p : Path) : m Bool := do
  if p.isOverlong then return true
  let short := p.names.takeWhile fun name => name.utf8ByteSize ≤ Path.longestName
  if short.length = p.names.length then return false
  return (← disk.kind? { p with names := short }) = some .directory

/-- Files by their absolute names. A directory is an entry without bytes. -/
structure FileSet where
  entries : List (List String × Option ByteArray)

namespace FileSet

def find? (files : FileSet) (names : List String) : Option (Option ByteArray) :=
  if names.isEmpty then some none else files.entries.lookup names

def hasDirectory (files : FileSet) (names : List String) : Bool :=
  files.find? names matches some none

/-- Puts a directory at every place on the way to an absolute path that is not yet taken. -/
def withParents (files : FileSet) (p : Path) : FileSet :=
  let parents := p.upward.tail.reverse.map fun above => above.collapse.names
  let missing := parents.filter fun names => (files.find? names).isNone
  ⟨files.entries ++ missing.eraseDups.map fun names => (names, none)⟩

def write (files : FileSet) (p : Path) (content : Option ByteArray) : FileSet :=
  let files := files.withParents p
  let names := p.collapse.names
  if names.isEmpty then files
  else ⟨files.entries.filter (fun e => e.1 ≠ names) ++ [(names, content)]⟩

/-- Follows names from a directory on. Every name but the last has to be a directory. -/
def follow (files : FileSet) : List String → List String → Option (List String)
  | seen, [] => some seen
  | seen, name :: names =>
    if files.hasDirectory seen then
      follow files (if name = ".." then seen.dropLast else seen ++ [name]) names
    else none

def at? (files : FileSet) (cwd : List String) (p : Path) : Option (List String × Option ByteArray) := do
  guard !p.isOverlong
  let names ← files.follow (if p.isAbsolute then [] else cwd) p.names
  let content ← files.find? names
  return (names, content)

def kindOf (content : Option ByteArray) : FileKind := if content.isSome then .file else .directory

def disk (files : FileSet) (cwd : List String) : Disk Id where
  kind? p := (files.at? cwd p).map fun (_, content) => kindOf content
  read? p := (files.at? cwd p).bind fun (_, content) => content
  below p := match files.at? cwd p with
    | some (names, none) => files.entries.filterMap fun (n, content) =>
      if names.isPrefixOf n ∧ names ≠ n then some (⟨false, n.drop names.length⟩, kindOf content)
      else none
    | _ => []
  resolve p := (Path.join ⟨true, cwd⟩ p).collapse

end FileSet
end Pasture
