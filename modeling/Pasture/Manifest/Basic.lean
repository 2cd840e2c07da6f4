import Pasture.Files.Disk
import Pasture.Manifest.Toml.Document
import Pasture.Text.Lines

/-! # Manifests

The settings of a project, where they are found, and the source files they lead to. Unknown keys are
ignored, missing ones have defaults, and a value of the wrong type is refused.
-/
namespace Pasture

def manifestName : String := "sheeppig.toml"

def sourceSuffix : String := ".sp"

namespace Manifest

structure Package where
  name : String := "untitled"
  version : String := "0.0.0"
  deriving DecidableEq, Repr

structure Source where
  dir : String := "src"
  deriving DecidableEq, Repr

structure Diagnostics where
  color : Bool := true
  deriving DecidableEq, Repr

inductive Refusal where
  | notTable (part : String)
  | wrongType (part key expected found : String)
  deriving DecidableEq, Repr

def Refusal.message : Refusal → String
  | notTable part => "[" ++ part ++ "] must be a table"
  | wrongType part key expected found =>
    part ++ "." ++ key ++ " must be a " ++ expected ++ ", got " ++ found

/-- The table of one part; a missing one is empty. -/
def partOf (t : Table) (part : String) : Except Refusal Table :=
  match t.lookup part with
  | none => .ok []
  | some (.table inner) => .ok inner
  | some _ => .error (.notTable part)

def textOf (t : Table) (part key default : String) : Except Refusal String :=
  match t.lookup key with
  | none => .ok default
  | some (.text s) => .ok s
  | some v => .error (.wrongType part key "str" v.typeName)

def flagOf (t : Table) (part key : String) (default : Bool) : Except Refusal Bool :=
  match t.lookup key with
  | none => .ok default
  | some (.boolean b) => .ok b
  | some v => .error (.wrongType part key "bool" v.typeName)

def Package.ofTable (t : Table) : Except Refusal Package := do
  let p ← partOf t "package"
  let name ← textOf p "package" "name" ({} : Package).name
  let version ← textOf p "package" "version" ({} : Package).version
  return { name, version }

def Source.ofTable (t : Table) : Except Refusal Source := do
  let p ← partOf t "source"
  let dir ← textOf p "source" "dir" ({} : Source).dir
  return { dir }

def Diagnostics.ofTable (t : Table) : Except Refusal Diagnostics := do
  let p ← partOf t "diagnostics"
  let color ← flagOf p "diagnostics" "color" ({} : Diagnostics).color
  return { color }

end Manifest

structure Manifest where
  package : Manifest.Package := {}
  source : Manifest.Source := {}
  diagnostics : Manifest.Diagnostics := {}
  deriving DecidableEq, Repr

namespace Manifest

/-- The parts are checked in this order. -/
def ofTable (t : Table) : Except Refusal Manifest := do
  let package ← Package.ofTable t
  let source ← Source.ofTable t
  let diagnostics ← Diagnostics.ofTable t
  return { package, source, diagnostics }

inductive LoadError where
  | unreadable (error : Toml.Error)
  | refused (refusal : Refusal)
  deriving DecidableEq, Repr

def LoadError.message : LoadError → String
  | unreadable .malformed => "the text is not TOML"
  | unreadable (.digitLimit n) => digitLimitMessage n
  | refused refusal => refusal.message

def ofText (text : String) : Except LoadError Manifest := do
  let t ← (Toml.parse text).mapError .unreadable
  (ofTable t).mapError .refused

variable {m : Type → Type} [Monad m]

def firstIn (disk : Disk m) : List Path → m (Except NameFault (Option Path))
  | [] => return .ok none
  | directory :: rest => do
    let candidate := directory.join (.ofText manifestName)
    if candidate.isOverlong then return .error .tooLong
    if (← disk.kind? candidate).isSome then return .ok (some candidate)
    firstIn disk rest

def find? (disk : Disk m) (start : Path) : m (Except NameFault (Option Path)) := do
  if start.holdsNull then return .error .nullCharacter
  let path ← disk.resolve start
  if ← disk.overlong path then return .error .tooLong
  let above := path.upward
  match ← disk.kind? path with
  | some .file => firstIn disk above.tail
  | _ => firstIn disk above

def notFoundMessage : String := "No " ++ manifestName ++ " found in any parent directory"

/-- Names by the order of their characters, and a path before its extensions. -/
def namesLe : List String → List String → Bool
  | [], _ => true
  | _ :: _, [] => false
  | a :: as, b :: bs => a < b || (a = b && namesLe as bs)

def isSource (p : Path) : Bool :=
  sourceSuffix.toList.isSuffixOf (p.names.getLast?.getD "").toList

/-- All source files below a directory, in order. Every directory below it has to be opened. -/
def sourceFilesBelow (disk : Disk m) (top : Path) : m (Except NameFault (List Path)) := do
  let found ← disk.below top
  if found.any fun (p, kind) => kind = .directory && (top.join p).isOverlong then
    return .error .tooLong
  let sources := (found.map Prod.fst).filter isSource
  return .ok ((sources.mergeSort fun p q => namesLe p.names q.names).map top.join)

def sourceFiles (disk : Disk m) (settings : Manifest) (root : Path) :
    m (Except NameFault (List Path)) := do
  let wanted := root.join (.ofText settings.source.dir)
  if wanted.holdsNull then return ← sourceFilesBelow disk root
  if ← disk.overlong wanted then return .error .tooLong
  let top := if (← disk.kind? wanted) = some .directory then wanted else root
  sourceFilesBelow disk top

end Manifest
end Pasture
