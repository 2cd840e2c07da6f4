import Pasture.Command.Outcome
import Pasture.Diagnostic.Renderer
import Pasture.Grammar.Module
import Pasture.Manifest.Basic
import Pasture.Text.Utf8

/-! # Checks of projects

A check parses every source file of a project and reports each that is rejected.
-/
namespace Pasture.Command

variable {m : Type → Type} [Monad m]

/-- A file as text; `none` stands for a directory. -/
def sourceText (bytes : Option ByteArray) : Except Crash String :=
  match bytes with
  | none => .error .directory
  | some bytes =>
    match Text.ofBytes? bytes with
    | some text => .ok text
    | none => .error .notText

namespace Project

inductive Verdict where
  | accepted
  | rejected (error : ParseError)
  | broken (why : Crash)

def verdict (path : Path) (bytes : Option ByteArray) : Verdict :=
  if path.isOverlong then .broken (.name .tooLong)
  else match sourceText bytes with
  | .error why => .broken why
  | .ok text =>
    match parseSource text path.text path.stem with
    | .ok _ => .accepted
    | .error (.rejected e) => .rejected e
    | .error (.digitLimit n) => .broken (.digitLimit n)

/-- What is known after some files: the output, the number of failures, and why the check broke off
if it did. -/
structure Tally where
  output : Output := {}
  failed : Nat := 0
  broken : Option Crash := none

def tally (disk : Disk m) (r : Renderer) : List Path → m Tally
  | [] => return {}
  | path :: paths => do
    match verdict path (← disk.read? path) with
    | .accepted => tally disk r paths
    | .rejected e =>
      let (text, r) ← r.render disk e.diagnostic
      let rest ← tally disk r paths
      return { rest with output := .complaint text ++ rest.output, failed := rest.failed + 1 }
    | .broken why => return { broken := some why }

def summary (name : String) (failed count : Nat) : Outcome :=
  if failed = 0 then
    .success (.line ("checked " ++ name ++ ": " ++ toString count ++ " file(s), no errors"))
  else
    .failure (.complaint
      ("checked " ++ name ++ ": " ++ toString failed ++ " of " ++ toString count ++
        " file(s) failed"))

def checkFiles (disk : Disk m) (settings : Manifest) (files : List Path) : m Outcome := do
  if files.isEmpty then
    return .success (.complaint ("warning: no " ++ sourceSuffix ++ " files found"))
  let t ← tally disk { color := settings.diagnostics.color } files
  return match t.broken with
    | some why => ⟨t.output, .crash why⟩
    | none => (summary settings.package.name t.failed files.length).after t.output

def settingsOf (bytes : ByteArray) : Except String Manifest :=
  match String.fromUTF8? bytes with
  | some text => (Manifest.ofText text).mapError (·.message)
  | none => .error (((Text.Utf8.fault? bytes).map (·.message)).getD "")

def check (disk : Disk m) (start : Path) : m Outcome := do
  match ← Manifest.find? disk start with
  | .error fault => return .crash (.name fault)
  | .ok none => return .failure (.complaint ("error: no " ++ manifestName ++ " found"))
  | .ok (some path) =>
    match ← disk.read? path with
    | none => return .crash .directory
    | some bytes =>
      match settingsOf bytes with
      | .error reason =>
        return .failure (.complaint ("error: invalid " ++ path.text ++ ": " ++ reason))
      | .ok settings =>
        let root := { path with names := path.names.dropLast }
        let o ← match ← settings.sourceFiles disk root with
          | .error fault => pure (.crash (.name fault))
          | .ok files => checkFiles disk settings files
        return o.after (.line ("checking " ++ settings.package.name ++ "..."))

end Project
end Pasture.Command
