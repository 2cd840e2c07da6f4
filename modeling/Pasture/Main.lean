import Pasture.Command.Run

/-! # The program

The commands on real files and the terminal. A session answers every line as it comes; the other
commands are run as a whole.
-/
namespace Pasture.Program

open Command

/-- Everything below a directory, each as a path from `above`; nothing if it cannot be opened. -/
partial def below (directory : String) (above : List String) : IO (List (Path × FileKind)) := do
  let entries ← try (← IO.currentDir).join directory |>.readDir catch _ => pure #[]
  let mut found : List (Path × FileKind) := []
  for entry in entries do
    let names := above ++ [entry.fileName]
    if ← entry.path.isDir then
      let inner ← below (directory ++ "/" ++ entry.fileName) names
      found := found ++ (⟨false, names⟩, .directory) :: inner
    else found := found ++ [(⟨false, names⟩, .file)]
  return found

def disk : Disk IO where
  kind? p := do
    let place := (← IO.currentDir).join p.text
    if ← place.isDir then return some .directory
    else if ← place.pathExists then return some .file
    else return none
  read? p := do
    try return some (← IO.FS.readBinFile p.text)
    catch _ => return none
  below p := below p.text []
  resolve p := do
    let top := Path.ofText (← IO.currentDir).toString
    let full := top.join p
    try return .ofText (← IO.FS.realPath full.text).toString
    catch _ => return full.collapse

/-- Writes a text, without its colours unless it goes to a terminal. -/
def write (stream : IO.FS.Stream) (text : String) : IO Unit := do
  stream.putStr (if ← stream.isTty then text else Text.stripAnsi text)
  stream.flush

def emit (o : Output) : IO Unit := do
  write (← IO.getStdout) o.out
  write (← IO.getStderr) o.err

/-- Answers the lines of the input as they come. -/
partial def converse (input : IO.FS.Stream) (r : Renderer) : IO (Except Ending Renderer) := do
  match Session.linesOf (← input.getLine).toList with
  | [] => return .ok r
  | lines =>
    match ← Session.turns emit r lines with
    | .ok r => converse input r
    | .error ending => return .error ending

def usage : Output :=
  .complaint "Usage: sheeppig [--version] (tokens [--raw] FILE | view FILE | check [PATH] | repl)"

def farewell : Ending → Output
  | .exit _ => {}
  | .misuse => usage
  | .crash why => .complaint ("error: " ++ why.message)

def perform (arguments : List String) : IO Ending := do
  match Invocation.ofArguments arguments with
  | .ok .repl => Session.around emit (converse (← IO.getStdin))
  | _ =>
    let o ← Command.run disk arguments ""
    emit o.output
    return o.ending

end Pasture.Program

def main (arguments : List String) : IO UInt32 := do
  let ending ← Pasture.Program.perform arguments
  Pasture.Program.emit (Pasture.Program.farewell ending)
  return ending.code.toUInt32
