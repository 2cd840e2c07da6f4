import Pasture.Command.Project
import Pasture.Command.Session

/-! # Commands

The commands of the program, as their arguments call for them, and what they do.
-/
namespace Pasture.Command

inductive Invocation where
  | version
  | tokens (raw : Bool) (file : String)
  | view (file : String)
  | check (path : String)
  | repl
  deriving DecidableEq, Repr

def isOption (argument : String) : Bool :=
  argument.toList.head? = some '-' && 1 < argument.length

/-- The options and the other arguments of a command; two dashes end the options. -/
def splitOptions : List String → List String × List String
  | [] => ([], [])
  | "--" :: rest => ([], rest)
  | a :: rest =>
    let (options, others) := splitOptions rest
    if isOption a then (a :: options, others) else (options, a :: others)

namespace Invocation

/-- The only argument of a command, which names a file. It is looked at before it is asked whether
more arguments follow. -/
def onlyArgument : List String → Except Ending String
  | [] => .error .misuse
  | file :: others =>
    if (Path.ofText file).holdsNull then .error (.crash (.name .nullCharacter))
    else if others.isEmpty then .ok file
    else .error .misuse

def ofCommand (name : String) (arguments : List String) : Except Ending Invocation :=
  let (options, others) := splitOptions arguments
  match name with
  | "tokens" =>
    if options.all (· = "--raw") then .tokens (!options.isEmpty) <$> onlyArgument others
    else .error .misuse
  | "view" => if options.isEmpty then .view <$> onlyArgument others else .error .misuse
  | "check" =>
    if !options.isEmpty then .error .misuse
    else if others.isEmpty then .ok (.check ".")
    else .check <$> onlyArgument others
  | "repl" => if options.isEmpty && others.isEmpty then .ok .repl else .error .misuse
  | _ => .error .misuse

/-- The options of the program itself stand before the command: whether the version is asked for,
and the arguments behind the options. -/
def programOptions (asked : Bool) : List String → Except Ending (Bool × List String)
  | [] => .ok (asked, [])
  | "--version" :: rest => programOptions true rest
  | "--" :: rest => .ok (asked, rest)
  | a :: rest => if isOption a then .error .misuse else .ok (asked, a :: rest)

def commandNames : List String := ["tokens", "view", "check", "repl"]

/-- If no command follows the options, what follows them is read as options once more. -/
def ofArguments (arguments : List String) : Except Ending Invocation := do
  let (asked, rest) ← programOptions false arguments
  if asked then return .version
  match rest with
  | [] => .error .misuse
  | name :: others =>
    if commandNames.contains name then ofCommand name others
    else
      let (asked, _) ← programOptions false rest
      if asked then return .version else .error .misuse

end Invocation

def namesDirectory (text : String) : Bool :=
  ['/'].isSuffixOf text.toList || ['/', '.'].isSuffixOf text.toList

variable {m : Type → Type} [Monad m]

/-- What there is under a name that the user has given. The name counts as it is written: none that
is empty or too long leads anywhere, even if it is a long way round to a file. -/
def kindOf (disk : Disk m) (text : String) : m (Option FileKind) := do
  if text.isEmpty || Path.longestText < text.utf8ByteSize then return none
  let kind ← disk.kind? (.ofText text)
  return if namesDirectory text && kind = some .file then none else kind

def onFile (disk : Disk m) (file : String) (work : String → Except Failure (List String)) :
    m Outcome := do
  if (← kindOf disk file) ≠ some .file then return .misuse
  match sourceText (← disk.read? (.ofText file)) with
  | .error why => return .crash why
  | .ok text =>
    match work text with
    | .ok lines => return .success (.lines lines)
    | .error (.digitLimit n) => return .crash (.digitLimit n)
    | .error (.rejected e) =>
      let (text, _) ← Renderer.render disk { color := true } e.diagnostic
      return .failure (.complaint text)

def tokenLines (raw : Bool) (file source : String) : Except Failure (List String) := do
  let tokens ← if raw then Lexing.lex source file else tokenise source file
  return tokens.map Token.listing

def outlineLines (file source : String) : Except Failure (List String) := do
  let found ← parseSource source file (Path.ofText file).stem
  return found.outline.lines 0

def versionLine : String := "sheeppig, version " ++ version

def Invocation.run (disk : Disk m) (input : String) : Invocation → m Outcome
  | .version => return .success (.line versionLine)
  | .tokens raw file => onFile disk file (tokenLines raw file)
  | .view file => onFile disk file (outlineLines file)
  | .check path => do
    if (← kindOf disk path).isNone then return .misuse
    Project.check disk (.ofText path)
  | .repl => return Session.run input

def run (disk : Disk m) (arguments : List String) (input : String) : m Outcome :=
  match Invocation.ofArguments arguments with
  | .error ending => return ⟨{}, ending⟩
  | .ok invocation => invocation.run disk input

end Pasture.Command
