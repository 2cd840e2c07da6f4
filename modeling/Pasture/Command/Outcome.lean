import Pasture.Diagnostic.ParseError
import Pasture.Files.Disk
import Pasture.Text.Ansi

/-! # Outcomes of commands -/
namespace Pasture.Command

structure Output where
  out : String := ""
  err : String := ""
  deriving DecidableEq, Repr

namespace Output

instance : Append Output where
  append a b := ⟨a.out ++ b.out, a.err ++ b.err⟩

def line (text : String) : Output := ⟨text ++ "\n", ""⟩

def lines (texts : List String) : Output := ⟨String.join (texts.map (· ++ "\n")), ""⟩

def complaint (text : String) : Output := ⟨"", text ++ "\n"⟩

@[simp] theorem out_append (a b : Output) : (a ++ b).out = a.out ++ b.out := rfl

@[simp] theorem err_append (a b : Output) : (a ++ b).err = a.err ++ b.err := rfl

theorem append_assoc (a b c : Output) : a ++ b ++ c = a ++ (b ++ c) := by
  change Output.mk _ _ = Output.mk _ _
  simp [String.append_assoc]

@[simp] theorem empty_append (o : Output) : ({} : Output) ++ o = o := by
  change Output.mk _ _ = o
  simp

@[simp] theorem append_empty (o : Output) : o ++ ({} : Output) = o := by
  change Output.mk _ _ = o
  simp

/-- What is left for a channel that shows no colours. -/
def plain (o : Output) : Output := ⟨Text.stripAnsi o.out, Text.stripAnsi o.err⟩

end Output

inductive Crash where
  | notText
  | directory
  | name (fault : NameFault)
  | digitLimit (digits : Nat)
  deriving DecidableEq, Repr

def Crash.message : Crash → String
  | notText => "the file is not UTF-8 text"
  | directory => "the file is a directory"
  | name fault => fault.message
  | digitLimit digits => digitLimitMessage digits

inductive Ending where
  | exit (code : Nat)
  | misuse
  | crash (why : Crash)
  deriving DecidableEq, Repr

def Ending.code : Ending → Nat
  | exit code => code
  | misuse => 2
  | crash _ => 1

structure Outcome where
  output : Output
  ending : Ending
  deriving DecidableEq, Repr

namespace Outcome

def success (output : Output) : Outcome := ⟨output, .exit 0⟩

def failure (output : Output) : Outcome := ⟨output, .exit 1⟩

def misuse : Outcome := ⟨{}, .misuse⟩

def crash (why : Crash) : Outcome := ⟨{}, .crash why⟩

def after (output : Output) (o : Outcome) : Outcome := { o with output := output ++ o.output }

end Outcome
end Pasture.Command
