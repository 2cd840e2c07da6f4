import Pasture.Grammar.Cursor
import Pasture.Main
import Pasture.Proofs.Command.Project
import Pasture.Proofs.Command.Session
import Pasture.Proofs.Diagnostic.Caret
import Pasture.Proofs.Diagnostic.Colour
import Pasture.Proofs.Failures
import Pasture.Proofs.Grammar.Condition
import Pasture.Proofs.Grammar.Cursor
import Pasture.Proofs.Grammar.FusedAssignment
import Pasture.Proofs.Grammar.Lookahead
import Pasture.Proofs.Grammar.ModuleSound
import Pasture.Proofs.Grammar.Ordering
import Pasture.Proofs.Grammar.RoundTrip
import Pasture.Proofs.Grammar.StatementLine
import Pasture.Proofs.Grammar.Truncation
import Pasture.Proofs.Invariants
import Pasture.Proofs.Layout
import Pasture.Proofs.Lexing.Finality
import Pasture.Proofs.Lexing.Newlines
import Pasture.Proofs.Lexing.NumberParts
import Pasture.Proofs.Lexing.Quoted
import Pasture.Proofs.Lexing.Rendering
import Pasture.Proofs.Lexing.Unfinished
import Pasture.Proofs.Token.Condensed
import Pasture.Proofs.Tree.Faithful
