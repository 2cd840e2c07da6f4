import Pasture.Text.Quoted

/-! # Causes of rejection

Why a text is no sequence of lexemes, and why a sequence of tokens is no module. Each cause has its
wording here and nowhere else.
-/
namespace Pasture

inductive LexicalCause where
  | strayBackslash
  | unexpected (c : Char)
  | openComment
  | openString
  | openCharacter
  | emptyCharacter
  | longCharacter
  | missingEscape
  | unknownEscape (c : Char)
  | extraPoint
  | missingExponent
  | outOfRange (digits : List Char)
  deriving DecidableEq, Repr

namespace LexicalCause

/-- Whether the text stopped in the middle of a lexeme. -/
def atEnd : LexicalCause → Bool
  | openComment | openString | openCharacter | missingEscape => true
  | _ => false

def message : LexicalCause → String
  | strayBackslash => "unexpected character '\\'"
  | unexpected c => "unexpected character " ++ Text.Quoted.encode c.toString
  | openComment => "unterminated block comment, found end of input"
  | openString => "unterminated string literal, found end of input"
  | openCharacter => "unterminated character literal, found end of input"
  | emptyCharacter => "empty character literal"
  | longCharacter => "character literal must contain exactly one character"
  | missingEscape => "expected an escape sequence, found end of input"
  | unknownEscape c => "unrecognised escape sequence '\\" ++ c.toString ++ "'"
  | extraPoint => "unexpected extra decimal point in number literal"
  | missingExponent => "expected digits in number exponent"
  | outOfRange digits => "integer literal " ++ String.ofList digits ++ " is out of range"

end LexicalCause

inductive Expectation where
  | expression
  | groupClose
  | argument
  | element
  | argumentsClose
  | elementsClose
  | indexClose
  | sliceClose
  | ternaryColon
  | blockOpen
  | blockClose
  | branchKeyword
  | loopKeyword
  | statement
  | statementEnd
  | declaredType
  | declaredName
  | typeName
  | initialiser
  | reference
  | functionName
  | parametersOpen
  | parametersClose
  | parameter
  | parameterColon
  | parameterType
  | resultType
  | importsOpen
  | importEnd
  | importedName
  | localName
  | origin
  | segment
  | moduleEnd
  | more
  deriving DecidableEq, Repr

def Expectation.text : Expectation → String
  | expression => "an expression"
  | groupClose => "')' to close the parenthesized expression"
  | argument => "an argument"
  | element => "an array element"
  | argumentsClose => "',' or ')'"
  | elementsClose => "',' or ']'"
  | indexClose => "']' to close the index"
  | sliceClose => "']' to close the slice"
  | ternaryColon => "':' after ternary condition"
  | blockOpen => "'\x7b' to open a block"
  | blockClose => "'\x7d' to close the block"
  | branchKeyword => "'if'"
  | loopKeyword => "'while'"
  | statement => "a statement"
  | statementEnd => "a newline or '\x7d' to end the statement"
  | declaredType => "':' and a type in variable declaration"
  | declaredName => "an identifier in a declaration statement"
  | typeName => "a type after ':'"
  | initialiser => "'=' to initialise the variable"
  | reference => "a reference before an assignment"
  | functionName => "a function name"
  | parametersOpen => "'(' to start the parameter list"
  | parametersClose => "',' or ')' in parameter list"
  | parameter => "a parameter"
  | parameterColon => "':' after parameter name"
  | parameterType => "a type identifier after ':'"
  | resultType => "a return type after ':'"
  | importsOpen => "'\x7b' after 'using'"
  | importEnd => "a newline or '\x7d' after import entry"
  | importedName => "an imported name"
  | localName => "an alias after 'as'"
  | origin => "a module after 'from'"
  | segment => "identifier after '.'"
  | moduleEnd => "end of module"
  | more => "more tokens"

inductive Complaint where
  | expected (what : Expectation)
  | notUnary
  | untyped
  | unrecognised
  | misplacedImports
  | misplacedFunction
  | other (text : String)
  deriving DecidableEq, Repr

def Complaint.text : Complaint → String
  | expected what => "expected " ++ what.text
  | notUnary => "operator not allowed in unary expression"
  | untyped => "a variable declaration must be followed by a type"
  | unrecognised => "unrecognised token in statement"
  | misplacedImports =>
    "only one using block is allowed and it must be at the top of the module"
  | misplacedFunction => "functions must be defined before any top-level statements"
  | other text => text

end Pasture
