import Pasture.Decimal.Reading
import Pasture.Diagnostic.ParseError

/-! # Scalars of TOML

The values that a settings file can hold, and tables of them in the order of their keys. The
strings, numbers, dates and times of TOML 1.0 are read from the front of a text whose lines end with
line feeds alone.
-/
namespace Pasture.Manifest

inductive Value where
  | null
  | text (value : String)
  | integer (value : Int)
  | decimal (value : Binary64)
  | boolean (value : Bool)
  | date (shown : String)
  | time (shown : String)
  | dateTime (shown : String)
  | list (items : List Value)
  | table (entries : List (String × Value))

abbrev Table := List (String × Value)

def Value.typeName : Value → String
  | .null => "NoneType"
  | .text _ => "str"
  | .integer _ => "int"
  | .decimal _ => "float"
  | .boolean _ => "bool"
  | .date _ => "date"
  | .time _ => "time"
  | .dateTime _ => "datetime"
  | .list _ => "list"
  | .table _ => "dict"

def Table.replace (key : String) (value : Value) (t : Table) : Table :=
  t.map fun e => if e.1 = key then (key, value) else e

end Pasture.Manifest

namespace Pasture.Manifest.Toml

inductive Error where
  | malformed
  | digitLimit (digits : Nat)
  deriving DecidableEq, Repr

abbrev Reader := StateT (List Char) (Except Error)

def malformed {α : Type} : Reader α := throw .malformed

def isBlank (c : Char) : Bool := c = ' ' || c = '\t'

def isBlankOrBreak (c : Char) : Bool := isBlank c || c = '\n'

def isBare (c : Char) : Bool := c.isAlphanum || c = '-' || c = '_'

def isControl (c : Char) : Bool := (c.toNat < 32 && c ≠ '\t') || c.toNat = 127

def skipBlanks : Reader Unit := modify (·.dropWhile isBlank)

def skipComment : Reader Unit := do
  match ← get with
  | '#' :: cs =>
    if (cs.takeWhile (· ≠ '\n')).any isControl then malformed
    else set (cs.dropWhile (· ≠ '\n'))
  | _ => return

def skipText (text : List Char) : Reader Bool := do
  let cs ← get
  if text.isPrefixOf cs then
    set (cs.drop text.length)
    return true
  else return false

/-! ## Strings -/

def hexValue? (digits : List Char) : Option Nat :=
  digits.foldlM (fun n c =>
    if c.isDigit then some (16 * n + (c.toNat - '0'.toNat))
    else if 'a' ≤ c ∧ c ≤ 'f' then some (16 * n + (c.toNat - 'a'.toNat + 10))
    else if 'A' ≤ c ∧ c ≤ 'F' then some (16 * n + (c.toNat - 'A'.toNat + 10))
    else none) 0

def hexChar (width : Nat) : Reader Char := do
  let cs ← get
  if cs.length < width then malformed
  else match hexValue? (cs.take width) with
    | some n =>
      if n.isValidChar then
        set (cs.drop width)
        return Char.ofNat n
      else malformed
    | none => malformed

/-- What follows a backslash in a basic string. In a string of many lines it may join two lines. -/
def escape (multiline : Bool) : Reader (List Char) := do
  match ← get with
  | [] => malformed
  | c :: cs =>
    set cs
    match c with
    | 'b' => return ['\x08']
    | 't' => return ['\t']
    | 'n' => return ['\n']
    | 'f' => return ['\x0c']
    | 'r' => return ['\r']
    | '"' => return ['"']
    | '\\' => return ['\\']
    | 'u' => return [← hexChar 4]
    | 'U' => return [← hexChar 8]
    | _ =>
      if !(multiline && isBlankOrBreak c) then malformed
      else match (c :: cs).dropWhile isBlank with
        | [] =>
          set ([] : List Char)
          return []
        | '\n' :: rest =>
          set (rest.dropWhile isBlankOrBreak)
          return []
        | _ => malformed

def basicBody (multiline : Bool) : Nat → Reader (List Char)
  | 0 => malformed
  | n + 1 => do
    match ← get with
    | [] => malformed
    | '"' :: cs =>
      if !multiline then
        set cs
        return []
      else match cs with
        | '"' :: '"' :: rest =>
          set rest
          return []
        | _ =>
          set cs
          return '"' :: (← basicBody multiline n)
    | '\\' :: cs =>
      set cs
      let text ← escape multiline
      return text ++ (← basicBody multiline n)
    | c :: cs =>
      if isControl c && !(multiline && c = '\n') then malformed
      else
        set cs
        return c :: (← basicBody multiline n)

def literalBody (multiline : Bool) (close : List Char) : Nat → Reader (List Char)
  | 0 => malformed
  | n + 1 => do
    if ← skipText close then return []
    else match ← get with
      | [] => malformed
      | c :: cs =>
        if isControl c && !(multiline && c = '\n') then malformed
        else
          set cs
          return c :: (← literalBody multiline close n)

/-- Up to two quotes more than the three that close a string of many lines belong to it. -/
def extraQuotes (quote : Char) : Reader (List Char) := do
  if ← skipText [quote, quote] then return [quote, quote]
  else if ← skipText [quote] then return [quote]
  else return []

def string : Reader (Option String) := do
  let n := (← get).length
  if ← skipText ['"', '"', '"'] then
    let _ ← skipText ['\n']
    let body ← basicBody true n
    return some (String.ofList (body ++ (← extraQuotes '"')))
  else if ← skipText ['"'] then
    return some (String.ofList (← basicBody false n))
  else if ← skipText ['\'', '\'', '\''] then
    let _ ← skipText ['\n']
    let body ← literalBody true ['\'', '\'', '\''] n
    return some (String.ofList (body ++ (← extraQuotes '\'')))
  else if ← skipText ['\''] then
    return some (String.ofList (← literalBody false ['\''] n))
  else return none

/-! ## Keys -/

def keyPart : Reader String := do
  let cs ← get
  match cs with
  | [] => malformed
  | c :: rest =>
    if isBare c then
      set (cs.dropWhile isBare)
      return String.ofList (cs.takeWhile isBare)
    else if c = '"' then
      set rest
      return String.ofList (← basicBody false cs.length)
    else if c = '\'' then
      set rest
      return String.ofList (← literalBody false ['\''] cs.length)
    else malformed

def keyWithin : Nat → Reader (List String)
  | 0 => malformed
  | n + 1 => do
    let part ← keyPart
    skipBlanks
    if ← skipText ['.'] then
      skipBlanks
      return part :: (← keyWithin n)
    else return [part]

def key : Reader (List String) := do keyWithin ((← get).length + 1)

/-! ## Numbers -/

def digitRun (isDigit : Char → Bool) : List Char → List Char × List Char
  | [] => ([], [])
  | c :: '_' :: d :: cs =>
    if isDigit c then
      if isDigit d then
        let (run, rest) := digitRun isDigit (d :: cs)
        (c :: run, rest)
      else ([c], '_' :: d :: cs)
    else ([], c :: '_' :: d :: cs)
  | c :: cs =>
    if isDigit c then
      let (run, rest) := digitRun isDigit cs
      (c :: run, rest)
    else ([], c :: cs)

def isHexDigit (c : Char) : Bool :=
  c.isDigit || ('a' ≤ c && c ≤ 'f') || ('A' ≤ c && c ≤ 'F')

def radixInteger? : List Char → Option (Value × List Char)
  | '0' :: mark :: cs =>
    let (base, isDigit) : Nat × (Char → Bool) := match mark with
      | 'x' => (16, isHexDigit)
      | 'o' => (8, fun c => '0' ≤ c && c ≤ '7')
      | 'b' => (2, fun c => c = '0' || c = '1')
      | _ => (0, fun _ => false)
    match digitRun isDigit cs with
    | ([], _) => none
    | (run, rest) =>
      some (.integer (run.foldl (fun n c => base * n + (hexValue? [c]).getD 0) 0), rest)
  | _ => none

def fractionAt : List Char → List Char × List Char
  | '.' :: cs =>
    match digitRun Char.isDigit cs with
    | ([], _) => ([], '.' :: cs)
    | found => found
  | cs => ([], cs)

def exponentAt : List Char → Option Int × List Char
  | c :: cs =>
    if c = 'e' ∨ c = 'E' then
      let (negative, digits) := Decimal.signAt cs
      match digitRun Char.isDigit digits with
      | ([], _) => (none, c :: cs)
      | (run, rest) =>
        let n : Int := Nat.ofDigitChars 10 run 0
        (some (if negative then -n else n), rest)
    else (none, c :: cs)
  | [] => (none, [])

/-- A decimal number; a zero in front stands alone. -/
def decimal? (cs : List Char) : Except Error (Option (Value × List Char)) :=
  let (negative, rest) := Decimal.signAt cs
  let (whole, rest) := match rest with
    | '0' :: r => (['0'], r)
    | r => digitRun Char.isDigit r
  if whole.isEmpty then .ok none
  else
    let (fraction, rest) := fractionAt rest
    let (exponent, rest) := exponentAt rest
    if fraction.isEmpty && exponent.isNone then
      if maxDigits < whole.length then .error (.digitLimit whole.length)
      else
        let n : Int := Nat.ofDigitChars 10 whole 0
        .ok (some (.integer (if negative then -n else n), rest))
    else
      let power := exponent.getD 0 - fraction.length
      .ok (some (.decimal (.ofDecimal negative (Nat.ofDigitChars 10 (whole ++ fraction) 0) power), rest))

def specialNumber? (cs : List Char) : Option (Value × List Char) :=
  let (negative, rest) := Decimal.signAt cs
  match rest with
  | 'i' :: 'n' :: 'f' :: r => some (.decimal (.infinity negative), r)
  | 'n' :: 'a' :: 'n' :: r => some (.decimal .nan, r)
  | _ => none

/-! ## Dates and times -/

def fixed? (width : Nat) (cs : List Char) : Option (Nat × List Char) :=
  let digits := cs.take width
  if digits.length = width ∧ digits.all Char.isDigit then
    some (Nat.ofDigitChars 10 digits 0, cs.drop width)
  else none

def char? (c : Char) : List Char → Option (List Char)
  | d :: cs => if c = d then some cs else none
  | [] => none

def daysInMonth (year month : Nat) : Nat :=
  if month = 2 then
    if year % 4 = 0 ∧ (year % 100 ≠ 0 ∨ year % 400 = 0) then 29 else 28
  else if month = 4 ∨ month = 6 ∨ month = 9 ∨ month = 11 then 30
  else 31

/-- Year, month and day of a date that has the right form; it need not be in the calendar. -/
def date? (cs : List Char) : Option ((Nat × Nat × Nat) × List Char) := do
  let (year, cs) ← fixed? 4 cs
  let cs ← char? '-' cs
  let (month, cs) ← fixed? 2 cs
  guard (1 ≤ month ∧ month ≤ 12)
  let cs ← char? '-' cs
  let (day, cs) ← fixed? 2 cs
  guard (1 ≤ day ∧ day ≤ 31)
  return ((year, month, day), cs)

def clock? (cs : List Char) : Option (List Char) := do
  let (hour, cs) ← fixed? 2 cs
  guard (hour ≤ 23)
  let cs ← char? ':' cs
  let (minute, cs) ← fixed? 2 cs
  guard (minute ≤ 59)
  return cs

def time? (cs : List Char) : Option (List Char) := do
  let cs ← clock? cs
  let cs ← char? ':' cs
  let (second, cs) ← fixed? 2 cs
  guard (second ≤ 59)
  return match cs with
    | '.' :: d :: rest => if d.isDigit then rest.dropWhile Char.isDigit else cs
    | _ => cs

def skipOffset (cs : List Char) : List Char :=
  match cs with
  | c :: rest =>
    if c = 'Z' ∨ c = 'z' then rest
    else if c = '+' ∨ c = '-' then (clock? rest).getD cs
    else cs
  | [] => []

def timeOfDate? : List Char → Option (List Char)
  | c :: rest => if c = 'T' ∨ c = 't' ∨ c = ' ' then (time? rest).map skipOffset else none
  | [] => none

def upTo (rest cs : List Char) : String := String.ofList (cs.take (cs.length - rest.length))

/-- A date, a time, or a date with a time. A date outside the calendar is refused. -/
def moment? (cs : List Char) : Except Error (Option (Value × List Char)) :=
  match date? cs with
  | some ((year, month, day), rest) =>
    if year = 0 ∨ daysInMonth year month < day then .error .malformed
    else match timeOfDate? rest with
      | some rest => .ok (some (.dateTime (upTo rest cs), rest))
      | none => .ok (some (.date (upTo rest cs), rest))
  | none => .ok ((time? cs).map fun rest => (.time (upTo rest cs), rest))

def unquoted : Reader Value := do
  let cs ← get
  match ← moment? cs with
  | some (v, rest) => set rest; return v
  | none =>
    match radixInteger? cs with
    | some (v, rest) => set rest; return v
    | none =>
      match ← decimal? cs with
      | some (v, rest) => set rest; return v
      | none =>
        match specialNumber? cs with
        | some (v, rest) => set rest; return v
        | none => malformed

end Pasture.Manifest.Toml
