import Pasture.Manifest.Toml.Scalar

/-! # Documents of TOML

Arrays, inline tables and the statements of a document. A document remembers which tables have been
declared and which values are closed, since a table may be declared only once and the contents of an
array or an inline table may not be added to later.
-/
namespace Pasture.Manifest.Toml

def skipLayout : Nat → Reader Unit
  | 0 => return
  | n + 1 => do
    let before := (← get).length
    modify (·.dropWhile isBlankOrBreak)
    skipComment
    if (← get).length < before then skipLayout n

def arrayItems (value : Reader Value) : Nat → Reader (List Value)
  | 0 => malformed
  | n + 1 => do
    skipLayout n
    if ← skipText [']'] then return []
    else
      let v ← value
      skipLayout n
      if ← skipText [','] then return v :: (← arrayItems value n)
      else if ← skipText [']'] then return [v]
      else malformed

/-- Changes the table under a key, making the tables on the way to it that are missing. In a list of
tables the last one counts, if `lists` allows it. -/
def updateTable (lists : Bool) (change : Table → Except Error Table) :
    List String → Table → Except Error Table
  | [], t => change t
  | k :: ks, t =>
    match t.lookup k with
    | none => do
      let inner ← updateTable lists change ks []
      return t ++ [(k, .table inner)]
    | some (.table inner) => do
      let inner ← updateTable lists change ks inner
      return t.replace k (.table inner)
    | some (.list items) =>
      match lists, items.getLast? with
      | true, some (.table inner) => do
        let inner ← updateTable lists change ks inner
        return t.replace k (.list (items.dropLast ++ [.table inner]))
      | _, _ => .error .malformed
    | some _ => .error .malformed

def addEntry (k : String) (v : Value) (t : Table) : Except Error Table :=
  if (t.lookup k).isSome then .error .malformed else .ok (t ++ [(k, v)])

def splitKey (key : List String) : List String × String :=
  (key.dropLast, key.getLast?.getD "")

def isClosed : Value → Bool
  | .list _ | .table _ => true
  | _ => false

def leadsInto (places : List (List String)) (key : List String) : Bool :=
  places.any fun p => p.isPrefixOf key

def keyValue (value : Reader Value) : Reader (List String × Value) := do
  let k ← key
  if ← skipText ['='] then
    skipBlanks
    return (k, ← value)
  else malformed

/-- The entries of an inline table behind its opening brace, added to `t`; the entries under the
keys `closed` may not be added to. -/
def inlineEntries (value : Reader Value) : Nat → List (List String) → Table → Reader Table
  | 0, _, _ => malformed
  | n + 1, closed, t => do
    let (k, v) ← keyValue value
    if leadsInto closed k then malformed
    else
      let (parents, last) := splitKey k
      let t ← updateTable false (addEntry last v) parents t
      skipBlanks
      if ← skipText ['\x7d'] then return t
      else if ← skipText [','] then
        skipBlanks
        inlineEntries value n (if isClosed v then k :: closed else closed) t
      else malformed

def valueWithin : Nat → Reader Value
  | 0 => malformed
  | n + 1 => do
    match ← string with
    | some s => return .text s
    | none =>
      if ← skipText ['t', 'r', 'u', 'e'] then return .boolean true
      else if ← skipText ['f', 'a', 'l', 's', 'e'] then return .boolean false
      else if ← skipText ['['] then return .list (← arrayItems (valueWithin n) (n + 1))
      else if ← skipText ['\x7b'] then
        skipBlanks
        if ← skipText ['\x7d'] then return .table []
        else return .table (← inlineEntries (valueWithin n) (n + 1) [] [])
      else unquoted

def value : Reader Value := do valueWithin ((← get).length + 1)

/-- What has been read of a document. The keys in `pending` count as declared from the next header
on. -/
structure Document where
  entries : Table := []
  header : List String := []
  declared : List (List String) := []
  pending : List (List String) := []
  closed : List (List String) := []

namespace Document

def settle (d : Document) : Document :=
  { d with declared := d.pending ++ d.declared, pending := [] }

def openTable (d : Document) (key : List String) : Except Error Document :=
  if d.declared.contains key || leadsInto d.closed key then .error .malformed
  else do
    let entries ← updateTable true .ok key d.entries
    return { d with entries, header := key, declared := key :: d.declared }

def appendTable (k : String) (t : Table) : Except Error Table :=
  match t.lookup k with
  | none => .ok (t ++ [(k, .list [.table []])])
  | some (.list items) => .ok (t.replace k (.list (items ++ [.table []])))
  | some _ => .error .malformed

/-- The header of the next table of a list; what was said of the table before it is forgotten. -/
def openListed (d : Document) (key : List String) : Except Error Document :=
  if leadsInto d.closed key then .error .malformed
  else do
    let (parents, last) := splitKey key
    let entries ← updateTable true (appendTable last) parents d.entries
    let outside (k : List String) : Bool := !key.isPrefixOf k
    return { d with
      entries
      header := key
      declared := key :: d.declared.filter outside
      closed := d.closed.filter outside }

def between (d : Document) (key : List String) : List (List String) :=
  (List.range (key.length - 1)).map fun i => d.header ++ key.take (i + 1)

def add (d : Document) (key : List String) (v : Value) : Except Error Document :=
  let (parents, last) := splitKey key
  let way := d.between key
  if way.any d.declared.contains || leadsInto d.closed (d.header ++ parents) then .error .malformed
  else do
    let entries ← updateTable true (addEntry last v) (d.header ++ parents) d.entries
    return { d with
      entries
      pending := way ++ d.pending
      closed := if isClosed v then (d.header ++ key) :: d.closed else d.closed }

end Document

def header (d : Document) : Reader Document := do
  let d := d.settle
  if ← skipText ['[', '['] then
    skipBlanks
    let k ← key
    let d ← d.openListed k
    if ← skipText [']', ']'] then return d else malformed
  else
    let _ ← skipText ['[']
    skipBlanks
    let k ← key
    let d ← d.openTable k
    if ← skipText [']'] then return d else malformed

def statements : Nat → Document → Reader Document
  | 0, d => return d
  | n + 1, d => do
    skipBlanks
    match ← get with
    | [] => return d
    | '\n' :: cs =>
      set cs
      statements n d
    | c :: _ =>
      let d ←
        if isBare c || c = '"' || c = '\'' then do
          let (k, v) ← keyValue value
          d.add k v
        else if c = '[' then header d
        else if c = '#' then pure d
        else malformed
      skipBlanks
      skipComment
      match ← get with
      | [] => return d
      | '\n' :: cs =>
        set cs
        statements n d
      | _ => malformed

/-- A carriage return before a line feed is no part of the text. -/
def dropReturns : List Char → List Char
  | '\r' :: '\n' :: cs => '\n' :: dropReturns cs
  | c :: cs => c :: dropReturns cs
  | [] => []

def parse (text : String) : Except Error Table := do
  let cs := dropReturns text.toList
  let (d, _) ← (statements (cs.length + 1) {}).run cs
  return d.entries

end Pasture.Manifest.Toml
