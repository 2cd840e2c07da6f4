import Pasture.Lexing.Numeral

/-! # Tokens of a text

A text is cut into pieces from left to right: lexemes, and between them layout, block comments and
continued lines. The texts of the pieces make up the text again, up to the first fault if there is
one; this and the fact that no piece is empty are the main statements.

The lexemes become tokens with their spans. A layout that breaks the line becomes a newline token
that starts at its first line break, unless a newline token was the last one before it. The end of
the text is a token too.
-/
namespace Pasture.Lexing

/-! ## Gaps between lexemes

Layout is made of spaces, tabs, line breaks and comments that run from `#` to the end of the line.
A block comment ends with the first `*` and `/` after its opening.
-/

def isBreak (c : Char) : Bool := c = '\n' || c = '\r'

def isSpace (c : Char) : Bool := c = ' ' || c = '\t'

/-- The longest layout at the front of a text, and the rest; `comment` tells that the text goes on
inside a line comment. -/
def layoutRun (comment : Bool) : List Char → List Char × List Char
  | [] => ([], [])
  | c :: cs =>
    if isBreak c then
      let (run, rest) := layoutRun false cs
      (c :: run, rest)
    else if comment || c = '#' then
      let (run, rest) := layoutRun true cs
      (c :: run, rest)
    else if isSpace c then
      let (run, rest) := layoutRun false cs
      (c :: run, rest)
    else ([], c :: cs)

def closeComment : List Char → Option (List Char × List Char)
  | [] => none
  | '*' :: '/' :: cs => some (['*', '/'], cs)
  | c :: cs => (closeComment cs).map fun (body, rest) => (c :: body, rest)

theorem layoutRun_append (comment : Bool) (text : List Char) :
    (layoutRun comment text).1 ++ (layoutRun comment text).2 = text := by
  induction text generalizing comment with
  | nil => rfl
  | cons c cs ih =>
    by_cases hb : isBreak c
    · simp [layoutRun, hb, ih]
    · by_cases hc : comment || c = '#'
      · simp_all [layoutRun]
      · by_cases hs : isSpace c <;> simp_all [layoutRun]

theorem closeComment_append {text body rest : List Char}
    (h : closeComment text = some (body, rest)) : body ++ rest = text := by
  fun_induction closeComment text generalizing body with
  | case1 => simp at h
  | case2 cs => cases h; rfl
  | case3 c cs _ ih =>
    obtain ⟨⟨b, r⟩, hb, he⟩ := Option.map_eq_some_iff.1 h
    cases he
    simp [ih hb]

/-! ## Items of quoted literals

Between the quotes of a literal stand items: a character by itself, or a backslash with one of the
seven characters that have a meaning behind it.
-/

inductive Item where
  | plain (c : Char)
  /-- A backslash and `mark` stand for `value`. -/
  | escaped (mark value : Char)
  deriving DecidableEq, Repr

def escapeValue? : Char → Option Char
  | 'n' => some '\n'
  | 'r' => some '\r'
  | 't' => some '\t'
  | '\'' => some '\''
  | '"' => some '"'
  | '\\' => some '\\'
  | '0' => some '\x00'
  | _ => none

namespace Item

def text : Item → List Char
  | plain c => [c]
  | escaped mark _ => ['\\', mark]

def value : Item → Char
  | plain c => c
  | escaped _ value => value

def run (close : Char) : List Char → List Item × List Char
  | [] => ([], [])
  | ['\\'] => ([], ['\\'])
  | '\\' :: mark :: cs =>
    match escapeValue? mark with
    | some value =>
      let (items, rest) := run close cs
      (.escaped mark value :: items, rest)
    | none => ([], '\\' :: mark :: cs)
  | c :: cs =>
    if c = close then ([], c :: cs)
    else
      let (items, rest) := run close cs
      (.plain c :: items, rest)

theorem run_append (close : Char) (cs : List Char) :
    (run close cs).1.flatMap text ++ (run close cs).2 = cs := by
  fun_induction run close cs <;> simp_all [text]

end Item

/-! ## Pieces -/

inductive Form where
  | layout
  /-- A backslash at the end of a line and the layout behind it. -/
  | continuation
  | comment
  | lexeme (l : Lexeme)
  deriving DecidableEq, Repr

structure Piece where
  form : Form
  text : List Char
  deriving DecidableEq, Repr

abbrev Cut := Except Fault (Piece × List Char)

def isWordStart (c : Char) : Bool := c.isAlpha || c = '_'

def isWordChar (c : Char) : Bool := c.isAlphanum || c = '_'

def lexemeOfWord (word : List Char) : Lexeme :=
  match Keyword.ofWord? word with
  | some k => .keyword k
  | none =>
    match Literal.ofWord? word with
    | some l => .literal l
    | none => .identifier (.simple (String.ofList word))

namespace Piece

def layout (cs : List Char) : Cut :=
  let (run, rest) := layoutRun false cs
  .ok (⟨.layout, run⟩, rest)

def continuation (cs : List Char) : Cut :=
  if cs.head?.any isBreak then
    let (run, rest) := layoutRun false cs
    .ok (⟨.continuation, '\\' :: run⟩, rest)
  else .error (.malformed .strayBackslash [])

def comment (cs : List Char) : Cut :=
  match closeComment cs with
  | some (body, rest) => .ok (⟨.comment, '/' :: '*' :: body⟩, rest)
  | none => .error (.malformed .openComment [])

def number (cs : List Char) : Cut := do
  let (n, rest) ← Numeral.read cs
  let l ← n.literal
  return (⟨.lexeme (.literal l), n.text⟩, rest)

def string (cs : List Char) : Cut :=
  let (items, rest) := Item.run '"' cs
  let text := '"' :: items.flatMap Item.text
  match rest with
  | [] => .error (.malformed .openString [])
  | ['\\'] => .error (.malformed .missingEscape (text ++ ['\\']))
  | '\\' :: mark :: _ => .error (.malformed (.unknownEscape mark) text)
  | quote :: rest =>
    .ok (⟨.lexeme (.literal (.string (some (String.ofList (items.map Item.value))))), text ++ [quote]⟩,
      rest)

def closeCharacter (item : Item) : List Char → Cut
  | [] => .error (.malformed .openCharacter ('\'' :: item.text))
  | '\'' :: rest =>
    .ok (⟨.lexeme (.literal (.char (some item.value.toString))), '\'' :: item.text ++ ['\'']⟩, rest)
  | _ => .error (.malformed .longCharacter [])

def character : List Char → Cut
  | [] => .error (.malformed .openCharacter ['\''])
  | '\'' :: _ => .error (.malformed .emptyCharacter [])
  | ['\\'] => .error (.malformed .missingEscape ['\'', '\\'])
  | '\\' :: mark :: cs =>
    match escapeValue? mark with
    | some value => closeCharacter (.escaped mark value) cs
    | none => .error (.malformed (.unknownEscape mark) ['\''])
  | c :: cs => closeCharacter (.plain c) cs

def word (cs : List Char) : Cut :=
  let w := cs.takeWhile isWordChar
  .ok (⟨.lexeme (lexemeOfWord w), w⟩, cs.dropWhile isWordChar)

/-- An operator, fused with `=` where that makes a compound assignment, or a symbol. -/
def punctuation (c : Char) (cs : List Char) : Cut :=
  match Operator.longest? (c :: cs) with
  | some op =>
    let rest := (c :: cs).drop op.spelling.length
    match op.isAssignable, rest with
    | true, '=' :: rest => .ok (⟨.lexeme (.fused op), op.spelling ++ ['=']⟩, rest)
    | _, _ => .ok (⟨.lexeme (.operator op), op.spelling⟩, rest)
  | none =>
    match Symbol.ofChar? c with
    | some s => .ok (⟨.lexeme (.symbol s), [c]⟩, cs)
    | none => .error (.malformed (.unexpected c) [])

def first (c : Char) (cs : List Char) : Cut :=
  if isSpace c || isBreak c || c = '#' then layout (c :: cs)
  else if c = '\\' then continuation cs
  else if c = '/' && cs.head? = some '*' then comment cs.tail
  else if c.isDigit || (c = '.' && cs.head?.any Char.isDigit) then number (c :: cs)
  else if c = '\'' then character cs
  else if c = '"' then string cs
  else if isWordStart c then word (c :: cs)
  else punctuation c cs

/-- What a cut at the front of `cs` has to give: a piece that is not empty and the rest behind it. -/
def Tiles (cs : List Char) (cut : Cut) : Prop :=
  ∀ p rest, cut = .ok (p, rest) → p.text ≠ [] ∧ p.text ++ rest = cs

theorem layout_tiles {c : Char} (cs : List Char) (hc : isSpace c || isBreak c || c = '#') :
    Tiles (c :: cs) (layout (c :: cs)) := by
  intro p rest h
  simp only [layout, Except.ok.injEq, Prod.mk.injEq] at h
  obtain ⟨rfl, rfl⟩ := h
  refine ⟨?_, layoutRun_append false (c :: cs)⟩
  by_cases hb : isBreak c
  · simp [layoutRun, hb]
  · by_cases hh : c = '#'
    · subst hh
      simp [layoutRun, isBreak]
    · have hs : isSpace c := by simpa [hb, hh] using hc
      simp [layoutRun, hb, hh, hs]

theorem continuation_tiles (cs : List Char) : Tiles ('\\' :: cs) (continuation cs) := by
  intro p rest h
  simp only [continuation] at h
  split at h
  · cases h
    simp [layoutRun_append]
  · cases h

theorem comment_tiles (cs : List Char) : Tiles ('/' :: '*' :: cs) (comment cs) := by
  intro p rest h
  unfold comment at h
  split at h
  · rename_i body r hb
    cases h
    simp [closeComment_append hb]
  · cases h

theorem number_tiles {c : Char} (cs : List Char) (hc : isRunChar c ∨ c = '.') :
    Tiles (c :: cs) (number (c :: cs)) := by
  intro p rest h
  unfold number at h
  cases hr : Numeral.read (c :: cs) with
  | error e => simp [hr, bind, Except.bind] at h
  | ok r =>
    cases hl : r.1.literal with
    | error e => simp [hr, hl, bind, Except.bind] at h
    | ok l =>
      simp only [hr, hl, bind, Except.bind, pure, Except.pure] at h
      cases h
      exact ⟨Numeral.text_ne_nil_of_read hr hc, Numeral.read_append hr⟩

theorem string_tiles (cs : List Char) : Tiles ('"' :: cs) (string cs) := by
  intro p rest h
  have hr := Item.run_append '"' cs
  simp only [string] at h
  split at h <;> cases h
  simp_all

theorem closeCharacter_tiles (item : Item) (cs : List Char) :
    Tiles ('\'' :: item.text ++ cs) (closeCharacter item cs) := by
  intro p rest h
  unfold closeCharacter at h
  split at h <;> cases h
  simp

theorem character_tiles (cs : List Char) : Tiles ('\'' :: cs) (character cs) := by
  intro p rest h
  unfold character at h
  split at h
  · cases h
  · cases h
  · cases h
  · split at h
    · exact closeCharacter_tiles _ _ _ _ h
    · cases h
  · exact closeCharacter_tiles _ _ _ _ h

theorem word_tiles {c : Char} (cs : List Char) (hc : isWordStart c) :
    Tiles (c :: cs) (word (c :: cs)) := by
  intro p rest h
  cases h
  refine ⟨?_, List.takeWhile_append_dropWhile⟩
  have : isWordChar c := by
    simp only [isWordStart, isWordChar, Char.isAlphanum, Bool.or_eq_true] at hc ⊢
    exact hc.imp_left .inl
  simp only [List.takeWhile_cons, this]
  exact List.cons_ne_nil _ _

theorem punctuation_tiles (c : Char) (cs : List Char) :
    Tiles (c :: cs) (punctuation c cs) := by
  intro p rest h
  unfold punctuation at h
  split at h
  · rename_i op hop
    have ha := List.prefix_iff_eq_append.1 (Operator.spelling_prefix_of_longest? hop)
    simp only at h
    split at h
    · rename_i r _ hd
      cases h
      rw [hd] at ha
      simp [op.spelling_ne_nil, ha]
    · cases h
      exact ⟨op.spelling_ne_nil, ha⟩
  · split at h <;> cases h
    simp

theorem first_tiles (c : Char) (cs : List Char) : Tiles (c :: cs) (first c cs) := by
  unfold first
  split
  · exact layout_tiles cs ‹_›
  · split
    · rename_i h; exact h ▸ continuation_tiles cs
    · split
      · rename_i h
        simp only [Bool.and_eq_true, decide_eq_true_eq] at h
        obtain ⟨rfl, h⟩ := h
        cases cs with
        | nil => simp at h
        | cons d ds => cases h; exact comment_tiles ds
      · split
        · rename_i h
          refine number_tiles cs ?_
          simp only [Bool.or_eq_true, Bool.and_eq_true, decide_eq_true_eq] at h
          exact h.imp (fun h => by simp [isRunChar, h]) (·.1)
        · split
          · rename_i h; exact h ▸ character_tiles cs
          · split
            · rename_i h; exact h ▸ string_tiles cs
            · split
              · exact word_tiles cs ‹_›
              · exact punctuation_tiles c cs

theorem length_rest_lt {c : Char} {cs rest : List Char} {p : Piece}
    (h : first c cs = .ok (p, rest)) : rest.length < (c :: cs).length := by
  obtain ⟨hp, ht⟩ := first_tiles c cs p rest h
  rw [← ht, List.length_append]
  have := List.length_pos_iff.2 hp
  omega

end Piece

/-- The pieces of a text from left to right, and the fault behind the last of them, if any. -/
structure Scan where
  pieces : List Piece
  fault : Option Fault
  deriving DecidableEq, Repr

def scan (text : List Char) : Scan :=
  match text with
  | [] => ⟨[], none⟩
  | c :: cs =>
    match h : Piece.first c cs with
    | .ok (p, rest) =>
      have : rest.length < (c :: cs).length := Piece.length_rest_lt h
      let more := scan rest
      ⟨p :: more.pieces, more.fault⟩
    | .error fault => ⟨[], some fault⟩
termination_by text.length
decreasing_by assumption

def Scan.text (s : Scan) : List Char := s.pieces.flatMap Piece.text

/-- The pieces are the front of the text, and all of it if there is no fault. -/
theorem scan_text (text : List Char) :
    ∃ rest, (scan text).text ++ rest = text ∧ ((scan text).fault = none → rest = []) := by
  fun_induction scan text with
  | case1 => exact ⟨[], by simp [Scan.text]⟩
  | case2 c cs p rest h _ _ ih =>
    obtain ⟨r, hr, hf⟩ := ih
    refine ⟨r, ?_, hf⟩
    have := (Piece.first_tiles c cs p rest h).2
    simp only [Scan.text, List.flatMap_cons, List.append_assoc] at hr ⊢
    rw [hr, this]
  | case3 c cs fault h => exact ⟨c :: cs, by simp [Scan.text]⟩

/-! ## Tokens -/

/-- The tokens of the pieces that start at `place`; `fresh` tells that the last token before them is
a newline. -/
def tokensOf (file : String) (place : Position) (fresh : Bool) : List Piece → List Token
  | [] => []
  | p :: ps =>
    let next := place.advance p.text
    match p.form with
    | .lexeme l => .plain l (some (.between file place next)) :: tokensOf file next false ps
    | .layout =>
      if p.text.any isBreak && !fresh then
        let start := place.advance (p.text.takeWhile (!isBreak ·))
        .plain .newline (some (.between file start next)) :: tokensOf file next true ps
      else tokensOf file next fresh ps
    | .continuation | .comment => tokensOf file next fresh ps

def endToken (file : String) (place : Position) : Token :=
  .plain .endOfInput (some (.between file place place))

def lex (source : String) (file : String) : Except Failure (List Token) :=
  let s := scan source.toList
  let last := Position.start.advance s.text
  match s.fault with
  | none => .ok (tokensOf file .start false s.pieces ++ [endToken file last])
  | some fault => .error (fault.failure file last)

end Pasture.Lexing
