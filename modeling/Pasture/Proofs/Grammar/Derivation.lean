import Pasture.Proofs.Grammar.StatementComplete

/-! # Derivations of modules

The ways to write a module, without its line breaks. A derivation gives lexemes, and marks the
places right behind simple statements and right behind import entries, where the layout of the text
matters.
-/
namespace Pasture

inductive Mark where
  | word (l : Lexeme)
  | statementEnd
  | entryEnd

def Mark.words (ms : List Mark) : List Lexeme :=
  ms.filterMap fun m => match m with
    | .word l => some l
    | _ => none

inductive Statement.Derives : List Statement → List Mark → Prop where
  | nil : Derives [] []
  | line {s ls ss ms} : s.Line ls → Derives ss ms →
      Derives (s :: ss) (ls.map .word ++ .statementEnd :: ms)
  | loop {condition body bs ss ms} : condition.Stands .whole → Derives body bs → Derives ss ms →
      Derives (.loop condition body :: ss)
        (.word (.keyword .loop) :: condition.yield.map .word ++
          .word (.symbol .lbrace) :: bs ++ .word (.symbol .rbrace) :: ms)
  | branch {condition body bs ss ms} : condition.Stands .whole → Derives body bs → Derives ss ms →
      Derives (.branch condition body none :: ss)
        (.word (.keyword .branch) :: condition.yield.map .word ++
          .word (.symbol .lbrace) :: bs ++ .word (.symbol .rbrace) :: ms)
  | otherwise {condition body bs other os ss ms} : condition.Stands .whole → Derives body bs →
      Derives other os → Derives ss ms →
      Derives (.branch condition body (some other) :: ss)
        (.word (.keyword .branch) :: condition.yield.map .word ++
          .word (.symbol .lbrace) :: bs ++ .word (.symbol .rbrace) ::
          .word (.keyword .otherwise) :: .word (.symbol .lbrace) :: os ++
          .word (.symbol .rbrace) :: ms)
  | elseIf {condition body bs condition' body' otherwise' is ss ms} : condition.Stands .whole →
      Derives body bs → Derives [.branch condition' body' otherwise'] is → Derives ss ms →
      Derives (.branch condition body (some [.branch condition' body' otherwise']) :: ss)
        (.word (.keyword .branch) :: condition.yield.map .word ++
          .word (.symbol .lbrace) :: bs ++ .word (.symbol .rbrace) ::
          .word (.keyword .otherwise) :: is ++ ms)

def Function.Derives (f : Function) (ms : List Mark) : Prop :=
  ∃ bs, Statement.Derives f.body bs ∧
    ms = (.keyword .function :: .identifier f.name :: .symbol .lparen ::
        commaJoin (f.parameters.map Parameter.print) ++ .symbol .rparen ::
        Function.printResult f.resultType).map .word ++
      .word (.symbol .lbrace) :: bs ++ [.word (.symbol .rbrace)]

/-- A name and what it is called here; an alias that is the name itself may be left out. -/
inductive Import.Named : Identifier × Identifier → List Lexeme → Prop where
  | bare (name) : Named (name, name) [.identifier name]
  | renamed (name localName) :
      Named (name, localName) [.identifier name, .keyword .naming, .identifier localName]

inductive Import.Names : List (Identifier × Identifier) → List Lexeme → Prop where
  | one {p ls} : Named p ls → Names [p] ls
  | more {p ls ps ks} : Named p ls → Names ps ks → Names (p :: ps) (ls ++ .symbol .comma :: ks)

/-- Names with one origin; each name is its own origin if it is left out. -/
inductive Import.Entry : List Import → List Lexeme → Prop where
  | whole {ps ls} : Names ps ls → Entry (ps.map fun p => ⟨p.1, p.2, p.1⟩) ls
  | part {ps ls} (origin) : Names ps ls →
      Entry (ps.map fun p => ⟨p.1, p.2, origin⟩) (ls ++ [.keyword .origin, .identifier origin])

inductive Import.Entries : List Import → List Mark → Prop where
  | nil : Entries [] []
  | cons {is ls js ms} : Entry is ls → Entries js ms →
      Entries (is ++ js) (ls.map .word ++ .entryEnd :: ms)

inductive Import.Block : List Import → List Mark → Prop where
  | none : Block [] []
  | some {is ms} : Entries is ms →
      Block is (.word (.keyword .importing) :: .word (.symbol .lbrace) :: ms ++
        [.word (.symbol .rbrace)])

inductive Function.DerivesEach : List Function → List Mark → Prop where
  | nil : DerivesEach [] []
  | cons {f ms fs ns} : f.Derives ms → DerivesEach fs ns → DerivesEach (f :: fs) (ms ++ ns)

def Module.Derives (m : Module) (ms : List Mark) : Prop :=
  ∃ is fs ss, Import.Block m.imports is ∧ Function.DerivesEach m.functions fs ∧
    Statement.Derives m.statements ss ∧ ms = is ++ fs ++ ss ++ [.word .endOfInput]

theorem Statement.Derives.append {ss ts : List Statement} {ms ns : List Mark}
    (h : Derives ss ms) (k : Derives ts ns) : Derives (ss ++ ts) (ms ++ ns) := by
  induction h with
  | nil => exact k
  | line hl _ ih => simpa using Derives.line hl ih
  | loop hc hb _ _ ih => simpa using Derives.loop hc hb ih
  | branch hc hb _ _ ih => simpa using Derives.branch hc hb ih
  | otherwise hc hb ho _ _ _ ih => simpa using Derives.otherwise hc hb ho ih
  | elseIf hc hb hi _ _ _ ih => simpa using Derives.elseIf hc hb hi ih

theorem Statement.Derives.wellFormed {ss : List Statement} {ms : List Mark} (h : Derives ss ms) :
    ∀ s ∈ ss, s.WellFormed := by
  induction h with
  | nil => simp
  | line hl _ ih => simpa using ⟨hl.wellFormed, ih⟩
  | loop hc _ _ hb ih => simpa using ⟨.loop hc hb, ih⟩
  | branch hc _ _ hb ih => simpa using ⟨.branch hc hb (by simp), ih⟩
  | otherwise hc _ _ _ hb ho ih => simpa using ⟨.branch hc hb (by simpa using ho), ih⟩
  | elseIf hc _ _ _ hb hi ih => simpa using ⟨.branch hc hb (by simpa using hi), ih⟩

theorem Function.DerivesEach.wellFormed {fs : List Function} {ms : List Mark}
    (h : DerivesEach fs ms) : ∀ f ∈ fs, ∀ s ∈ f.body, s.WellFormed := by
  induction h with
  | nil => simp
  | cons hf _ ih =>
    obtain ⟨bs, hb, -⟩ := hf
    simpa using ⟨hb.wellFormed, ih⟩

theorem Module.Derives.wellFormed {m : Module} {ms : List Mark} (h : m.Derives ms) :
    m.WellFormed := by
  obtain ⟨is, fs, ss, -, hf, hs, -⟩ := h
  exact ⟨hf.wellFormed, hs.wellFormed⟩

/-- The tokens `ts` up to `rest` are the words, with line breaks before any of them, and the marked
places are right in front of a token that may stand there. -/
inductive Laid : List Token → List Mark → List Token → Prop where
  | done {bs : List Token} (rest : List Token) : Breaks (bs.map Token.lexeme) →
      Laid (bs ++ rest) [] rest
  | word {bs : List Token} {t ts ms rest} : Breaks (bs.map Token.lexeme) → t.lexeme ≠ .newline →
      Laid ts ms rest → Laid (bs ++ t :: ts) (.word t.lexeme :: ms) rest
  | statementEnd {t ts ms rest} :
      t.lexeme = .newline ∨ t.lexeme = .symbol .rbrace ∨ t.lexeme = .endOfInput →
      Laid (t :: ts) ms rest → Laid (t :: ts) (.statementEnd :: ms) rest
  | entryEnd {t ts ms rest} : t.lexeme = .newline ∨ t.lexeme = .symbol .rbrace →
      Laid (t :: ts) ms rest → Laid (t :: ts) (.entryEnd :: ms) rest

namespace Laid

variable {ts mid rest : List Token} {ms ns : List Mark}

theorem newline_before {b : Token} (hb : b.lexeme = .newline) (h : Laid ts ms rest) :
    Laid (b :: ts) ms rest := by
  have more : ∀ {bs : List Token}, Breaks (bs.map Token.lexeme) →
      Breaks ((b :: bs).map Token.lexeme) := by
    intro bs hbs l hl
    rcases List.mem_cons.1 hl with rfl | hl
    · exact hb
    · exact hbs l hl
  induction h with
  | done rest hbs => exact done rest (more hbs)
  | word hbs ht h _ => exact word (more hbs) ht h
  | statementEnd _ _ ih => exact statementEnd (.inl hb) ih
  | entryEnd _ _ ih => exact entryEnd (.inl hb) ih

theorem breaks_before {bs : List Token} (hb : Breaks (bs.map Token.lexeme)) (h : Laid ts ms rest) :
    Laid (bs ++ ts) ms rest := by
  induction bs with
  | nil => exact h
  | cons b bs ih =>
    have hbs : Breaks (bs.map Token.lexeme) := fun l hl => hb l (List.mem_cons_of_mem _ hl)
    exact (ih hbs).newline_before (hb _ List.mem_cons_self)

theorem refl (ts : List Token) : Laid ts [] ts := @done [] ts .nil

theorem trans (h : Laid ts ms mid) (k : Laid mid ns rest) : Laid ts (ms ++ ns) rest := by
  induction h with
  | done rest hbs => exact k.breaks_before hbs
  | word hbs ht _ ih => exact word hbs ht (ih k)
  | statementEnd ht _ ih => exact statementEnd ht (ih k)
  | entryEnd ht _ ih => exact entryEnd ht (ih k)

theorem cons {t : Token} (ht : t.lexeme ≠ .newline) (h : Laid ts ms rest) :
    Laid (t :: ts) (.word t.lexeme :: ms) rest :=
  @word [] t ts ms rest .nil ht h

theorem one {t : Token} {l : Lexeme} (ht : t.lexeme = l) (hl : l ≠ .newline) (rest : List Token) :
    Laid (t :: rest) [.word l] rest := by
  subst ht
  exact (refl rest).cons hl

/-- What is taken has the layout of its own lexemes. -/
theorem of_took {ls : List Lexeme} (h : Took ts ls rest) : Laid ts ((solid ls).map .word) rest := by
  obtain ⟨read, rfl, rfl⟩ := h
  induction read with
  | nil => exact refl rest
  | cons t read ih =>
    by_cases ht : t.lexeme = .newline
    · simpa [ht] using ih.newline_before ht
    · simpa [solid_cons ht] using ih.cons ht

theorem newlines (ts : List Token) : Laid ts [] (ts.dropWhile Token.isNewline) := by
  obtain ⟨ls, hls, htook⟩ := Grammar.newlines_took ts
  simpa [hls.solid] using of_took htook

/-- Without the line breaks, just the words have been read. -/
theorem read_eq (h : Laid ts ms rest) :
    ∃ read, ts = read ++ rest ∧ solid (read.map Token.lexeme) = Mark.words ms := by
  induction h with
  | @done bs rest hbs => exact ⟨bs, rfl, hbs.solid⟩
  | @word bs t ts ms rest hbs ht _ ih =>
    obtain ⟨read, rfl, hread⟩ := ih
    refine ⟨bs ++ t :: read, by simp, ?_⟩
    simp [hbs.solid, solid_cons ht, hread, Mark.words]
  | statementEnd _ _ ih | entryEnd _ _ ih => exact ih

theorem mem {t : Token} (h : Laid ts ms rest) (ht : t ∈ rest) : t ∈ ts := by
  obtain ⟨read, rfl, -⟩ := h.read_eq
  exact List.mem_append_right read ht

end Laid

end Pasture
