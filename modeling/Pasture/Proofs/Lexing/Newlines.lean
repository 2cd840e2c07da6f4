import Pasture.Proofs.Lexing.Parts
import Pasture.Proofs.Lexing.Rendering

/-! # The newlines among the tokens

A gap has one newline token if a run of layout in it breaks the line, however often, and none
otherwise. The line breaks in block comments, in continued lines and in literals do not count.
-/
namespace Pasture.Lexing

def Piece.BreaksLine (p : Piece) : Prop := p.form = .layout ∧ ∃ c ∈ p.text, isBreak c

inductive NewlineFor (ps : List Piece) : List Token → Prop where
  | silent : (∀ p ∈ ps, ¬p.BreaksLine) → NewlineFor ps []
  | newline {t} : (∃ p ∈ ps, p.BreaksLine) → t.lexeme = .newline → NewlineFor ps [t]

/-- The gap in front of `rest` has these parts and no others, and these are its tokens. -/
structure GapTokens (gap rest : List Char) (ps : List Piece) (news : List Token) : Prop where
  text : ps.flatMap Piece.text = gap
  parts : Parts rest ps
  only : ∀ qs, Parts rest qs → qs.flatMap Piece.text = gap → qs = ps
  newlines : NewlineFor ps news

/-- The tokens of a text behind `before`: those of a gap, then that of a lexeme, which has its place
in the source, and so on, and behind the last gap the end. -/
inductive Spaced (file : String) : List Char → List Char → List Token → Prop where
  | last {before gap ps news} : GapTokens gap [] ps news →
      Spaced file before gap (news ++ [endToken file (Position.start.advance (before ++ gap))])
  | next {before gap text rest ps news t ts} : GapTokens gap (text ++ rest) ps news →
      t.lexeme ≠ .newline → t.lexeme ≠ .endOfInput → text ≠ [] →
      t.span = some (.between file (Position.start.advance (before ++ gap))
        (Position.start.advance (before ++ gap ++ text))) →
      Spaced file (before ++ gap ++ text) rest ts →
      Spaced file before (gap ++ (text ++ rest)) (news ++ t :: ts)

variable {file : String} {before gap text rest after : List Char} {p : Piece} {ps qs : List Piece}
  {news ts : List Token}

theorem Parts.gapTokens (h : Parts rest ps) (hnews : NewlineFor ps news) :
    GapTokens (ps.flatMap Piece.text) rest ps news := by
  constructor
  · rfl
  · exact h
  · intro qs hqs htext
    exact hqs.unique h htext
  · exact hnews

theorem tokensOf_break (hbreak : p.BreaksLine) (file : String) (place : Position)
    (qs : List Piece) :
    ∃ t : Token, t.lexeme = .newline ∧
      tokensOf file place false (p :: qs) = t :: tokensOf file (place.advance p.text) true qs := by
  obtain ⟨hform, hchar⟩ := hbreak
  have hany : p.text.any isBreak = true := List.any_eq_true.2 hchar
  simp only [tokensOf, hform, hany, Bool.not_false, Bool.and_true, if_true]
  exact ⟨_, rfl, rfl⟩

/-- A part of a gap adds a newline to its tokens if it is the first one that breaks the line. -/
theorem NewlineFor.step (h : NewlineFor ps news) (hp : Part p after) (file : String)
    (place : Position) (qs : List Piece) : ∃ more, NewlineFor (ps ++ [p]) more ∧
      news ++ tokensOf file place (!news.isEmpty) (p :: qs) =
        more ++ tokensOf file (place.advance p.text) (!more.isEmpty) qs := by
  have hl := hp.no_lexeme
  cases h with
  | silent hsilent =>
    by_cases hbreak : p.BreaksLine
    · obtain ⟨t, ht, htokens⟩ := tokensOf_break hbreak file place qs
      exact ⟨[t], .newline ⟨p, by simp, hbreak⟩ ht, htokens⟩
    · have hnone : ∀ q ∈ ps ++ [p], ¬q.BreaksLine := by
        intro q hq
        rcases List.mem_append.1 hq with hq | hq
        · exact hsilent q hq
        · rw [List.mem_singleton.1 hq]
          exact hbreak
      refine ⟨[], .silent hnone, ?_⟩
      cases hform : p.form with
      | lexeme l => exact absurd hform (hl l)
      | continuation | comment => simp only [tokensOf, hform]
      | layout =>
        have hany : p.text.any isBreak = false := by
          rw [← Bool.not_eq_true, List.any_eq_true]
          exact fun hchar => hbreak ⟨hform, hchar⟩
        simp only [tokensOf, hform, hany, Bool.false_and, Bool.false_eq_true, if_false]
  | @newline t hbroken ht =>
    obtain ⟨q, hq, hbreak⟩ := hbroken
    refine ⟨[t], .newline ⟨q, List.mem_append_left [p] hq, hbreak⟩ ht, ?_⟩
    cases hform : p.form with
    | lexeme l => exact absurd hform (hl l)
    | continuation | comment => simp only [tokensOf, hform]
    | layout => simp [tokensOf, hform]

/-- By induction on the pieces that are left. The parts of the gap before them and its tokens so far
are handed on, and a lexeme starts anew. -/
theorem tokensOf_spaced (hcuts : Cuts text qs) (hparts : Parts text ps)
    (hnews : NewlineFor ps news) :
    Spaced file before (ps.flatMap Piece.text ++ text)
      (news ++ (tokensOf file (Position.start.advance (before ++ ps.flatMap Piece.text))
        (!news.isEmpty) qs ++
        [endToken file (Position.start.advance (before ++ ps.flatMap Piece.text ++ text))])) := by
  induction hcuts generalizing before ps news with
  | nil =>
    rw [List.append_nil, List.append_nil]
    exact .last (hparts.gapTokens hnews)
  | @cons c cs p rest qs hfirst _ ih =>
    obtain ⟨hne, htiles⟩ := Piece.first_tiles c cs p rest hfirst
    rw [← htiles] at hparts ⊢
    by_cases hl : ∃ l, p.form = .lexeme l
    · obtain ⟨l, hl⟩ := hl
      obtain ⟨hnew, hend⟩ := Piece.first_lexeme hfirst hl
      have hrest : Spaced file (before ++ ps.flatMap Piece.text ++ p.text) ([] ++ rest) _ :=
        ih .nil (.silent (by simp))
      rw [List.flatMap_nil, List.append_nil] at hrest
      simp only [tokensOf, hl]
      refine .next (hparts.gapTokens hnews) hnew hend hne ?_ ?_
      · simp [Token.plain]
      · simpa using hrest
    · have hpart := (Piece.leads_of_first hfirst).part (not_exists.1 hl)
      obtain ⟨more, hmore, htokens⟩ := hnews.step hpart file
        (Position.start.advance (before ++ ps.flatMap Piece.text)) qs
      have hgrown : Parts rest (ps ++ [p]) := by
        apply Parts.append
        · simpa using hparts
        · exact .cons (by simpa using hpart) .nil
      have hrest : Spaced file before _ _ := ih hgrown hmore
      rw [← List.append_assoc news, htokens]
      simpa using hrest

theorem Spaced.parted (h : Spaced file before text ts) : Parted (ts.map Token.lexeme) := by
  induction h with
  | @last before gap ps news hgap =>
    obtain ⟨-, -, -, hnews⟩ := hgap
    cases hnews with
    | silent => simp [Parted]
    | newline hbroken ht => simp [Parted, endToken, Token.plain]
  | @next before gap text rest ps news t ts hgap hnew _ _ _ _ ih =>
    have hlexeme : Parted ((t :: ts).map Token.lexeme) := by
      refine List.isChain_cons.2 ⟨?_, ih⟩
      intro l _ hl
      exact absurd hl hnew
    obtain ⟨-, -, -, hnews⟩ := hgap
    cases hnews with
    | silent => exact hlexeme
    | newline hbroken ht =>
      refine List.isChain_cons.2 ⟨?_, hlexeme⟩
      rintro l ⟨⟩ _
      exact hnew

/-- Every gap of a text that is read has one newline if a run of layout in it breaks the line and none
otherwise, and no newline stands next to another one. -/
theorem newline_per_gap {source file : String} {tokens : List Token}
    (h : lex source file = .ok tokens) :
    Spaced file [] source.toList tokens ∧ Parted (tokens.map Token.lexeme) := by
  obtain ⟨hfault, rfl⟩ := lex_eq_ok.1 h
  have htext : (scan source.toList).text = source.toList := by
    obtain ⟨rest, htext, hrest⟩ := scan_text source.toList
    rw [hrest hfault, List.append_nil] at htext
    exact htext
  have hspaced : Spaced file [] ([] ++ source.toList) _ :=
    tokensOf_spaced (scan_cuts hfault) .nil (.silent (by simp))
  rw [htext]
  exact ⟨hspaced, hspaced.parted⟩

/-- Three of the six line breaks are in a comment or behind a backslash. -/
theorem newline_per_gap_mixed :
    ∃ tokens, lex "a\n/*\n*/#c\r\\\n\nb\n" "f" = .ok tokens ∧
      tokens.map Token.lexeme = [.identifier (.simple "a"), .newline, .identifier (.simple "b"),
        .newline, .endOfInput] ∧
      Spaced "f" [] "a\n/*\n*/#c\r\\\n\nb\n".toList tokens ∧ Parted (tokens.map Token.lexeme) := by
  have hfault : (scan "a\n/*\n*/#c\r\\\n\nb\n".toList).fault = none := by decide +kernel
  have hlex : lex "a\n/*\n*/#c\r\\\n\nb\n" "f" = .ok _ := lex_eq_ok.2 ⟨hfault, rfl⟩
  exact ⟨_, hlex, by decide +kernel, newline_per_gap hlex⟩

end Pasture.Lexing
