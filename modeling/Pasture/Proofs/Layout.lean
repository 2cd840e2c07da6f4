import Pasture.Proofs.Grammar.Unplaced

/-! # The layout of a source does not matter

A source may be laid out anew: in front of a token by spaces, tabs, block comments and continued
lines, and behind an opening bracket or a comma by spaces, tabs, line breaks and line comments. It
has the same normal tokens then, and spells out the same module, or is rejected with the same message.
-/
namespace Pasture

open Lexing

def Failure.message : Failure → String
  | .rejected e => e.message
  | .digitLimit digits => digitLimitMessage digits

/-- The two sources have the same normal tokens, wherever these stand, and they spell out the same
modules or are rejected with the same messages. -/
structure SameReading (file source other : String) : Prop where
  tokens : (tokenise other file).map (·.map unplaced) = (tokenise source file).map (·.map unplaced)
  parse : ∀ name, (parseSource other file name).mapError Failure.message =
    (parseSource source file name).mapError Failure.message

section

variable {source other file : String} {raw raw' normal tokens : List Token}

theorem tokenise_eq_ok (hlex : lex source file = .ok raw) :
    tokenise source file = .ok normal ↔ normalise raw = .ok normal := by
  have htokenise : tokenise source file = (normalise raw).mapError .rejected := by
    rw [tokenise, hlex]
    rfl
  rw [htokenise]
  cases normalise raw <;> simp [Except.mapError]

/-- The message of a rejection is that of the stream without places. -/
theorem parseSource_message (h : tokenise source file = .ok tokens) (name : String) :
    (parseSource source file name).mapError Failure.message =
      (parseTokens (tokens.map unplaced) name).mapError ParseError.message := by
  rw [parseSource, h, parseTokens_unplaced]
  change ((parseTokens tokens name).mapError Failure.rejected).mapError Failure.message = _
  cases parseTokens tokens name with
  | ok m => rfl
  | error e => exact congrArg Except.error e.unplaced_message.symm

/-- The normal form without places is all that counts. -/
theorem sameReading_of_normal (hlex : lex source file = .ok raw)
    (h : tokenise source file = .ok normal) (hlex' : lex other file = .ok raw')
    (hsame : normalise (raw'.map unplaced) = normalise (raw.map unplaced)) :
    SameReading file source other := by
  have hnormal := (tokenise_eq_ok hlex).1 h
  rw [normalise_unplaced, normalise_unplaced, hnormal] at hsame
  obtain ⟨normal', hnormal', hmap⟩ :
      ∃ normal', normalise raw' = .ok normal' ∧ normal'.map unplaced = normal.map unplaced := by
    cases hresult : normalise raw' with
    | ok ts =>
      rw [hresult] at hsame
      exact ⟨ts, rfl, Except.ok.inj hsame⟩
    | error e =>
      rw [hresult] at hsame
      cases hsame
  have h' := (tokenise_eq_ok hlex').2 hnormal'
  constructor
  · rw [h, h']
    exact congrArg Except.ok hmap
  · intro name
    rw [parseSource_message h, parseSource_message h', hmap]

end

/-- Where the tokens of a source have a normal form, a filler may be put in front of any token, and a
padding behind any opening bracket or comma. -/
theorem layout_insensitive {source file : String} {raw normal : List Token}
    (hlex : lex source file = .ok raw) (h : tokenise source file = .ok normal) :
    (∀ before fill after t s, source.toList = before ++ after → t ∈ raw → t.lexeme ≠ .newline →
      t.lexeme ≠ .endOfInput → t.span = some s →
      s.StartsAt file (Position.start.advance before) → Filler fill →
      (∃ raw', lex (String.ofList (before ++ fill ++ after)) file = .ok raw' ∧
        raw'.map unplaced = raw.map unplaced) ∧
      SameReading file source (String.ofList (before ++ fill ++ after))) ∧
    ∀ before c fill after t s b, source.toList = before ++ c :: after → t ∈ raw →
      t.lexeme = .symbol b → b ∈ [.lparen, .lbrace, .lbracket, .comma] → t.span = some s →
      s.EndsAt file (Position.start.advance before) → Padding fill →
      SameReading file source (String.ofList (before ++ c :: (fill ++ after))) := by
  constructor
  · intro before fill after t s hsource ht hnew hend hs hstart hfill
    obtain ⟨raw', hlex', hraw⟩ := lex_filler hlex hsource ht hnew hend hs hstart hfill
    exact ⟨⟨raw', hlex', hraw⟩, sameReading_of_normal hlex h hlex' (by rw [hraw])⟩
  · intro before c fill after t s b hsource ht hl hb hs hends hfill
    obtain ⟨raw', ls, ks, js, hlex', hraw, hraw', hsame⟩ :=
      lex_padding hlex hsource ht hl hs hends hfill
    have habsorbs : b.absorbsNewline := by
      simp only [List.mem_cons, List.not_mem_nil, or_false] at hb
      rcases hb with rfl | rfl | rfl | rfl <;> rfl
    apply sameReading_of_normal hlex h hlex'
    rw [hraw, hraw']
    exact normalise_streamOf habsorbs hsame

theorem layout_insensitive_call :
    ∃ raw, lex "f(x)" "m" = .ok raw ∧ (∃ normal, tokenise "f(x)" "m" = .ok normal) ∧
      (∃ raw', lex "f(/**/\\\n x)" "m" = .ok raw' ∧ raw'.map unplaced = raw.map unplaced) ∧
      SameReading "m" "f(x)" "f(/**/\\\n x)" ∧ SameReading "m" "f(x)" "f(#\n x)" := by
  have hname : Piece.first 'f' ['(', 'x', ')'] =
      .ok (⟨.lexeme (.identifier (.simple "f")), ['f']⟩, ['(', 'x', ')']) := by decide
  have hopen : Piece.first '(' ['x', ')'] =
      .ok (⟨.lexeme (.symbol .lparen), ['(']⟩, ['x', ')']) := by decide
  have hargument : Piece.first 'x' [')'] =
      .ok (⟨.lexeme (.identifier (.simple "x")), ['x']⟩, [')']) := by decide
  have hclose : Piece.first ')' [] = .ok (⟨.lexeme (.symbol .rparen), [')']⟩, []) := by decide
  have hscan : scan ['f', '(', 'x', ')'] =
      ⟨[⟨.lexeme (.identifier (.simple "f")), ['f']⟩, ⟨.lexeme (.symbol .lparen), ['(']⟩,
        ⟨.lexeme (.identifier (.simple "x")), ['x']⟩, ⟨.lexeme (.symbol .rparen), [')']⟩],
        none⟩ := by
    rw [scan_cons hname, scan_cons hopen, scan_cons hargument, scan_cons hclose, scan]
  have htext : "f(x)".toList = ['f', '(', 'x', ')'] := by decide
  have hlex : lex "f(x)" "m" = .ok
      [.plain (.identifier (.simple "f")) (some ⟨"m", 1, 1, 1, 1⟩),
        .plain (.symbol .lparen) (some ⟨"m", 1, 2, 1, 2⟩),
        .plain (.identifier (.simple "x")) (some ⟨"m", 1, 3, 1, 3⟩),
        .plain (.symbol .rparen) (some ⟨"m", 1, 4, 1, 4⟩),
        .plain .endOfInput (some ⟨"m", 1, 5, 1, 4⟩)] := by
    refine lex_eq_ok.2 ⟨by rw [htext, hscan], ?_⟩
    rw [htext, hscan]
    rfl
  have htokenise := (tokenise_eq_ok hlex).2 (by rfl)
  obtain ⟨hfillers, hpaddings⟩ := layout_insensitive hlex htokenise
  have hfiller : Filler ['/', '*', '*', '/', '\\', '\n', ' '] :=
    @Filler.block [] _ (by simp) <|
      @Filler.continued ['\n'] _ (by simp) (by simp [isBreak]) <| .blank (by decide) .nil
  have hpadding : Padding ['#', '\n', ' '] :=
    @Padding.line [] '\n' _ (by simp) (by decide) <| .blank (by decide) .nil
  obtain ⟨hraw, hsame⟩ := hfillers ['f', '('] _ ['x', ')'] _ _ (by decide)
    (List.mem_cons_of_mem _ (List.mem_cons_of_mem _ List.mem_cons_self)) (by simp [Token.plain])
    (by simp [Token.plain]) rfl ⟨rfl, rfl, rfl⟩ hfiller
  have hsame' := hpaddings ['f'] '(' _ ['x', ')'] _ _ .lparen (by decide)
    (List.mem_cons_of_mem _ List.mem_cons_self) rfl (by decide) rfl ⟨rfl, rfl, rfl⟩ hpadding
  exact ⟨_, hlex, ⟨_, htokenise⟩, hraw, hsame, hsame'⟩

end Pasture
