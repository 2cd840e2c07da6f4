import Pasture.Proofs.Lexing.Lexemes
import Pasture.Proofs.Lexing.Reading

/-! # Layout between lexemes

What may be put between the lexemes of a text: in front of any of them without a change of the
tokens, and behind an opening bracket or a comma with a change of the newlines there only.
-/
namespace Pasture.Lexing

/-- A text to be put in front of a lexeme: spaces, tabs, complete block comments, and backslashes
with line breaks. -/
inductive Filler : List Char → Prop where
  | nil : Filler []
  | blank {c fill} : isSpace c → Filler fill → Filler (c :: fill)
  | block {body fill} : ¬['*', '/'] <:+: body → Filler fill →
      Filler ('/' :: '*' :: body ++ '*' :: '/' :: fill)
  | continued {run fill} : run ≠ [] → (∀ c ∈ run, isBreak c) → Filler fill →
      Filler ('\\' :: run ++ fill)

/-- A text to be put behind an opening bracket or a comma: spaces, tabs, line breaks, and line
comments with the line breaks behind them. -/
inductive Padding : List Char → Prop where
  | nil : Padding []
  | blank {c fill} : isSpace c ∨ isBreak c → Padding fill → Padding (c :: fill)
  | line {body c fill} : (∀ d ∈ body, isBreak d = false) → isBreak c → Padding fill →
      Padding ('#' :: body ++ c :: fill)

variable {fresh : Bool} {text fill after rest : List Char} {ls ks : List Lexeme} {l : Lexeme}

section Fillers

theorem laidOut_of_breaks {run : List Char} (hrun : ∀ c ∈ run, isBreak c) (rest : List Char) :
    LaidOut run rest := by
  induction run with
  | nil => rfl
  | cons c run ih =>
    obtain ⟨hc, hrun⟩ := List.forall_mem_cons.1 hrun
    exact LaidOut.append (laidOut_of_blank (.inr hc) (run ++ rest)) (ih hrun)

theorem Filler.quiet (h : Filler fill) (hafter : Starts after) : Quiet (fill ++ after) := by
  induction h with
  | nil => exact hafter.quiet
  | @blank c fill hc _ ih =>
    have hlaid : LaidOut [c] (fill ++ after) := laidOut_of_blank (.inl hc) _
    rw [LaidOut] at hlaid
    rw [Quiet, List.cons_append, ← List.singleton_append, hlaid, List.any_append, ih]
    simp [not_isBreak_of_isSpace hc]
  | block =>
    apply Starts.quiet
    rintro d ⟨⟩
    decide
  | continued =>
    apply Starts.quiet
    rintro d ⟨⟩
    decide

theorem Filler.joins (h : Filler fill) (hafter : Starts after) : Joins (fill ++ after) after := by
  refine ⟨?_, h.quiet hafter⟩
  cases h with
  | nil => exact .refl after
  | blank hc => exact .of_gap (by simp [startsGap, hc]) _ _
  | block => exact .of_gap (by decide) _ _
  | continued => exact .of_gap (by decide) _ _

/-- A filler is read as nothing. -/
theorem Filler.reads (h : Filler fill) (hstarts : Starts after) (hafter : Reads fresh after ls) :
    Reads fresh (fill ++ after) ls := by
  induction h with
  | nil => exact hafter
  | blank hc _ ih => exact .space hc ih
  | @block body fill hbody _ ih =>
    have hclose : closeComment (body ++ ['*', '/'] ++ (fill ++ after)) =
        some (body ++ ['*', '/'], fill ++ after) := by
      simpa using closeComment_complete hbody (fill ++ after)
    simpa using Reads.comment hclose ih
  | @continued run fill hne hrun hfill ih =>
    rw [List.append_assoc]
    refine .continued (laidOut_of_breaks hrun _) ?_ (hfill.quiet hstarts) ih
    obtain ⟨c, run, rfl⟩ := List.exists_cons_of_ne_nil hne
    exact hrun c List.mem_cons_self

end Fillers

section Paddings

def behindNewlines (ls : List Lexeme) : List Lexeme := ls.dropWhile (· = .newline)

theorem behindNewlines_newlines (fresh : Bool) (run : List Char) (ls : List Lexeme) :
    behindNewlines (newlines fresh run ++ ls) = behindNewlines ls := by
  unfold newlines
  split
  · simp [behindNewlines]
  · rfl

theorem behindNewlines_lexemesOf (fresh other : Bool) (ps : List Piece) :
    behindNewlines (lexemesOf fresh ps) = behindNewlines (lexemesOf other ps) := by
  induction ps generalizing fresh other with
  | nil => rfl
  | cons p ps ih =>
    simp only [lexemesOf]
    cases p.form with
    | lexeme l => rfl
    | continuation | comment => exact ih fresh other
    | layout =>
      have hdrop : ∀ more, behindNewlines (.newline :: more) = behindNewlines more := by
        simp [behindNewlines]
      simp only [apply_ite behindNewlines, hdrop]
      split <;> split <;> exact ih ..

/-- Whether a newline token stands before a text does not matter behind its first newlines. -/
theorem Reads.restart (h : Reads fresh text ls) (other : Bool) :
    ∃ ks, Reads other text ks ∧ behindNewlines ks = behindNewlines ls := by
  obtain ⟨hfault, rfl⟩ := reads_iff.1 h
  exact ⟨_, reads_iff.2 ⟨hfault, rfl⟩, behindNewlines_lexemesOf ..⟩

theorem Padding.replaces (h : Padding fill) (after : List Char) :
    Replaces (fill ++ after) after := by
  cases h with
  | nil => exact .refl after
  | blank hc => exact .of_gap (by rcases hc with hc | hc <;> simp [startsGap, hc]) _ _
  | line => exact .of_gap (by decide) _ _

def Opens (other after : List Char) : Prop :=
  ∀ fresh ls, Reads fresh after ls →
    ∃ ks, Reads fresh other ks ∧ behindNewlines ks = behindNewlines ls

theorem Opens.layout {run other : List Char} (hrun : LaidOut run other) (h : Opens other after) :
    Opens (run ++ other) after := by
  intro fresh ls hls
  obtain ⟨ks, hks, hsame⟩ := hls.restart (fresh || run.any isBreak)
  obtain ⟨js, hjs, hsame'⟩ := h _ ks hks
  refine ⟨_, .layout hrun hjs, ?_⟩
  rw [behindNewlines_newlines, hsame', hsame]

/-- A padding is read as newlines. -/
theorem Padding.opens (h : Padding fill) (after : List Char) : Opens (fill ++ after) after := by
  induction h with
  | nil => exact fun fresh ls hls => ⟨ls, hls, rfl⟩
  | @blank c fill hc _ ih =>
    have hlaid : LaidOut [c] (fill ++ after) := laidOut_of_blank hc _
    exact (ih.layout hlaid :)
  | @line body c fill hbody hc _ ih =>
    have hlaid : LaidOut ('#' :: body ++ [c]) (fill ++ after) := laidOut_of_line hbody hc _
    simpa using ih.layout hlaid

end Paddings

section Insertions

variable {source file : String} {raw : List Token} {before : List Char} {t : Token} {s : Span}

def TokenOf (file : String) (place : Position) (ps : List Piece) (t : Token) : Prop :=
  ∃ front p back, ps = front ++ p :: back ∧ p.form = .lexeme t.lexeme ∧
    t.span = some (.between file (place.advance (front.flatMap Piece.text))
      (place.advance (front.flatMap Piece.text ++ p.text)))

theorem TokenOf.later {place : Position} {q : Piece} {ps : List Piece}
    (h : TokenOf file (place.advance q.text) ps t) : TokenOf file place (q :: ps) t := by
  obtain ⟨front, p, back, rfl, hform, hspan⟩ := h
  refine ⟨q :: front, p, back, rfl, hform, ?_⟩
  simpa using hspan

theorem tokenOf_of_mem {place : Position} {ps : List Piece}
    (ht : t ∈ tokensOf file place fresh ps) (hnew : t.lexeme ≠ .newline) :
    TokenOf file place ps t := by
  induction ps generalizing place fresh with
  | nil => cases ht
  | cons q ps ih =>
    simp only [tokensOf] at ht
    split at ht
    · rename_i l hl
      rcases List.mem_cons.1 ht with rfl | ht
      · exact ⟨[], q, ps, rfl, hl, by simp [Token.plain]⟩
      · exact (ih ht).later
    · split at ht
      · rcases List.mem_cons.1 ht with rfl | ht
        · exact absurd rfl hnew
        · exact (ih ht).later
      · exact (ih ht).later
    · exact (ih ht).later
    · exact (ih ht).later

/-- The lexeme stands in a text, with `before` in front of it and `rest` behind it, and it is read
there whatever else stands in the place of its own text and the rest. -/
structure Stands (before text rest : List Char) (l : Lexeme) : Prop where
  takes : Piece.Takes l text rest
  reads : ∃ ks, Reads false rest ks
  joins : ∃ ls fresh, ∀ other ks, Joins other (text ++ rest) → Reads fresh other ks →
    Reads false (before ++ other) (ls ++ ks)

theorem Cuts.stands {front back : List Piece} {p : Piece}
    (h : Cuts text (front ++ p :: back)) (hl : p.form = .lexeme l) :
    ∃ rest, text = front.flatMap Piece.text ++ (p.text ++ rest) ∧
      Stands (front.flatMap Piece.text) p.text rest l := by
  obtain ⟨after, rfl, hafter⟩ := h.split
  cases id hafter with
  | @cons c cs _ rest _ hfirst hcuts =>
    obtain ⟨-, htiles⟩ := Piece.first_tiles c cs p rest hfirst
    refine ⟨rest, by rw [htiles], ?_, ?_, ?_⟩
    · exact Piece.takes_of_first hfirst hl (.refl rest)
    · exact reads_of_fault hcuts.fault false
    · rw [htiles]
      exact reads_front h (List.cons_ne_nil c cs) false

/-- A token of a source stands in it from the start of its span to the end. -/
theorem lex_stands (hlex : lex source file = .ok raw) (ht : t ∈ raw) (hnew : t.lexeme ≠ .newline)
    (hend : t.lexeme ≠ .endOfInput) :
    ∃ before text rest, source.toList = before ++ (text ++ rest) ∧
      Stands before text rest t.lexeme ∧
      t.span = some (.between file (Position.start.advance before)
        (Position.start.advance (before ++ text))) := by
  obtain ⟨hfault, rfl⟩ := lex_eq_ok.1 hlex
  have htoken : t ∈ tokensOf file .start false (scan source.toList).pieces := by
    rcases List.mem_append.1 ht with ht | ht
    · exact ht
    · exact absurd (congrArg Token.lexeme (List.mem_singleton.1 ht)) hend
  obtain ⟨front, p, back, hpieces, hform, hspan⟩ := tokenOf_of_mem htoken hnew
  have hcuts := scan_cuts hfault
  rw [hpieces] at hcuts
  obtain ⟨rest, htext, hstands⟩ := hcuts.stands hform
  exact ⟨_, p.text, rest, htext, hstands, hspan⟩

/-- With another text in the place of the lexeme and of what stands behind it, the lexemes in front
of it are the same. -/
theorem Stands.lex {text rest : List Char} (h : Stands before text rest l)
    (hsource : source.toList = before ++ (text ++ rest)) (hlex : lex source file = .ok raw) :
    ∃ ls fresh ks, Reads false rest ks ∧
      raw.map unplaced = streamOf (ls ++ l :: ks) ∧
      ∀ other js, Joins other (text ++ rest) → Reads fresh other js →
        ∃ raw', Lexing.lex (String.ofList (before ++ other)) file = .ok raw' ∧
          raw'.map unplaced = streamOf (ls ++ js) := by
  obtain ⟨ks, hks⟩ := h.reads
  obtain ⟨ls, fresh, hjoins⟩ := h.joins
  refine ⟨ls, fresh, ks, hks, ?_, ?_⟩
  · have hreads := hjoins _ _ h.takes.starts.joins (.lexeme h.takes hks)
    rw [← hsource] at hreads
    obtain ⟨tokens, htokens, hmap⟩ := hreads.lex file
    rw [hlex] at htokens
    cases htokens
    exact hmap
  · intro other js hother hjs
    have hreads := hjoins other js hother hjs
    rw [← String.toList_ofList (l := before ++ other)] at hreads
    exact hreads.lex file

/-- A filler in front of a token leaves the tokens of the text as they are. -/
theorem lex_filler (hlex : lex source file = .ok raw) (hsource : source.toList = before ++ after)
    (ht : t ∈ raw) (hnew : t.lexeme ≠ .newline) (hend : t.lexeme ≠ .endOfInput)
    (hs : t.span = some s) (hstart : s.StartsAt file (Position.start.advance before))
    (hfill : Filler fill) :
    ∃ raw', lex (String.ofList (before ++ fill ++ after)) file = .ok raw' ∧
      raw'.map unplaced = raw.map unplaced := by
  obtain ⟨front, text, rest, htext, hstands, hspan⟩ := lex_stands hlex ht hnew hend
  obtain rfl := Option.some.inj (hs.symm.trans hspan)
  have hplace := (Span.between_startsAt ..).unique hstart
  obtain rfl := Position.front_eq ⟨_, htext.symm⟩ ⟨_, hsource.symm⟩ hplace
  obtain rfl := List.append_cancel_left (hsource.symm.trans htext)
  obtain ⟨ls, fresh, ks, hks, hraw, hother⟩ := hstands.lex hsource hlex
  have hstarts := hstands.takes.starts
  have hreads : Reads fresh (fill ++ (text ++ rest)) (t.lexeme :: ks) :=
    hfill.reads hstarts (.lexeme hstands.takes hks)
  obtain ⟨raw', hlex', hraw'⟩ := hother _ _ (hfill.joins hstarts) hreads
  rw [← List.append_assoc] at hlex'
  exact ⟨raw', hlex', hraw'.trans hraw.symm⟩

theorem Piece.Takes.symbol_text {b : Symbol} {text : List Char}
    (h : Takes (.symbol b) text rest) : text = [b.char] := by
  obtain ⟨c, cs, rfl, hfirst⟩ := h
  cases written_of_first hfirst rfl
  rfl

/-- A padding behind a symbol changes no token but the newlines behind the symbol. -/
theorem lex_padding {b : Symbol} {c : Char} (hlex : lex source file = .ok raw)
    (hsource : source.toList = before ++ c :: after) (ht : t ∈ raw) (hb : t.lexeme = .symbol b)
    (hs : t.span = some s) (hends : s.EndsAt file (Position.start.advance before))
    (hfill : Padding fill) :
    ∃ raw' ls ks js, lex (String.ofList (before ++ c :: (fill ++ after))) file = .ok raw' ∧
      raw.map unplaced = streamOf (ls ++ .symbol b :: ks) ∧
      raw'.map unplaced = streamOf (ls ++ .symbol b :: js) ∧
      behindNewlines js = behindNewlines ks := by
  obtain ⟨front, text, rest, htext, hstands, hspan⟩ :=
    lex_stands hlex ht (by simp [hb]) (by simp [hb])
  rw [hb] at hstands
  obtain rfl := hstands.takes.symbol_text
  have hcolumn := Position.column_pos (show 0 < Position.start.column by decide) front
  have hfeed : b.char ≠ '\n' := by cases b <;> decide
  rw [Position.advance_append, Span.between_single file hcolumn hfeed] at hspan
  obtain rfl := Option.some.inj (hs.symm.trans hspan)
  have hplace := Span.StartsAt.unique ⟨rfl, rfl, rfl⟩ (Span.single_startsAt hends)
  obtain rfl := Position.front_eq ⟨_, htext.symm⟩ ⟨_, hsource.symm⟩ hplace
  obtain ⟨rfl, rfl⟩ := List.cons.inj (List.append_cancel_left (hsource.symm.trans htext))
  obtain ⟨ls, fresh, ks, hks, hraw, hother⟩ := hstands.lex hsource hlex
  obtain ⟨js, hjs, hsame⟩ := hfill.opens _ false ks hks
  have htakes := hstands.takes.stays (hfill.replaces after)
  have hjoins : Joins (b.char :: (fill ++ after)) (b.char :: after) :=
    ⟨fun d hd => .inl hd, htakes.starts.quiet⟩
  obtain ⟨raw', hlex', hraw'⟩ := hother _ (.symbol b :: js) hjoins (.lexeme htakes hjs)
  exact ⟨raw', ls, ks, js, hlex', hraw, hraw', hsame⟩

end Insertions

end Pasture.Lexing
