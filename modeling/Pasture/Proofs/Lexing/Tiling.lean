import Pasture.Proofs.Lexing.Alone
import Pasture.Proofs.Lexing.Gaps
import Pasture.Proofs.Source.Offset

/-! # The tokens of a text and their places

A text that is read without a fault is tiled by its lexemes and the gaps between them, and the spans
of the tokens are the places of these tiles.
-/
namespace Pasture.Lexing

namespace Numeral

theorem run_no_feed {run : List Char} (h : ∀ c ∈ run, isRunChar c) : '\n' ∉ run :=
  fun hmem => absurd (h '\n' hmem) (by decide)

theorem withExponent_no_feed {n m : Numeral} {cs rest : List Char} (hn : n.exponent = none)
    (h : withExponent n cs = .ok (m, rest)) :
    '\n' ∉ (m.exponent.map Exponent.text).getD [] := by
  cases cs with
  | nil =>
    cases h
    simp [hn]
  | cons c cs =>
    simp only [withExponent] at h
    split at h
    · rename_i hc
      split at h
      · cases h
        have hsign : '\n' ∉ (signAt cs).1.toList := by
          unfold signAt
          split <;> simp
        have hrun := run_no_feed (@mem_takeWhile_run (signAt cs).2)
        have hmark : '\n' ≠ c := by
          rintro rfl
          simp at hc
        simp only [Option.map_some, Option.getD_some, Exponent.text, List.cons_append,
          List.mem_cons, List.mem_append, not_or]
        exact ⟨hmark, hsign, hrun⟩
      · cases h
    · cases h
      simp [hn]

theorem read_no_feed {cs rest : List Char} {n : Numeral} (h : read cs = .ok (n, rest)) :
    '\n' ∉ n.text := by
  have hwhole : '\n' ∉ cs.takeWhile isRunChar := run_no_feed mem_takeWhile_run
  unfold read at h
  split at h
  · rename_i after _
    have hfraction : '\n' ∉ after.takeWhile isRunChar := run_no_feed mem_takeWhile_run
    split at h
    · cases h
    · obtain ⟨hw, hf⟩ := withExponent_keeps h
      have hexponent := withExponent_no_feed rfl h
      simp only [text, hw, hf, Option.map_some, Option.getD_some, List.mem_append, List.mem_cons,
        not_or]
      exact ⟨⟨hwhole, by decide, hfraction⟩, hexponent⟩
  · obtain ⟨hw, hf⟩ := withExponent_keeps h
    have hexponent := withExponent_no_feed rfl h
    simp only [text, hw, hf, Option.map_none, Option.getD_none, List.append_nil, List.mem_append,
      not_or]
    exact ⟨hwhole, hexponent⟩

end Numeral

namespace Piece

variable {c : Char} {cs rest : List Char} {p : Piece}

def Solid (p : Piece) : Prop :=
  ∃ l before d, p.form = .lexeme l ∧ l ≠ .newline ∧ l ≠ .endOfInput ∧ p.text = before ++ [d] ∧
    d ≠ '\n'

theorem solid_of_not_mem {l : Lexeme} {text : List Char} (hl : l ≠ .newline) (he : l ≠ .endOfInput)
    (htext : text ≠ []) (h : '\n' ∉ text) : Solid ⟨.lexeme l, text⟩ := by
  refine ⟨l, text.dropLast, text.getLast htext, rfl, hl, he, ?_, ?_⟩
  · exact (List.dropLast_concat_getLast htext).symm
  · intro hlast
    exact h (hlast ▸ List.getLast_mem htext)

theorem number_solid (htext : p.text ≠ []) (h : number cs = .ok (p, rest)) : p.Solid := by
  obtain ⟨n, l, hr, -, rfl⟩ := number_eq_ok.1 h
  exact solid_of_not_mem (by simp) (by simp) htext (Numeral.read_no_feed hr)

theorem string_solid (h : string cs = .ok (p, rest)) : p.Solid := by
  obtain ⟨items, -, rfl⟩ := string_eq_ok h
  exact ⟨_, _, '"', rfl, by simp, by simp, rfl, by decide⟩

theorem character_solid (h : character cs = .ok (p, rest)) : p.Solid := by
  obtain ⟨item, rfl, -⟩ := character_stays h []
  exact ⟨_, _, '\'', rfl, by simp, by simp, rfl, by decide⟩

theorem word_solid (htext : p.text ≠ []) (h : word cs = .ok (p, rest)) : p.Solid := by
  cases h
  have hword : ∀ c ∈ cs.takeWhile isWordChar, isWordChar c := List.all_eq_true.1 List.all_takeWhile
  have hlexeme : ∀ w, lexemeOfWord w ≠ .newline ∧ lexemeOfWord w ≠ .endOfInput := by
    intro w
    unfold lexemeOfWord
    split
    · simp
    · split <;> simp
  exact solid_of_not_mem (hlexeme _).1 (hlexeme _).2 htext
    fun hmem => absurd (hword '\n' hmem) (by decide)

theorem punctuation_solid (h : punctuation c cs = .ok (p, rest)) : p.Solid := by
  have hspelling : ∀ op : Operator, '\n' ∉ op.spelling := by
    intro op
    cases op <;> decide
  unfold punctuation at h
  split at h
  · rename_i op _
    simp only at h
    split at h
    · cases h
      exact ⟨_, op.spelling, '=', rfl, by simp, by simp, rfl, by decide⟩
    · cases h
      exact solid_of_not_mem (by simp) (by simp) op.spelling_ne_nil (hspelling op)
  · split at h
    · rename_i s hs
      cases h
      have hchar : s.char ≠ '\n' := by cases s <;> decide
      refine ⟨_, [], c, rfl, by simp, by simp, rfl, ?_⟩
      rw [← Symbol.char_of_ofChar? hs]
      exact hchar
    · cases h

theorem first_solid_or_slack (h : first c cs = .ok (p, rest)) : p.Solid ∨ p.Slack rest := by
  have htext := (first_tiles c cs p rest h).1
  unfold first at h
  split at h
  · exact .inr (layout_slack h)
  split at h
  · exact .inr (continuation_slack h)
  split at h
  · exact .inr (comment_slack h)
  split at h
  · exact .inl (number_solid htext h)
  split at h
  · exact .inl (character_solid h)
  split at h
  · exact .inl (string_solid h)
  split at h
  · exact .inl (word_solid htext h)
  · exact .inl (punctuation_solid h)

theorem first_lexeme {l : Lexeme} (h : first c cs = .ok (p, rest)) (hl : p.form = .lexeme l) :
    l ≠ .newline ∧ l ≠ .endOfInput := by
  rcases first_solid_or_slack h with ⟨k, _, _, hk, hnew, hend, -⟩ | ⟨hslack, -⟩
  · rw [hl] at hk
    cases hk
    exact ⟨hnew, hend⟩
  · exact absurd hl (hslack l)

end Piece

inductive Cuts : List Char → List Piece → Prop where
  | nil : Cuts [] []
  | cons {c cs p rest ps} : Piece.first c cs = .ok (p, rest) → Cuts rest ps →
      Cuts (c :: cs) (p :: ps)

theorem scan_cons {c : Char} {cs rest : List Char} {p : Piece}
    (h : Piece.first c cs = .ok (p, rest)) :
    scan (c :: cs) = ⟨p :: (scan rest).pieces, (scan rest).fault⟩ := by
  rw [scan]
  split
  · rename_i q more hq
    rw [h] at hq
    cases hq
    rfl
  · rename_i fault hfault
    rw [h] at hfault
    cases hfault

theorem scan_error {c : Char} {cs : List Char} {fault : Fault}
    (h : Piece.first c cs = .error fault) : scan (c :: cs) = ⟨[], some fault⟩ := by
  rw [scan]
  split
  · rename_i hfirst
    rw [h] at hfirst
    cases hfirst
  · rename_i hfirst
    rw [h] at hfirst
    cases hfirst
    rfl

theorem scan_cuts {text : List Char} (h : (scan text).fault = none) :
    Cuts text (scan text).pieces := by
  fun_induction scan text with
  | case1 => exact .nil
  | case2 c cs p rest hfirst _ _ ih => exact .cons hfirst (ih h)
  | case3 => cases h

theorem Cuts.fault {text : List Char} {ps : List Piece} (h : Cuts text ps) :
    (scan text).fault = none := by
  induction h with
  | nil => simp [scan]
  | cons hfirst _ ih => rw [scan_cons hfirst, ih]

/-- The text of a lexeme is read as one token and the end. -/
theorem lex_alone {c : Char} {cs rest : List Char} {p : Piece} {l : Lexeme}
    (h : Piece.first c cs = .ok (p, rest)) (hl : p.form = .lexeme l) (file : String) :
    ∃ s e, lex (String.ofList p.text) file = .ok [.plain l s, .plain .endOfInput e] := by
  obtain ⟨ds, hds, halone⟩ := Piece.first_alone h hl
  have hscan : scan p.text = ⟨[p], none⟩ := by
    rw [hds, scan_cons halone]
    simp [scan]
  have hlex : lex (String.ofList p.text) file =
      .ok (tokensOf file .start false [p] ++ [endToken file (Position.start.advance p.text)]) := by
    simp [lex, hscan, Scan.text]
  simp only [tokensOf, hl] at hlex
  exact ⟨_, _, hlex⟩

section

variable (source : List Char) (file : String)

def NewlineIn (k i : Nat) (t : Token) : Prop :=
  t.lexeme = .newline ∧ ∃ s m c, t.span = some s ∧ k ≤ m ∧ m < i ∧ source[m]? = some c ∧
    isBreak c ∧ s.StartsAt file (.ofOffset source m)

/-- The token of the lexeme from the offset `i` up to the offset `j`: its span runs from the first
to the last character, which is no line feed, and its text alone is read as the same token. -/
structure Spot (i j : Nat) (t : Token) : Prop where
  lt : i < j
  le : j ≤ source.length
  kind : t.lexeme ≠ .newline ∧ t.lexeme ≠ .endOfInput
  span : t.span = some ((Span.single file (.ofOffset source i)).through
    (.single file (.ofOffset source (j - 1))))
  final : ∃ c, source[j - 1]? = some c ∧ c ≠ '\n'
  alone : ∃ s e, lex (String.ofList ((source.take j).drop i)) file =
    .ok [{ t with span := s }, .plain .endOfInput e]

/-- From the offset `k` on, the text is lexemes with gaps around them, up to its end. The tokens are
those of the lexemes, those of line breaks in the gaps, and last the token of the end. -/
inductive Tiled : Nat → List Token → Prop where
  | last {k news e s} : k ≤ source.length → Gap (source.drop k) [] →
      (∀ t ∈ news, NewlineIn source file k source.length t) → e.lexeme = .endOfInput →
      e.span = some s → s.StartsAt file (.ofOffset source source.length) → Tiled k (news ++ [e])
  | next {k i j news t ts} : k ≤ i → Gap ((source.take i).drop k) (source.drop i) →
      (∀ t ∈ news, NewlineIn source file k i t) → Spot source file i j t → Tiled j ts →
      Tiled k (news ++ t :: ts)

end

section

variable {source before after : List Char} {file : String} {p : Piece} {ps : List Piece}
  {fresh : Bool}

theorem NewlineIn.widen {k l i j : Nat} {t : Token} (hl : l ≤ k) (hj : i ≤ j)
    (h : NewlineIn source file k i t) : NewlineIn source file l j t := by
  obtain ⟨ht, s, m, c, hs, hk, hi, hc, hbreak, hstart⟩ := h
  exact ⟨ht, s, m, c, hs, by omega, by omega, hc, hbreak, hstart⟩

theorem exists_first_break {text : List Char} (h : text.any isBreak) :
    ∃ run c more, text.takeWhile (!isBreak ·) = run ∧ text = run ++ c :: more ∧ isBreak c := by
  have hsplit := List.takeWhile_append_dropWhile (p := (!isBreak ·)) (l := text)
  have hnot := List.head?_dropWhile_not (!isBreak ·) text
  cases hdrop : text.dropWhile (!isBreak ·) with
  | nil =>
    obtain ⟨d, hd, hbreak⟩ := List.any_eq_true.1 h
    have hall := List.dropWhile_eq_nil_iff.1 hdrop d hd
    simp [hbreak] at hall
  | cons c more =>
    rw [hdrop] at hsplit hnot
    exact ⟨_, c, more, rfl, hsplit.symm, by simpa using hnot⟩

/-- A layout has at most one token, that of its first line break. -/
theorem newline_of_layout (hsource : source = before ++ p.text ++ after)
    (hbreak : p.text.any isBreak) (next : Position) :
    NewlineIn source file before.length (before ++ p.text).length
      (.plain .newline (some (.between file
        ((Position.start.advance before).advance (p.text.takeWhile (!isBreak ·))) next))) := by
  obtain ⟨run, c, more, hrun, htext, hc⟩ := exists_first_break hbreak
  have hm : source = (before ++ run) ++ c :: (more ++ after) := by simp [hsource, htext]
  refine ⟨rfl, _, (before ++ run).length, c, rfl, by simp, by simp [htext], by simp [hm], hc, ?_⟩
  rw [hrun, ← Position.advance_append, hm, Position.ofOffset_append]
  exact Span.between_startsAt ..

theorem tokensOf_slack {rest : List Char} (hsource : source = before ++ p.text ++ rest)
    (h : p.Slack rest) :
    ∃ news fresh', tokensOf file (Position.start.advance before) fresh (p :: ps) =
        news ++ tokensOf file (Position.start.advance (before ++ p.text)) fresh' ps ∧
      ∀ t ∈ news, NewlineIn source file before.length (before ++ p.text).length t := by
  rw [Position.advance_append]
  cases hf : p.form with
  | lexeme l => exact absurd hf (h.1 l)
  | continuation | comment => exact ⟨[], fresh, by simp [tokensOf, hf], by simp⟩
  | layout =>
    by_cases hbreak : (p.text.any isBreak && !fresh) = true
    · refine ⟨[_], true, by simp only [tokensOf, hf, hbreak, if_true]; rfl, ?_⟩
      simp only [List.mem_singleton, forall_eq]
      exact newline_of_layout hsource (Bool.and_eq_true _ _ ▸ hbreak).1 _
    · exact ⟨[], fresh, by simp only [tokensOf, hf, hbreak]; rfl, by simp⟩

theorem spot_of_lexeme {c : Char} {cs rest : List Char} {l : Lexeme}
    (hfirst : Piece.first c cs = .ok (p, rest)) (hsource : source = before ++ c :: cs)
    (hp : p.Solid) (hl : p.form = .lexeme l) :
    Spot source file before.length (before ++ p.text).length
      (.plain l (some (.between file (Position.start.advance before)
        ((Position.start.advance before).advance p.text)))) := by
  obtain ⟨hne, htiles⟩ := Piece.first_tiles c cs p rest hfirst
  obtain ⟨l', init, d, hl', hnew, hend, htext, hd⟩ := hp
  obtain rfl : l = l' := by
    rw [hl] at hl'
    cases hl'
    rfl
  have hall : source = before ++ p.text ++ rest := by rw [hsource, List.append_assoc, htiles]
  have hlast : source = (before ++ init) ++ ([d] ++ rest) := by simp [hall, htext]
  have hoffset : (before ++ p.text).length - 1 = (before ++ init).length := by simp [htext]
  constructor
  · simpa using List.length_pos_iff.2 hne
  · simp [hall]
  · exact ⟨hnew, hend⟩
  · have hfrom : Position.ofOffset source before.length = Position.start.advance before := by
      rw [hsource, Position.ofOffset_append]
    have hto : Position.ofOffset source ((before ++ p.text).length - 1) =
        (Position.start.advance before).advance init := by
      rw [hoffset, hlast, Position.ofOffset_append, Position.advance_append]
    have hcolumn := Position.column_pos (show 0 < Position.start.column by decide) before
    rw [hfrom, hto, htext, ← Span.between_eq_through file hcolumn init hd]
    rfl
  · rw [hoffset, hlast]
    exact ⟨d, by simp, hd⟩
  · have hslice : (source.take (before ++ p.text).length).drop before.length = p.text := by
      rw [hall, List.take_left, List.drop_left]
    rw [hslice]
    exact lex_alone hfirst hl file

theorem tokensOf_tiled {text : List Char} {k : Nat} {news : List Token} (hcuts : Cuts text ps)
    (hsource : source = before ++ text) (hk : k ≤ before.length) (hgap : Gap (before.drop k) text)
    (hnews : ∀ t ∈ news, NewlineIn source file k before.length t) :
    Tiled source file k (news ++ (tokensOf file (Position.start.advance before) fresh ps ++
      [endToken file (Position.start.advance source)])) := by
  induction hcuts generalizing before k news fresh with
  | nil =>
    rw [List.append_nil] at hsource
    subst hsource
    refine .last hk hgap hnews rfl rfl ?_
    rw [Position.ofOffset_eq_advance, List.take_length]
    exact Span.between_startsAt ..
  | @cons c cs p rest ps hfirst _ ih =>
    obtain ⟨-, htiles⟩ := Piece.first_tiles c cs p rest hfirst
    have hall : source = (before ++ p.text) ++ rest := by rw [hsource, List.append_assoc, htiles]
    rcases Piece.first_solid_or_slack hfirst with hp | hp
    · obtain ⟨l, -, -, hl, -⟩ := id hp
      have hgap' : Gap ((source.take before.length).drop k) (source.drop before.length) := by
        rw [hsource, List.take_left, List.drop_left]
        exact hgap
      have hrest : Tiled source file (before ++ p.text).length ([] ++
          (tokensOf file (Position.start.advance (before ++ p.text)) false ps ++
            [endToken file (Position.start.advance source)])) :=
        ih hall (Nat.le_refl _) (by simpa using Gap.nil rest) (by simp)
      simp only [tokensOf, hl, List.cons_append]
      rw [List.nil_append, Position.advance_append] at hrest
      exact .next hk hgap' hnews (spot_of_lexeme hfirst hsource hp hl) hrest
    · obtain ⟨more, fresh', htokens, hmore⟩ : ∃ more fresh',
          tokensOf file (Position.start.advance before) fresh (p :: ps) =
            more ++ tokensOf file (Position.start.advance (before ++ p.text)) fresh' ps ∧
          ∀ t ∈ more, NewlineIn source file before.length (before ++ p.text).length t :=
        tokensOf_slack hall hp
      have hgap' : Gap ((before ++ p.text).drop k) rest := by
        rw [List.drop_append_of_le_length hk]
        exact Gap.append (by rw [htiles]; exact hgap) hp.2
      have hlength : before.length ≤ (before ++ p.text).length := by simp
      have hnews' : ∀ t ∈ news ++ more,
          NewlineIn source file k (before ++ p.text).length t := by
        intro t ht
        rcases List.mem_append.1 ht with ht | ht
        · exact (hnews t ht).widen (Nat.le_refl k) hlength
        · exact (hmore t ht).widen hk (Nat.le_refl _)
      rw [htokens]
      simpa using ih hall (hk.trans hlength) hgap' hnews'

end

theorem scan_tiled {text : List Char} (h : (scan text).fault = none) (file : String) :
    Tiled text file 0 (tokensOf file .start false (scan text).pieces ++
      [endToken file (Position.start.advance (scan text).text)]) := by
  obtain ⟨rest, htext, hrest⟩ := scan_text text
  rw [hrest h, List.append_nil] at htext
  have htiled : Tiled text file 0 ([] ++ (tokensOf file (Position.start.advance []) false
      (scan text).pieces ++ [endToken file (Position.start.advance text)])) :=
    tokensOf_tiled (scan_cuts h) (List.nil_append _).symm (Nat.le_refl _) (.nil _) (by simp)
  rw [htext]
  exact htiled

theorem lex_eq_ok {source file : String} {tokens : List Token} :
    lex source file = .ok tokens ↔ (scan source.toList).fault = none ∧
      tokens = tokensOf file .start false (scan source.toList).pieces ++
        [endToken file (Position.start.advance (scan source.toList).text)] := by
  simp only [lex]
  cases (scan source.toList).fault with
  | none => simp [eq_comm]
  | some fault => simp

theorem lex_eq_error {source file : String} {failure : Failure} :
    lex source file = .error failure ↔ ∃ fault, (scan source.toList).fault = some fault ∧
      failure = fault.failure file (Position.start.advance (scan source.toList).text) := by
  simp only [lex]
  cases (scan source.toList).fault with
  | none => simp
  | some fault => simp [eq_comm]

theorem malformed_of_rejected {source file : String} {e : ParseError}
    (h : lex source file = .error (.rejected e)) :
    ∃ cause before, (scan source.toList).fault = some (.malformed cause before) ∧
      e = .lexical file cause
        ((Position.start.advance (scan source.toList).text).advance before) := by
  obtain ⟨fault, hfault, hfailure⟩ := lex_eq_error.1 h
  cases fault with
  | digitLimit digits => cases hfailure
  | malformed cause before =>
    cases hfailure
    exact ⟨cause, before, hfault, rfl⟩

def tokensBefore (source file : String) : List Token :=
  tokensOf file .start false (scan source.toList).pieces

/-- The tokens of a text tile it, wherever its reading succeeds. -/
theorem lex_tiled {source file : String} {tokens : List Token}
    (h : lex source file = .ok tokens) : Tiled source.toList file 0 tokens := by
  obtain ⟨hfault, rfl⟩ := lex_eq_ok.1 h
  exact scan_tiled hfault file

theorem lex_tiled_name :
    ∃ tokens, lex "x\n" "f" = .ok tokens ∧ tokens.length = 3 ∧
      Tiled ['x', '\n'] "f" 0 tokens := by
  have hname : Piece.first 'x' ['\n'] =
      .ok (⟨.lexeme (.identifier (.simple "x")), ['x']⟩, ['\n']) := by decide
  have hfeed : Piece.first '\n' [] = .ok (⟨.layout, ['\n']⟩, []) := by decide
  have hscan : scan ['x', '\n'] =
      ⟨[⟨.lexeme (.identifier (.simple "x")), ['x']⟩, ⟨.layout, ['\n']⟩], none⟩ := by
    rw [scan_cons hname, scan_cons hfeed, scan]
  have htext : "x\n".toList = ['x', '\n'] := by decide
  have hlex : lex "x\n" "f" = .ok _ := lex_eq_ok.2 ⟨by rw [htext, hscan], rfl⟩
  refine ⟨_, hlex, ?_, lex_tiled hlex⟩
  rw [htext, hscan]
  rfl

end Pasture.Lexing
