import Pasture.Proofs.Lexing.Tiling

/-! # What a text is read as

The lexemes of a text without their places. The steps of the reading are told by what stands at the
front of the text: a lexeme, a layout, a block comment or a continued line. What stands behind a
front of the text may be replaced by another text, and the front is read as before.
-/
namespace Pasture.Lexing

def unplaced (t : Token) : Token := { t with span := none }

def Reads (fresh : Bool) (text : List Char) (ls : List Lexeme) : Prop :=
  (scan text).fault = none ∧ ∀ file place,
    (tokensOf file place fresh (scan text).pieces).map unplaced = ls.map (Token.plain · none)

def lexemesOf (fresh : Bool) : List Piece → List Lexeme
  | [] => []
  | p :: ps =>
    match p.form with
    | .lexeme l => l :: lexemesOf false ps
    | .layout =>
      if p.text.any isBreak && !fresh then .newline :: lexemesOf true ps else lexemesOf fresh ps
    | .continuation | .comment => lexemesOf fresh ps

variable {fresh : Bool} {text run body rest other : List Char} {ls ks : List Lexeme} {l : Lexeme}
  {c : Char}

theorem tokensOf_unplaced (file : String) (place : Position) (fresh : Bool) (ps : List Piece) :
    (tokensOf file place fresh ps).map unplaced = (lexemesOf fresh ps).map (Token.plain · none) := by
  induction ps generalizing place fresh with
  | nil => rfl
  | cons p ps ih =>
    simp only [tokensOf, lexemesOf]
    cases p.form with
    | lexeme l => simp only [List.map_cons, ih]; rfl
    | layout =>
      by_cases hbreak : (p.text.any isBreak && !fresh) = true
      · simp only [hbreak, if_true, List.map_cons, ih]
        rfl
      · simp only [hbreak, if_false, ih, Bool.false_eq_true]
    | continuation | comment => exact ih ..

theorem reads_iff :
    Reads fresh text ls ↔ (scan text).fault = none ∧ lexemesOf fresh (scan text).pieces = ls := by
  have hplain : ∀ l k, Token.plain l none = Token.plain k none → l = k :=
    fun l k h => congrArg Token.lexeme h
  simp only [Reads, tokensOf_unplaced, List.map_inj_right hplain]
  exact ⟨fun ⟨hfault, h⟩ => ⟨hfault, h "" .start⟩, fun ⟨hfault, h⟩ => ⟨hfault, fun _ _ => h⟩⟩

/-- A text without a fault is read as something. -/
theorem reads_of_fault (h : (scan text).fault = none) (fresh : Bool) : ∃ ls, Reads fresh text ls :=
  ⟨_, reads_iff.2 ⟨h, rfl⟩⟩

def streamOf (ls : List Lexeme) : List Token := (ls ++ [Lexeme.endOfInput]).map (Token.plain · none)

theorem Reads.lex {source : String} (h : Reads false source.toList ls) (file : String) :
    ∃ tokens, lex source file = .ok tokens ∧
      tokens.map unplaced = streamOf ls := by
  obtain ⟨hfault, htokens⟩ := h
  refine ⟨_, lex_eq_ok.2 ⟨hfault, rfl⟩, ?_⟩
  rw [List.map_append, htokens, streamOf, List.map_append]
  rfl

theorem Reads.nil (fresh : Bool) : Reads fresh [] [] := by
  have hscan : scan [] = ⟨[], none⟩ := by simp [scan]
  rw [reads_iff, hscan]
  exact ⟨rfl, rfl⟩

/-! ### Lexemes -/

namespace Piece

def Takes (l : Lexeme) (text rest : List Char) : Prop :=
  ∃ c cs, text = c :: cs ∧ first c (cs ++ rest) = .ok (⟨.lexeme l, text⟩, rest)

theorem takes_of_first {cs : List Char} {p : Piece} (h : first c cs = .ok (p, rest))
    (hl : p.form = .lexeme l) (hother : Replaces other rest) : Takes l p.text other := by
  obtain ⟨ds, hds, hstays⟩ := first_stays h hl hother
  refine ⟨c, ds, hds, ?_⟩
  rw [hstays, ← hl]

theorem Takes.stays (h : Takes l text rest) (hother : Replaces other rest) : Takes l text other := by
  obtain ⟨c, cs, -, hfirst⟩ := h
  exact takes_of_first hfirst rfl hother

end Piece

theorem Reads.lexeme (htext : Piece.Takes l text rest) (hrest : Reads false rest ls) :
    Reads fresh (text ++ rest) (l :: ls) := by
  obtain ⟨c, cs, rfl, hfirst⟩ := htext
  obtain ⟨hfault, hlexemes⟩ := reads_iff.1 hrest
  rw [reads_iff, List.cons_append, scan_cons hfirst]
  exact ⟨hfault, congrArg (l :: ·) hlexemes⟩

/-! ### Layout -/

/-- The text in front of `rest` is layout that goes on with the layout of `rest`. -/
def LaidOut (run rest : List Char) : Prop :=
  layoutRun false (run ++ rest) = (run ++ (layoutRun false rest).1, (layoutRun false rest).2)

def newlines (fresh : Bool) (run : List Char) : List Lexeme :=
  if run.any isBreak && !fresh then [.newline] else []

theorem newlines_append (fresh : Bool) (run more : List Char) :
    newlines fresh (run ++ more) =
      newlines fresh run ++ newlines (fresh || run.any isBreak) more := by
  unfold newlines
  rw [List.any_append]
  generalize run.any isBreak = first
  generalize more.any isBreak = second
  cases fresh <;> cases first <;> cases second <;> rfl

theorem isLayout_of_run (h : (layoutRun false (c :: rest)).1 ≠ []) :
    isSpace c || isBreak c || c = '#' := by
  simp only [layoutRun, Bool.false_or] at h
  split at h
  · simp [*]
  · split at h
    · simp_all
    · split at h
      · simp [*]
      · exact absurd rfl h

/-- The layout at the front of a text is read first. -/
theorem reads_run (text : List Char) :
    Reads fresh text ls ↔ ∃ ks,
      Reads (fresh || (layoutRun false text).1.any isBreak) (layoutRun false text).2 ks ∧
        ls = newlines fresh (layoutRun false text).1 ++ ks := by
  have hsplit := layoutRun_append false text
  by_cases hrun : (layoutRun false text).1 = []
  · rw [hrun, List.nil_append] at hsplit
    simp [hrun, hsplit, newlines]
  · cases text with
    | nil => exact absurd rfl hrun
    | cons c cs =>
      have hfirst : Piece.first c cs =
          .ok (⟨.layout, (layoutRun false (c :: cs)).1⟩, (layoutRun false (c :: cs)).2) := by
        rw [Piece.first, if_pos (isLayout_of_run hrun)]
        rfl
      simp only [reads_iff, scan_cons hfirst, lexemesOf, newlines]
      cases (layoutRun false (c :: cs)).1.any isBreak <;> cases fresh <;> simp [eq_comm]

theorem Reads.layout (hrun : LaidOut run rest) (hrest : Reads (fresh || run.any isBreak) rest ls) :
    Reads fresh (run ++ rest) (newlines fresh run ++ ls) := by
  obtain ⟨ks, hks, rfl⟩ := (reads_run rest).1 hrest
  refine (reads_run _).2 ⟨ks, ?_, ?_⟩
  · rw [hrun, List.any_append, ← Bool.or_assoc]
    exact hks
  · rw [hrun, newlines_append, List.append_assoc]

theorem laidOut_of_blank (hc : isSpace c ∨ isBreak c) (rest : List Char) : LaidOut [c] rest := by
  have hhash : c ≠ '#' := by
    rintro rfl
    simp [isSpace, isBreak] at hc
  by_cases hbreak : isBreak c
  · simp [LaidOut, layoutRun, hbreak]
  · have hspace : isSpace c := hc.resolve_right hbreak
    simp [LaidOut, layoutRun, hbreak, hhash, hspace]

theorem LaidOut.append {more : List Char} (h : LaidOut run (more ++ rest)) (k : LaidOut more rest) :
    LaidOut (run ++ more) rest := by
  rw [LaidOut, List.append_assoc, h, k, List.append_assoc]

theorem not_isBreak_of_isSpace (hc : isSpace c) : isBreak c = false := by
  unfold isSpace at hc
  unfold isBreak
  grind

/-- A blank is read as nothing. -/
theorem Reads.space (hc : isSpace c) (hrest : Reads fresh rest ls) : Reads fresh (c :: rest) ls := by
  have hbreak := not_isBreak_of_isSpace hc
  have hlayout : Reads fresh ([c] ++ rest) (newlines fresh [c] ++ ls) :=
    .layout (laidOut_of_blank (.inl hc) rest) (by simpa [hbreak] using hrest)
  simpa [newlines, hbreak] using hlayout

/-- A line break is read as a newline, unless one stands before it. -/
theorem Reads.feed (hc : isBreak c) (hrest : Reads true rest ls) :
    Reads false (c :: rest) (.newline :: ls) := by
  have hlayout : Reads false ([c] ++ rest) (newlines false [c] ++ ls) :=
    .layout (laidOut_of_blank (.inr hc) rest) (by simpa [hc] using hrest)
  simpa [newlines, hc] using hlayout

/-- A line comment up to the end of its line. -/
theorem laidOut_of_comment (hbody : ∀ d ∈ body, isBreak d = false)
    (hrest : ∀ c ∈ rest.head?, isBreak c) : LaidOut ('#' :: body) rest := by
  have hcomment : layoutRun true (body ++ rest) =
      (body ++ (layoutRun false rest).1, (layoutRun false rest).2) := by
    induction body with
    | nil =>
      cases rest with
      | nil => rfl
      | cons c rest => simp [layoutRun, hrest c rfl]
    | cons d body ih =>
      obtain ⟨hd, hbody⟩ := List.forall_mem_cons.1 hbody
      simp [layoutRun, hd, ih hbody]
  have hhash : isBreak '#' = false := by decide
  simp [LaidOut, layoutRun, hhash, hcomment]

/-- A line comment in front of a line break. -/
theorem laidOut_of_line (hbody : ∀ d ∈ body, isBreak d = false) (hc : isBreak c)
    (rest : List Char) : LaidOut ('#' :: body ++ [c]) rest := by
  have hhead : ∀ d ∈ ([c] ++ rest).head?, isBreak d := by
    rintro d ⟨⟩
    exact hc
  exact (laidOut_of_comment hbody hhead).append (laidOut_of_blank (.inr hc) rest)

theorem Layout.laidOut (h : Layout run rest) : LaidOut run rest := by
  induction h with
  | nil => rfl
  | @blank c run rest hc _ ih =>
    have hlaid : LaidOut [c] (run ++ rest) := laidOut_of_blank hc _
    exact hlaid.append ih
  | line hbody hhead _ ih => exact (laidOut_of_comment hbody hhead).append ih

/-- A layout that stands in front of anything else ends where it ends, so that it goes on with the
layout of any other text. By induction on the text; a line comment that is open at its end has
nothing behind it. -/
theorem layoutRun_stays (comment : Bool) (text other : List Char)
    (h : (layoutRun comment text).2 ≠ []) :
    layoutRun comment ((layoutRun comment text).1 ++ other) =
      ((layoutRun comment text).1 ++ (layoutRun false other).1, (layoutRun false other).2) := by
  induction text generalizing comment with
  | nil => exact absurd rfl h
  | cons c text ih =>
    by_cases hbreak : isBreak c
    · simp only [layoutRun, hbreak, if_true] at h ⊢
      simp [layoutRun, hbreak, ih false h]
    · by_cases hcomment : (comment || c = '#') = true
      · simp only [layoutRun, hbreak, hcomment, if_true, Bool.false_eq_true, if_false] at h ⊢
        simp [layoutRun, hbreak, hcomment, ih true h]
      · obtain rfl : comment = false := by simp_all
        by_cases hspace : isSpace c
        · simp only [layoutRun, hbreak, hcomment, hspace, if_true, Bool.false_eq_true,
            if_false] at h ⊢
          simp [layoutRun, hbreak, hcomment, hspace, ih false h]
        · simp [layoutRun, hbreak, hcomment, hspace]

theorem layoutRun_break (h : text.head?.any isBreak) :
    (layoutRun false text).1.head?.any isBreak := by
  obtain ⟨b, hb, hbreak⟩ := (Option.any_eq_true _ _).1 h
  obtain ⟨more, rfl⟩ := List.head?_eq_some_iff.1 hb
  simp [layoutRun, hbreak]

def Starts (text : List Char) : Prop :=
  ∀ c ∈ text.head?, isSpace c = false ∧ isBreak c = false ∧ c ≠ '#'

theorem Starts.layoutRun (h : Starts text) : layoutRun false text = ([], text) := by
  cases text with
  | nil => rfl
  | cons c text =>
    obtain ⟨hspace, hbreak, hhash⟩ := h c rfl
    simp [Lexing.layoutRun, hspace, hbreak, hhash]

/-- What is left behind a layout does not start with one. -/
theorem layoutRun_starts (comment : Bool) (text : List Char) :
    Starts (layoutRun comment text).2 := by
  induction text generalizing comment with
  | nil => nofun
  | cons c text ih =>
    by_cases hbreak : isBreak c
    · simpa [layoutRun, hbreak] using ih false
    · by_cases hcomment : (comment || c = '#') = true
      · simpa only [layoutRun, hbreak, hcomment, if_true, Bool.false_eq_true, if_false]
          using ih true
      · by_cases hspace : isSpace c
        · simpa only [layoutRun, hbreak, hcomment, hspace, if_true, Bool.false_eq_true, if_false]
            using ih false
        · simp only [layoutRun, hbreak, hcomment, hspace, Bool.false_eq_true, if_false]
          rintro d ⟨⟩
          simp_all

def Quiet (text : List Char) : Prop := (layoutRun false text).1.any isBreak = false

theorem Piece.Takes.starts (h : Takes l text rest) : Starts (text ++ rest) := by
  obtain ⟨c, cs, rfl, hfirst⟩ := h
  rintro d ⟨⟩
  by_contra hlayout
  have hdispatch : (isSpace c || isBreak c || decide (c = '#')) = true := by
    by_cases hs : isSpace c <;> by_cases hb : isBreak c <;> simp_all
  rw [first, if_pos hdispatch] at hfirst
  cases hfirst

theorem Starts.quiet (h : Starts text) : Quiet text := by
  rw [Quiet, h.layoutRun]
  rfl

/-! ### Comments and continued lines -/

/-- A comment ends with the first `*` and `/`, whatever stands behind them. -/
theorem closeComment_complete (hbody : ¬['*', '/'] <:+: body) (rest : List Char) :
    closeComment (body ++ '*' :: '/' :: rest) = some (body ++ ['*', '/'], rest) := by
  induction body with
  | nil => rfl
  | cons c body ih =>
    rw [List.infix_cons_iff, not_or] at hbody
    obtain ⟨hfirst, hbody⟩ := hbody
    rw [List.cons_append, closeComment, ih hbody]
    · rfl
    · rintro more rfl hmore
      cases body with
      | nil => cases hmore
      | cons d body =>
        cases hmore
        exact hfirst ⟨body, rfl⟩

theorem closeComment_stays (h : closeComment text = some (body, rest)) (other : List Char) :
    closeComment (body ++ other) = some (body, other) := by
  obtain ⟨inner, rfl, hinner⟩ := closeComment_body h
  simpa using closeComment_complete hinner other

theorem Reads.comment (hbody : closeComment (body ++ rest) = some (body, rest))
    (hrest : Reads fresh rest ls) : Reads fresh ('/' :: '*' :: body ++ rest) ls := by
  have hfirst : Piece.first '/' ('*' :: (body ++ rest)) =
      .ok (⟨.comment, '/' :: '*' :: body⟩, rest) := by
    change Piece.comment (body ++ rest) = _
    simp only [Piece.comment, hbody]
  obtain ⟨hfault, hlexemes⟩ := reads_iff.1 hrest
  rw [reads_iff, List.cons_append, List.cons_append, scan_cons hfirst]
  exact ⟨hfault, hlexemes⟩

theorem Reads.continued (hrun : LaidOut run rest) (hbreak : run.head?.any isBreak)
    (hquiet : Quiet rest) (hrest : Reads fresh rest ls) : Reads fresh ('\\' :: run ++ rest) ls := by
  have hhead : (run ++ rest).head?.any isBreak := by
    obtain ⟨b, hb, hbreak⟩ := (Option.any_eq_true _ _).1 hbreak
    obtain ⟨more, rfl⟩ := List.head?_eq_some_iff.1 hb
    exact hbreak
  have hfirst : Piece.first '\\' (run ++ rest) =
      .ok (⟨.continuation, '\\' :: (run ++ (layoutRun false rest).1)⟩,
        (layoutRun false rest).2) := by
    change Piece.continuation (run ++ rest) = _
    rw [Piece.continuation, if_pos hhead, hrun]
  obtain ⟨ks, hks, rfl⟩ := (reads_run rest).1 hrest
  rw [Quiet] at hquiet
  rw [hquiet, Bool.or_false] at hks
  obtain ⟨hfault, hlexemes⟩ := reads_iff.1 hks
  rw [reads_iff, List.cons_append, scan_cons hfirst]
  refine ⟨hfault, ?_⟩
  simpa [lexemesOf, newlines, hquiet] using hlexemes

/-! ### Fronts of a text -/

/-- What the pieces between lexemes are made of. -/
theorem Piece.first_gap {cs : List Char} {p : Piece} (h : first c cs = .ok (p, rest))
    (hl : ∀ l, p.form ≠ .lexeme l) :
    (p.form = .layout ∧ layoutRun false (c :: cs) = (p.text, rest)) ∨
      (∃ run, p = ⟨.continuation, '\\' :: run⟩ ∧ run.head?.any isBreak ∧
        layoutRun false cs = (run, rest)) ∨
      ∃ body ds, p = ⟨.comment, '/' :: '*' :: body⟩ ∧ closeComment ds = some (body, rest) := by
  have solid : ¬p.Solid := fun ⟨l, _, _, hform, _⟩ => hl l hform
  have htext := (first_tiles c cs p rest h).1
  unfold first at h
  split at h
  · cases h
    exact .inl ⟨rfl, rfl⟩
  split at h
  · unfold continuation at h
    split at h
    · rename_i hhead
      cases h
      exact .inr (.inl ⟨_, rfl, layoutRun_break hhead, rfl⟩)
    · cases h
  split at h
  · unfold comment at h
    split at h
    · rename_i body after hbody
      cases h
      exact .inr (.inr ⟨body, _, rfl, hbody⟩)
    · cases h
  split at h
  · exact absurd (number_solid htext h) solid
  split at h
  · exact absurd (character_solid h) solid
  split at h
  · exact absurd (string_solid h) solid
  split at h
  · exact absurd (word_solid htext h) solid
  · exact absurd (punctuation_solid h) solid

structure Joins (other rest : List Char) : Prop where
  replaces : Replaces other rest
  quiet : Quiet other

theorem Starts.joins (h : Starts rest) : Joins rest rest := ⟨.refl rest, h.quiet⟩

theorem Joins.append_quiet (h : Joins other rest) (front : List Char)
    (hfront : Starts (front ++ rest)) : Quiet (front ++ other) := by
  cases front with
  | nil => exact h.quiet
  | cons c front =>
    apply Starts.quiet
    rintro d ⟨⟩
    exact hfront c rfl

/-- The pieces of a front of the text are behind each other in the whole. -/
theorem Cuts.split {ps qs : List Piece} (h : Cuts text (ps ++ qs)) :
    ∃ rest, text = ps.flatMap Piece.text ++ rest ∧ Cuts rest qs := by
  induction ps generalizing text with
  | nil => exact ⟨text, rfl, h⟩
  | cons p ps ih =>
    cases h with
    | @cons c cs _ after _ hfirst hcuts =>
      obtain ⟨rest, rfl, hrest⟩ := ih hcuts
      obtain ⟨-, htiles⟩ := Piece.first_tiles c cs p _ hfirst
      exact ⟨rest, by rw [List.flatMap_cons, List.append_assoc, htiles], hrest⟩

/-- By induction on the pieces of the front. A lexeme, a comment and a continued line do not see what
is replaced far behind them, and a layout goes on with the layout of the other text. -/
theorem reads_front {ps qs : List Piece} (h : Cuts (ps.flatMap Piece.text ++ rest) (ps ++ qs))
    (hne : rest ≠ []) (fresh : Bool) :
    ∃ ls fresh', ∀ other ks, Joins other rest → Reads fresh' other ks →
      Reads fresh (ps.flatMap Piece.text ++ other) (ls ++ ks) := by
  induction ps generalizing fresh with
  | nil => exact ⟨[], fresh, fun other ks _ hks => hks⟩
  | cons p ps ih =>
    rw [List.flatMap_cons, List.append_assoc] at h
    generalize htext : p.text ++ (ps.flatMap Piece.text ++ rest) = text at h
    cases h with
    | @cons c cs _ after _ hfirst hcuts =>
      obtain ⟨-, htiles⟩ := Piece.first_tiles c cs p after hfirst
      obtain rfl : after = ps.flatMap Piece.text ++ rest :=
        List.append_cancel_left (htiles.trans htext.symm)
      have hafter : ps.flatMap Piece.text ++ rest ≠ [] := by simp [hne]
      simp only [List.flatMap_cons, List.append_assoc]
      by_cases hl : ∃ l, p.form = .lexeme l
      · obtain ⟨l, hl⟩ := hl
        obtain ⟨ls, fresh', hmore⟩ := ih hcuts false
        refine ⟨l :: ls, fresh', fun other ks hother hks => ?_⟩
        have hreplaces : Replaces (ps.flatMap Piece.text ++ other) (ps.flatMap Piece.text ++ rest) :=
          hother.replaces.append rfl
        exact .lexeme (Piece.takes_of_first hfirst hl hreplaces) (hmore other ks hother hks)
      · rcases Piece.first_gap hfirst (not_exists.1 hl) with
          ⟨-, hrun⟩ | ⟨run, rfl, hhead, hrun⟩ | ⟨body, ds, rfl, hbody⟩
        · obtain ⟨ls, fresh', hmore⟩ := ih hcuts (fresh || p.text.any isBreak)
          refine ⟨newlines fresh p.text ++ ls, fresh', fun other ks hother hks => ?_⟩
          have hlaid := layoutRun_stays false (c :: cs) (ps.flatMap Piece.text ++ other)
            (by rw [hrun]; exact hafter)
          rw [hrun] at hlaid
          rw [List.append_assoc]
          exact .layout hlaid (hmore other ks hother hks)
        · obtain ⟨ls, fresh', hmore⟩ := ih hcuts fresh
          refine ⟨ls, fresh', fun other ks hother hks => ?_⟩
          have hlaid := layoutRun_stays false cs (ps.flatMap Piece.text ++ other)
            (by rw [hrun]; exact hafter)
          have hstarts := layoutRun_starts false cs
          rw [hrun] at hlaid hstarts
          exact .continued hlaid hhead (hother.append_quiet _ hstarts) (hmore other ks hother hks)
        · obtain ⟨ls, fresh', hmore⟩ := ih hcuts fresh
          refine ⟨ls, fresh', fun other ks hother hks => ?_⟩
          exact .comment (closeComment_stays hbody _) (hmore other ks hother hks)

end Pasture.Lexing
