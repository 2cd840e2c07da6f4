import Pasture.Proofs.Diagnostic.Renderer
import Pasture.Proofs.Source.Line

/-! # Where the caret stands

The excerpt for a rejected text has the line of the offset at which the text is rejected, and a row
of carets that starts below the character there. The row ends on that line or just behind it: a
token ends no later than its last line, and a token that ends on a later line than it starts is
marked up to the end of its first line.
-/
namespace Pasture

open Grammar Text

variable {text : List Char} {source file name : String} {t : Token} {tokens : List Token}

section Tokens

open Lexing

/-- Without carriage returns a layout that breaks the line has a line feed, so that its token ends on
a later line. -/
theorem newline_span_later {layout : List Char} (hreturn : '\r' ∉ layout)
    (hbreak : layout.any isBreak) (file : String) (place : Position) :
    (Span.between file (place.advance (layout.takeWhile (!isBreak ·)))
        (place.advance layout)).startLine <
      (Span.between file (place.advance (layout.takeWhile (!isBreak ·)))
        (place.advance layout)).endLine := by
  obtain ⟨run, c, more, hrun, hlayout, hc⟩ := exists_first_break hbreak
  have hfeed : c = '\n' := by
    have hcases : c = '\n' ∨ c = '\r' := by simpa [isBreak] using hc
    exact hcases.resolve_right fun h => hreturn (by simp [hlayout, h])
  have hlater := Position.advance_later ((place.advance run).step '\n') more
  have hstep : ((place.advance run).step '\n').line = (place.advance run).line + 1 := rfl
  rw [hrun, hlayout, hfeed, Position.advance_append, Position.advance_cons]
  simp only [Span.between]
  omega

/-- A newline ends on a later line than it starts, and the end of the input not behind its start. -/
structure EndsEarly (t : Token) : Prop where
  newline : t.lexeme = .newline → ∃ s ∈ t.span, s.startLine < s.endLine
  final : t.lexeme = .endOfInput → ∃ s ∈ t.span, s.endColumn ≤ s.startColumn

theorem tokensOf_ends {ps : List Piece} (hcuts : Cuts text ps) (hreturn : '\r' ∉ text)
    (file : String) (place : Position) (fresh : Bool) :
    ∀ t ∈ tokensOf file place fresh ps, EndsEarly t := by
  induction hcuts generalizing place fresh with
  | nil => exact List.forall_mem_nil _
  | @cons c cs p rest ps hfirst _ ih =>
    obtain ⟨-, htiles⟩ := Piece.first_tiles c cs p rest hfirst
    rw [← htiles, List.mem_append, not_or] at hreturn
    obtain ⟨hpiece, hrest⟩ := hreturn
    have hlater := ih hrest (place.advance p.text)
    cases hform : p.form with
    | lexeme l =>
      obtain ⟨hnew, hend⟩ := Piece.first_lexeme hfirst hform
      simp only [tokensOf, hform]
      exact List.forall_mem_cons.2
        ⟨⟨fun ht => absurd ht hnew, fun ht => absurd ht hend⟩, hlater false⟩
    | layout =>
      simp only [tokensOf, hform]
      split
      · rename_i hbreak
        have hany := (Bool.and_eq_true _ _ ▸ hbreak).1
        exact List.forall_mem_cons.2
          ⟨⟨fun _ => ⟨_, rfl, newline_span_later hpiece hany file place⟩, Lexeme.noConfusion⟩,
            hlater true⟩
      · exact hlater fresh
    | continuation | comment =>
      simp only [tokensOf, hform]
      exact hlater fresh

theorem endToken_ends (file : String) (text : List Char) :
    EndsEarly (endToken file (Position.start.advance text)) := by
  refine ⟨fun ht => (nomatch ht), fun _ => ⟨_, rfl, ?_⟩⟩
  have hcolumn := Position.column_pos (show 0 < Position.start.column by decide) text
  simp only [Span.between]
  split
  · omega
  · omega

theorem lex_ends (hfeeds : FeedsOnly source.toList) (h : lex source file = .ok tokens) :
    ∀ t ∈ tokens, EndsEarly t := by
  obtain ⟨hfault, rfl⟩ := lex_eq_ok.1 h
  have hreturn : '\r' ∉ source.toList := fun hmem => absurd (hfeeds '\r' hmem rfl) (by decide)
  intro t ht
  rcases List.mem_append.1 ht with ht | ht
  · exact tokensOf_ends (scan_cuts hfault) hreturn file .start false t ht
  · exact List.mem_singleton.1 ht ▸ endToken_ends file _

theorem lex_fits (hfeeds : FeedsOnly source.toList) (h : lex source file = .ok tokens) :
    ∀ t ∈ tokens, Located (Span.Fits source.toList file) t := by
  have hends := lex_ends hfeeds h
  obtain ⟨hfault, rfl⟩ := lex_eq_ok.1 h
  suffices hall : ∀ t ∈ _, EndsEarly t → Located (Span.Fits source.toList file) t from
    fun t ht => hall t ht (hends t ht)
  -- A line break is marked to the end of its line, a lexeme to its own end, and the end of the
  -- input by one caret behind the text.
  refine forall_of_tiled (scan_tiled hfault file) ?_ ?_ ?_
  · intro t k i hnew hi hearly
    obtain ⟨s, hs, hplace⟩ := (located_of_newline hnew hi).span
    obtain ⟨s', hs', hlater⟩ := hearly.newline hnew.1
    obtain rfl : s = s' := Option.some.inj (hs.symm.trans hs')
    exact ⟨⟨s, hs, hplace.fits (.inl (by omega))⟩, fun hne => absurd hnew.1 hne⟩
  · intro t i j hspot _
    have hlocated := located_of_spot hspot
    obtain ⟨c, hlast, hc⟩ := hspot.final
    have hlt := hspot.lt
    have hle := hspot.le
    have hfirst : (Span.single file (.ofOffset source.toList i)).PointsInto source.toList file :=
      ⟨i, by omega, rfl, rfl, rfl⟩
    have hbehind := Span.after_pointsInto hlast hc (s := .single file (.ofOffset source.toList (j - 1)))
      rfl rfl rfl
    obtain ⟨hwhole, hafter⟩ := Span.fits_joins _ _ hfirst.single_fits hbehind.after_fits
    exact ⟨⟨_, hspot.span, hwhole⟩, fun _ _ => ⟨_, hspot.span, hafter⟩⟩
  · intro t s ht hs hstart hearly
    obtain ⟨s', hs', hcolumn⟩ := hearly.final ht
    obtain rfl : s = s' := Option.some.inj (hs.symm.trans hs')
    have hplace : s.PointsInto source.toList file := ⟨_, Nat.le_refl _, hstart⟩
    exact ⟨⟨s, hs, hplace.fits (.inr hcolumn)⟩, fun _ hne => absurd ht hne⟩

end Tokens

/-- A text is rejected at an offset, and on one line if the span ends on the line of the offset. -/
theorem rejection_fits {e : ParseError} (hfeeds : FeedsOnly source.toList)
    (h : parseSource source file name = .error (.rejected e)) :
    Pointed (Span.Fits source.toList file) e :=
  parseSource_pointed (Span.fits_joins _ _) (fun _ => lex_fits hfeeds)
    (fun _ => lexical_pointed fun _ hp => hp.single_fits) h

namespace Excerpt

variable {s : Span} {i : Nat}

theorem lineOf_around (hfeeds : FeedsOnly text) (hi : i ≤ text.length)
    (hstart : s.StartsAt file (.ofOffset text i)) : lineOf (lines text) s =
      if i = text.length ∧ lineFront text i = [] then none else some (lineAround text i) := by
  obtain ⟨-, hline, -⟩ := hstart
  have hindex : (s.startLine - 1).toNat = (text.take i).count '\n' := by
    simp only [hline, Position.ofOffset]
    omega
  have hpositive : 1 ≤ s.startLine := by
    simp only [hline, Position.ofOffset]
    omega
  rw [lineOf, if_pos hpositive, hindex, lines_around hfeeds hi]

/-- The rows of an excerpt under its bar: the line of the offset `i` over carets, or no line if the
offset is on none. -/
inductive Rows (text : List Char) (s : Span) (i : Nat) (atEnd : Bool) : List String → Prop
  | line {width : Nat} : s.startLine ≤ (lines text).length → 1 ≤ width →
      (s.startColumn - 1).toNat + width ≤ (lineAround text i).length + 1 →
      Rows text s i atEnd
        ["  " ++ (padLeft 4 (toString s.startLine) ++ " |") ++ " " ++
            String.ofList (lineAround text i),
          "     | " ++ "".pushn ' ' (s.startColumn - 1).toNat ++ ("".pushn '^' width ++
            if atEnd then " input ends here" else "")]
  | beyond : (lines text).length < s.startLine → i = text.length →
      text = [] ∨ text.getLast? = some '\n' →
      Rows text s i atEnd (if atEnd then ["     | input ends here"] else [])

theorem markWidth_fits (hstart : s.StartsAt file (.ofOffset text i))
    (hend : s.endLine = s.startLine → s.endColumn ≤ s.startColumn + (lineRest text i).length) :
    1 ≤ markWidth s (lineAround text i) ∧
      (s.startColumn - 1).toNat + markWidth s (lineAround text i) ≤ (lineAround text i).length + 1 := by
  obtain ⟨-, -, hcolumn⟩ := hstart
  have hfront := Position.column_ofOffset text i
  have hlength : (lineAround text i).length = (lineFront text i).length + (lineRest text i).length :=
    List.length_append
  unfold markWidth
  simp only
  split
  · rename_i hline
    have hbound := hend hline
    omega
  · omega

theorem lineOf_eq_none (hpositive : 1 ≤ s.startLine) {source : List (List Char)} :
    lineOf source s = none ↔ source.length < s.startLine := by
  rw [lineOf, if_pos hpositive, List.getElem?_eq_none_iff]
  omega

/-- What a label of an error shows without colour. -/
theorem labelLines_rows (hfeeds : FeedsOnly text) (hi : i ≤ text.length)
    (hstart : s.StartsAt file (.ofOffset text i))
    (hend : s.endLine = s.startLine → s.endColumn ≤ s.startColumn + (lineRest text i).length)
    (atEnd : Bool) (paint : Paint) :
    ∃ rows, Rows text s i atEnd rows ∧
      labelLines false paint (lines text) ⟨s, if atEnd then "input ends here" else "", "primary"⟩ =
        ("  --> " ++ s.text) :: "     |" :: rows := by
  have hpositive : 1 ≤ s.startLine := by
    simp only [hstart.2.1, Position.ofOffset]
    omega
  have hline := lineOf_around hfeeds hi hstart
  have hbar : bar false = "     |" := by decide
  by_cases hbehind : i = text.length ∧ lineFront text i = []
  · rw [if_pos hbehind] at hline
    obtain ⟨rfl, hfront⟩ := hbehind
    have hpast := (lineOf_eq_none hpositive).1 hline
    refine ⟨_, .beyond hpast rfl (lineFront_length_eq_nil hfront), ?_⟩
    cases atEnd <;> simp [labelLines, hline, hbar, Paint.on]
  · rw [if_neg hbehind] at hline
    have hknown : s.startLine ≤ (lines text).length := by
      refine Int.not_lt.1 fun hpast => ?_
      rw [(lineOf_eq_none hpositive).2 hpast] at hline
      cases hline
    obtain ⟨hwidth, hlast⟩ := markWidth_fits hstart hend
    refine ⟨_, .line hknown hwidth hlast, ?_⟩
    cases atEnd <;> simp [labelLines, hline, hbar, Paint.on, mark, String.append_assoc]

end Excerpt

section Errors

variable {e : ParseError} {m : Type → Type} [Monad m] [LawfulMonad m]

def ParseError.shown (e : ParseError) (s : Span) (rows : List String) : String :=
  "\n".intercalate
    (("error[" ++ e.phase.code ++ "]: " ++ e.message) :: ("  --> " ++ s.text) :: "     |" :: rows ++
      e.suggestions.map fun g => "  = help: " ++ g.message ++ ": " ++ g.replacement)

theorem ParseError.render_shown {s : Span} {rows : List String} (hspan : e.span = some s)
    {sourceOf : String → List (List Char)}
    (h : Excerpt.labelLines false .red (sourceOf s.file)
      ⟨s, if e.atEnd then "input ends here" else "", "primary"⟩ =
        ("  --> " ++ s.text) :: "     |" :: rows) :
    e.diagnostic.render false sourceOf = e.shown s rows := by
  have hclose : "]: " = "]" ++ ": " := by decide
  have htitle : "error" ++ "[" ++ e.phase.code ++ "]" ++ (": " ++ e.message) =
      "error[" ++ e.phase.code ++ "]: " ++ e.message := by
    rw [hclose, show "error" ++ "[" = "error[" by decide]
    simp only [String.append_assoc]
  rw [Diagnostic.render, shown]
  refine congrArg ("\n".intercalate ·) ?_
  simp only [Diagnostic.lines, diagnostic, hspan, Severity.paint, Severity.name, Paint.on,
    Bool.false_eq_true, if_false, List.flatMap_cons, List.flatMap_nil, List.append_nil,
    List.map_nil, h, htitle]
  rfl

/-- The error is at the offset `i` of the source: its span starts there, and so does the token that
it names, unless that is the end of the input. What stands over the first caret is what stands at
the offset, or nothing if that is the end of its line. -/
structure ParseError.PointsAt (e : ParseError) (source file : String) (s : Span) (i : Nat) : Prop where
  span : e.span = some s
  offset : i ≤ source.toList.length
  start : s.StartsAt file (.ofOffset source.toList i)
  token : ∀ t ∈ e.token, ¬t.isEnd → t.span = some s
  above : (lineAround source.toList i)[(s.startColumn - 1).toNat]? =
    (source.toList[i]?).filter (· ≠ '\n')

theorem rejection_points_at (hfeeds : FeedsOnly source.toList)
    (h : parseSource source file name = .error (.rejected e)) :
    ∃ s i, e.PointsAt source file s i ∧
      (s.endLine = s.startLine →
        s.endColumn ≤ s.startColumn + (lineRest source.toList i).length) := by
  obtain ⟨⟨s, hspan, i, hi, hstart, hend⟩, htoken⟩ := rejection_fits hfeeds h
  rw [Option.mem_def] at hspan
  have hcolumn : (s.startColumn - 1).toNat = (lineFront source.toList i).length := by
    have hfront := Position.column_ofOffset source.toList i
    have hplace := hstart.2.2
    omega
  refine ⟨s, i, ⟨hspan, hi, hstart, ?_, ?_⟩, hend⟩
  · exact fun t ht hnot => (htoken t ht hnot).symm.trans hspan
  · rw [hcolumn]
    exact lineAround_getElem? source.toList i

/-- A renderer without colour that was handed a rejected text shows the line of the offset at which
the text is rejected, with carets from below that offset on, or no line if the offset is on none. -/
theorem caret_points (hfeeds : FeedsOnly source.toList)
    (h : parseSource source file name = .error (.rejected e)) (disk : Disk m)
    (known : List (String × List (List Char))) :
    ∃ s i rows, e.PointsAt source file s i ∧ Excerpt.Rows source.toList s i e.atEnd rows ∧
      (Renderer.register ⟨false, known⟩ file source).render disk e.diagnostic =
        pure (e.shown s rows, Renderer.register ⟨false, known⟩ file source) := by
  obtain ⟨s, i, hpoints, hend⟩ := rejection_points_at hfeeds h
  obtain ⟨rows, hrows, hlines⟩ :=
    Excerpt.labelLines_rows hfeeds hpoints.offset hpoints.start hend e.atEnd .red
  refine ⟨s, i, rows, hpoints, hrows, ?_⟩
  have hknows : ∀ l ∈ e.diagnostic.labels,
      (Renderer.register ⟨false, known⟩ file source).Knows l.span.file := by
    intro l hl
    rw [ParseError.label_in_file h l hl]
    exact Renderer.register_knows _ file source
  have hsource : (Renderer.register ⟨false, known⟩ file source).sourceOf s.file =
      lines source.toList := by
    rw [hpoints.start.1]
    exact Renderer.sourceOf_register _ file source
  have hshown := ParseError.render_shown hpoints.span (hsource ▸ hlines)
  rw [Renderer.render_known disk hknows]
  exact congrArg (fun text => pure (text, _)) hshown

/-- The bracket of the second line is refused in the place of an expression. -/
theorem caret_points_bracket :
    ∃ e, parseSource "a\nb = (]\n" "f" "m" = .error (.rejected e) ∧
      FeedsOnly "a\nb = (]\n".toList ∧
      ∃ s i rows, e.PointsAt "a\nb = (]\n" "f" s i ∧
        Excerpt.Rows "a\nb = (]\n".toList s i e.atEnd rows ∧
        (Renderer.register ⟨false, []⟩ "f" "a\nb = (]\n").render (FileSet.disk ⟨[]⟩ [])
            e.diagnostic =
          (e.shown s rows, Renderer.register ⟨false, []⟩ "f" "a\nb = (]\n") := by
  have hfeeds : FeedsOnly "a\nb = (]\n".toList := by
    have hall : "a\nb = (]\n".toList.all (fun c => !endsLine c || c == '\n') := by decide +kernel
    intro c hc hend
    simpa [hend] using List.all_eq_true.1 hall c hc
  have hfailure : (match parseSource "a\nb = (]\n" "f" "m" with
      | .ok _ => none
      | .error failure => some failure) =
      some (.rejected (.syntactic (.expected .expression) none
        (some (.plain (.symbol .rbracket) (some (.single "f" ⟨2, 6⟩)))))) := by
    decide +kernel
  cases h : parseSource "a\nb = (]\n" "f" "m" with
  | ok _ =>
    rw [h] at hfailure
    cases hfailure
  | error failure =>
    rw [h] at hfailure
    cases hfailure
    exact ⟨_, rfl, hfeeds, caret_points (m := Id) hfeeds h (FileSet.disk ⟨[]⟩ []) []⟩

end Errors

end Pasture
