import Pasture.Proofs.Grammar.Blame
import Pasture.Proofs.Lexing.Faults
import Pasture.Proofs.Lexing.Tiling
import Pasture.Proofs.Source.Line

/-! # Rejected texts

Every rejection of a text points to an offset of the text: the tokens have such places, the normal
form keeps them, and the parsers point to tokens or behind them.
-/
namespace Pasture

open Grammar

variable {text : List Char} {file : String} {t : Token} {ts : List Token} {P : Span → Prop}

/-- The error has a place, that of the token which it names if it names one. The end of the input
may be refused at the place of what stands before it. -/
structure Pointed (P : Span → Prop) (e : ParseError) : Prop where
  span : ∃ s ∈ e.span, P s
  token : ∀ t ∈ e.token, ¬t.isEnd → e.span = t.span

section Tokens

theorem located_of_newline {k i : Nat} (h : Lexing.NewlineIn text file k i t) (hi : i ≤ text.length) :
    Located (Span.PointsInto text file) t := by
  obtain ⟨ht, s, m, c, hs, -, hm, -, -, hstart⟩ := h
  exact ⟨⟨s, hs, m, by omega, hstart⟩, fun hnew => absurd ht hnew⟩

theorem located_of_spot {i j : Nat} (h : Lexing.Spot text file i j t) :
    Located (Span.PointsInto text file) t := by
  obtain ⟨c, hlast, hc⟩ := h.final
  have hlt := h.lt
  have hle := h.le
  refine ⟨⟨_, h.span, i, by omega, ⟨rfl, rfl, rfl⟩⟩, fun _ _ => ⟨_, h.span, ?_⟩⟩
  exact Span.after_pointsInto hlast hc rfl rfl rfl

/-- What holds of a newline between lexemes, of the token of a lexeme and of the end of the input
holds of all tokens. -/
theorem forall_of_tiled {Q : Token → Prop} {k : Nat} (h : Lexing.Tiled text file k ts)
    (hnew : ∀ t k i, Lexing.NewlineIn text file k i t → i ≤ text.length → Q t)
    (hspot : ∀ t i j, Lexing.Spot text file i j t → Q t)
    (hend : ∀ t s, t.lexeme = .endOfInput → t.span = some s →
      s.StartsAt file (.ofOffset text text.length) → Q t) : ∀ t ∈ ts, Q t := by
  induction h with
  | @last k news e s _ _ hnews he hs hstart =>
    intro t ht
    rcases List.mem_append.1 ht with ht | ht
    · exact hnew t _ _ (hnews t ht) (Nat.le_refl _)
    · exact List.mem_singleton.1 ht ▸ hend e s he hs hstart
  | @next k i j news u us _ _ hnews hu _ ih =>
    have hlt := hu.lt
    have hle := hu.le
    intro t ht
    rcases List.mem_append.1 ht with ht | ht
    · exact hnew t _ _ (hnews t ht) (by omega)
    · rcases List.mem_cons.1 ht with rfl | ht
      · exact hspot t i j hu
      · exact ih t ht

theorem lex_located {source : String} {tokens : List Token}
    (h : Lexing.lex source file = .ok tokens) :
    ∀ t ∈ tokens, Located (Span.PointsInto source.toList file) t := by
  obtain ⟨hfault, rfl⟩ := Lexing.lex_eq_ok.1 h
  refine forall_of_tiled (Lexing.scan_tiled hfault file) ?_ ?_ ?_
  · exact fun t k i hnew hi => located_of_newline hnew hi
  · exact fun t i j hspot => located_of_spot hspot
  · intro t s ht hs hstart
    exact ⟨⟨s, hs, _, Nat.le_refl _, hstart⟩, fun _ hne => absurd ht hne⟩

theorem lex_endOfInput {source : String} {tokens : List Token}
    (h : Lexing.lex source file = .ok tokens) : ∃ t ∈ tokens, t.lexeme = .endOfInput := by
  obtain ⟨-, rfl⟩ := Lexing.lex_eq_ok.1 h
  exact ⟨_, List.mem_append_right _ List.mem_cons_self, rfl⟩

theorem lexical_pointed {source : String} {e : ParseError}
    (hP : ∀ p, (Span.single file p).PointsInto source.toList file → P (.single file p))
    (h : Lexing.lex source file = .error (.rejected e)) : Pointed P e := by
  obtain ⟨p, hspan, hplace, htoken⟩ := Lexing.lex_rejected h
  refine ⟨⟨_, hspan, hP p hplace⟩, fun t ht => ?_⟩
  rw [htoken] at ht
  cases ht

end Tokens

namespace Normal

theorem mem_of_mem_elide (absorbing : Bool) (h : t ∈ elide absorbing ts) : t ∈ ts := by
  fun_induction elide absorbing ts with
  | case1 => exact h
  | case2 _ u us _ ih => exact List.mem_cons_of_mem u (ih h)
  | case3 _ u us _ ih =>
    rcases List.mem_cons.1 h with rfl | h
    · exact List.mem_cons_self
    · exact List.mem_cons_of_mem u (ih h)

theorem mem_elide (absorbing : Bool) (h : t ∈ ts) (ht : t.lexeme ≠ .newline) :
    t ∈ elide absorbing ts := by
  fun_induction elide absorbing ts with
  | case1 => exact h
  | case2 _ u us hu ih =>
    rcases List.mem_cons.1 h with rfl | h
    · simp [ht] at hu
    · exact ih h
  | case3 _ u us _ ih =>
    rcases List.mem_cons.1 h with rfl | h
    · exact List.mem_cons_self
    · exact List.mem_cons_of_mem u (ih h)

def Chain.Placed (P : Span → Prop) (c : Chain) : Prop :=
  ∃ first last, c.first = some first ∧ c.last = some last ∧ P first ∧ P last.after

theorem Chain.Placed.token {c : Chain} (hP : Span.Joins P) (h : c.Placed P) : Located P c.token := by
  obtain ⟨first, last, hfirst, hlast, hstart, hafter⟩ := h
  have hspan : c.token.span = some (first.through last) := by
    rw [Chain.token, hfirst, hlast]
    rfl
  obtain ⟨hwhole, hbehind⟩ := hP hstart hafter
  exact ⟨⟨_, hspan, hwhole⟩, fun _ _ => ⟨_, hspan, hbehind⟩⟩

theorem Chain.start_placed {i : Identifier} (ht : Located P t) (hi : t.lexeme = .identifier i) :
    (Chain.start i t.span).Placed P := by
  obtain ⟨s, hs, hstart⟩ := ht.span
  obtain ⟨s', hs', hafter⟩ := ht.after (by simp [hi]) (by simp [hi])
  exact ⟨s, s', hs, hs', hstart, hafter⟩

theorem Chain.Placed.extend {c : Chain} {i : Identifier} (h : c.Placed P) (ht : Located P t)
    (hi : t.lexeme = .identifier i) : (c.extend i t.span).Placed P := by
  obtain ⟨first, _, hfirst, _, hstart, _⟩ := h
  obtain ⟨s, hs, hafter⟩ := ht.after (by simp [hi]) (by simp [hi])
  exact ⟨first, s, hfirst, hs, hstart, hafter⟩

def Open.Placed (P : Span → Prop) : Open → Prop
  | .nothing => True
  | .name chain => chain.Placed P
  | .dotted chain dot => chain.Placed P ∧ ∃ s ∈ dot.span, P s

theorem segmentError_placed {dot : Token} {found : Option Token} (hdot : ∃ s ∈ dot.span, P s)
    (hfound : ∀ t ∈ found, Located P t) : Pointed P (segmentError dot found) := by
  have hend : (ParseError.syntactic (.expected .segment) dot.span found).atEnd =
      found.all Token.isEnd := rfl
  unfold segmentError
  simp only [hend]
  cases found with
  | none => exact ⟨by simpa using hdot, fun t ht => nomatch ht⟩
  | some t =>
    by_cases ht : t.isEnd
    · rw [Option.all_some, if_pos ht]
      refine ⟨hdot, ?_⟩
      rintro _ ⟨⟩ hnot
      exact absurd ht hnot
    · rw [Option.all_some, if_neg ht]
      obtain ⟨s, hs, hplace⟩ := (hfound t rfl).span
      have hspan : (t.span <|> dot.span) = t.span := by rw [Option.mem_def.1 hs]; rfl
      refine ⟨⟨s, hspan.trans hs, hplace⟩, ?_⟩
      rintro _ ⟨⟩ _
      exact hspan

/-- What becomes of the tokens `ts`: tokens with places, the end among them if it was, or an error
with a place. -/
def Settled (P : Span → Prop) (ts : List Token) : Except ParseError (List Token) → Prop
  | .ok out => (∀ t ∈ out, Located P t) ∧ ∀ t ∈ ts, t.lexeme = .endOfInput → t ∈ out
  | .error e => Pointed P e

theorem Settled.cons {result : Except ParseError (List Token)} (ht : Located P t)
    (h : Settled P ts result) : Settled P (t :: ts) ((t :: ·) <$> result) := by
  cases result with
  | error e => exact h
  | ok out =>
    obtain ⟨hlocated, hend⟩ := h
    refine ⟨List.forall_mem_cons.2 ⟨ht, hlocated⟩, List.forall_mem_cons.2 ⟨?_, ?_⟩⟩
    · exact fun _ => List.mem_cons_self
    · exact fun u hu hul => List.mem_cons_of_mem t (hend u hu hul)

/-- A token that takes the place of others is put in front. -/
theorem Settled.put {result : Except ParseError (List Token)} (ht : Located P t)
    (h : Settled P ts result) : Settled P ts ((t :: ·) <$> result) := by
  cases result with
  | error e => exact h
  | ok out => exact ⟨List.forall_mem_cons.2 ⟨ht, h.1⟩,
      fun u hu hul => List.mem_cons_of_mem t (h.2 u hu hul)⟩

theorem Settled.drop {result : Except ParseError (List Token)} (ht : t.lexeme ≠ .endOfInput)
    (h : Settled P ts result) : Settled P (t :: ts) result := by
  cases result with
  | error e => exact h
  | ok out => exact ⟨h.1, List.forall_mem_cons.2 ⟨fun hend => absurd hend ht, h.2⟩⟩

theorem fuse_settled (hP : Span.Joins P) {o : Open} (ho : o.Placed P) (hts : ∀ t ∈ ts, Located P t) :
    Settled P ts (fuse o ts) := by
  fun_induction fuse o ts with
  | case1 => simp [Settled]
  | case2 chain => simpa [Settled] using ho.token hP
  | case3 _ dot => exact segmentError_placed ho.2 (by simp)
  | case4 t ts i hi ih =>
    obtain ⟨ht, hts⟩ := List.forall_mem_cons.1 hts
    exact (ih (Chain.start_placed ht hi) hts).drop (by simp [hi])
  | case5 t ts _ ih =>
    obtain ⟨ht, hts⟩ := List.forall_mem_cons.1 hts
    exact (ih trivial hts).cons ht
  | case6 chain t ts hdot ih =>
    obtain ⟨ht, hts⟩ := List.forall_mem_cons.1 hts
    exact (ih ⟨ho, ht.span⟩ hts).drop (by simp [hdot])
  | case7 chain t ts i hi ih =>
    obtain ⟨ht, hts⟩ := List.forall_mem_cons.1 hts
    exact ((ih (Chain.start_placed ht hi) hts).put (ho.token hP)).drop (by simp [hi])
  | case8 chain t ts _ _ ih =>
    obtain ⟨ht, hts⟩ := List.forall_mem_cons.1 hts
    have hboth := ((ih trivial hts).cons ht).put (ho.token hP)
    rw [Functor.map_map] at hboth
    exact hboth
  | case9 chain dot t ts i hi ih =>
    obtain ⟨ht, hts⟩ := List.forall_mem_cons.1 hts
    exact (ih (ho.1.extend ht hi) hts).drop (by simp [hi])
  | case10 chain dot t ts _ =>
    exact segmentError_placed ho.2 fun u hu => hts u (by simp_all)

end Normal

section Sources

variable {source name : String} {tokens : List Token} {e : ParseError}

/-- What is made of tokens with places keeps their places. -/
theorem normalise_settled (hP : Span.Joins P) (hlocated : ∀ t ∈ tokens, Located P t)
    (hinput : ∃ t ∈ tokens, t.lexeme = .endOfInput) :
    match normalise tokens with
    | .ok out => ∀ ends, Guarded P ends out
    | .error e => Pointed P e := by
  obtain ⟨t, ht, hend⟩ := hinput
  have hsettled := Normal.fuse_settled hP (o := .nothing) trivial
    fun u hu => hlocated u (Normal.mem_of_mem_elide false hu)
  have helide := Normal.mem_elide false ht (by simp [hend])
  unfold normalise
  split
  · rename_i out hout
    rw [hout] at hsettled
    exact fun ends => ⟨hsettled.1, .inr ⟨t, hsettled.2 t helide hend, hend⟩⟩
  · rename_i e he
    rw [he] at hsettled
    exact hsettled

theorem parseTokens_blamed (ht : ∀ ends, Guarded P ends tokens)
    (h : parseTokens tokens name = .error e) : Blamed P e := by
  have hblames : Blames P (moduleNamed name (Token.endOf tokens) tokens) :=
    moduleNamed_blames name (ht _)
  unfold parseTokens Parser.run at h
  cases hr : moduleNamed name (Token.endOf tokens) tokens with
  | ok m rest =>
    rw [hr] at h
    cases h
  | error e' rest =>
    rw [hr] at h
    cases h
    exact hblames e rest hr

/-- If the tokens of a text have places and its lexical errors do, whatever is refused has one. -/
theorem parseSource_pointed (hP : Span.Joins P)
    (hlocated : ∀ tokens, Lexing.lex source file = .ok tokens → ∀ t ∈ tokens, Located P t)
    (hlexical : ∀ e, Lexing.lex source file = .error (.rejected e) → Pointed P e)
    (h : parseSource source file name = .error (.rejected e)) : Pointed P e := by
  unfold parseSource tokenise at h
  cases hl : Lexing.lex source file with
  | error failure =>
    rw [hl] at h
    cases h
    exact hlexical e hl
  | ok tokens =>
    have hnormal := normalise_settled hP (hlocated tokens hl) (lex_endOfInput hl)
    rw [hl] at h
    cases hn : normalise tokens with
    | error e' =>
      rw [hn] at hnormal
      simp only [bind, Except.bind, hn] at h
      cases h
      exact hnormal
    | ok out =>
      rw [hn] at hnormal
      simp only [bind, Except.bind, hn, Except.mapError] at h
      cases hp : parseTokens out name with
      | ok m =>
        rw [hp] at h
        cases h
      | error e' =>
        rw [hp] at h
        cases h
        have hblamed := parseTokens_blamed hnormal hp
        exact ⟨hblamed.span, fun t ht _ => hblamed.token t ht⟩

theorem parseSource_placed (h : parseSource source file name = .error (.rejected e)) :
    ∃ s ∈ e.span, s.PointsInto source.toList file :=
  (parseSource_pointed (Span.pointsInto_joins _ _) (fun _ => lex_located)
    (fun _ => lexical_pointed fun _ hp => hp) h).span

/-- A text that is rejected is rejected at one of its offsets, and the one label of the one
diagnostic shows it. -/
theorem rejection_points_into (h : parseSource source file name = .error (.rejected e)) :
    ∃ s, e.span = some s ∧ s.PointsInto source.toList file ∧
      ∃ d l, e.diagnostics = [d] ∧ d.labels = [l] ∧ l.span = s := by
  obtain ⟨s, hs, hplace⟩ := parseSource_placed h
  rw [Option.mem_def] at hs
  refine ⟨s, hs, hplace, e.diagnostic, ⟨s, if e.atEnd then "input ends here" else "", "primary"⟩,
    rfl, ?_, rfl⟩
  simp only [ParseError.diagnostic, hs]

/-- The statement ends where its value is missing, so that its own tokens have run out. -/
theorem unfinished_points_into :
    ∃ e, parseSource "x =\n" "f" "m" = .error (.rejected e) ∧ e.token = none ∧
      ∃ s, e.span = some s ∧ s.PointsInto ['x', ' ', '=', '\n'] "f" ∧
        ∃ d l, e.diagnostics = [d] ∧ d.labels = [l] ∧ l.span = s := by
  have hname : Lexing.Piece.first 'x' [' ', '=', '\n'] =
      .ok (⟨.lexeme (.identifier (.simple "x")), ['x']⟩, [' ', '=', '\n']) := by decide
  have hspace : Lexing.Piece.first ' ' ['=', '\n'] = .ok (⟨.layout, [' ']⟩, ['=', '\n']) := by decide
  have hsign : Lexing.Piece.first '=' ['\n'] =
      .ok (⟨.lexeme (.symbol .assign), ['=']⟩, ['\n']) := by decide
  have hfeed : Lexing.Piece.first '\n' [] = .ok (⟨.layout, ['\n']⟩, []) := by decide
  have htext : "x =\n".toList = ['x', ' ', '=', '\n'] := by decide
  have hscan : Lexing.scan "x =\n".toList = ⟨[⟨.lexeme (.identifier (.simple "x")), ['x']⟩,
      ⟨.layout, [' ']⟩, ⟨.lexeme (.symbol .assign), ['=']⟩, ⟨.layout, ['\n']⟩], none⟩ := by
    rw [htext, Lexing.scan_cons hname, Lexing.scan_cons hspace, Lexing.scan_cons hsign,
      Lexing.scan_cons hfeed, Lexing.scan]
  have hlex : Lexing.lex "x =\n" "f" = .ok _ := Lexing.lex_eq_ok.2 ⟨by rw [hscan], rfl⟩
  have h : parseSource "x =\n" "f" "m" = .error (.rejected
      (.syntactic (.expected .expression) (some (.single "f" ⟨1, 4⟩)) none)) := by
    rw [hscan] at hlex
    rw [parseSource, tokenise, hlex]
    rfl
  have hplace := rejection_points_into h
  rw [htext] at hplace
  exact ⟨_, h, rfl, hplace⟩

end Sources

end Pasture
