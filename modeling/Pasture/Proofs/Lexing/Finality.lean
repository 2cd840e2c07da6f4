import Pasture.Proofs.Lexing.Unfinished

/-! # Final rejections

A text that is rejected for what stands in it, and not for its end, is rejected for the same reason
however it goes on. The lexemes that are refused at the end of the text although more of it could
mend them are a backslash, a number without a digit in its exponent, and an integer out of range.
-/
namespace Pasture.Lexing

/-- A lexeme that is refused where nothing follows it, and that a longer text may complete. -/
inductive BreaksOff : List Char → Prop where
  | backslash : BreaksOff ['\\']
  | exponent {mantissa power} : IsMantissa mantissa → PowerBefore [] power → power ≠ [] →
      (∀ c ∈ power, c.isDigit = false) → BreaksOff (mantissa ++ power)
  | integer {run} : IsMantissa run → '.' ∉ run → 2 ^ 63 - 1 < valueOf (run.filter (· ≠ '_')) →
      BreaksOff run

def EndsBrokenOff (text : List Char) : Prop :=
  ∃ rest, text = (scan text).text ++ rest ∧ BreaksOff rest

variable {c close mark : Char} {cs rest before : List Char} {cause : LexicalCause} {fault : Fault}

namespace Numeral

variable {n : Numeral}

/-! ### Longer texts -/

theorem run_extends (h : cs.dropWhile isRunChar ≠ []) (more : List Char) :
    (cs ++ more).takeWhile isRunChar = cs.takeWhile isRunChar ∧
      (cs ++ more).dropWhile isRunChar = cs.dropWhile isRunChar ++ more := by
  have hcs := List.takeWhile_append_dropWhile (p := isRunChar) (l := cs)
  have hends : ∀ c ∈ (cs.dropWhile isRunChar ++ more).head?, isRunChar c = false := by
    rw [List.head?_append_of_ne_nil _ h]
    exact dropWhile_run_stops cs
  have hrun := run_append (@mem_takeWhile_run cs) hends
  rwa [← List.append_assoc, hcs] at hrun

theorem signAt_extends (h : cs ≠ []) (more : List Char) :
    signAt (cs ++ more) = ((signAt cs).1, (signAt cs).2 ++ more) := by
  obtain ⟨c, ds, rfl⟩ := List.exists_cons_of_ne_nil h
  unfold signAt
  split <;> simp_all

/-- An exponent without digits is refused in any longer text, unless it reaches to the end. -/
theorem withExponent_final (h : withExponent n cs = .error fault) :
    (PowerBefore [] cs ∧ cs ≠ [] ∧ ∀ c ∈ cs, c.isDigit = false) ∨
      ∀ more, withExponent n (cs ++ more) = .error fault := by
  cases cs with
  | nil => cases h
  | cons c ds =>
    simp only [withExponent] at h
    split at h
    · rename_i hmark
      split at h
      · cases h
      · rename_i hdigit
        cases h
        by_cases hrest : (signAt ds).2.dropWhile isRunChar = []
        · left
          have hrun := List.takeWhile_append_dropWhile (p := isRunChar) (l := (signAt ds).2)
          have hpower := powerBefore_sign hmark ds
          have hnone : ∀ d ∈ c :: (signAt ds).1.toList ++ (signAt ds).2.takeWhile isRunChar,
              d.isDigit = false := by
            intro d hd
            by_contra hsome
            have hsome : d.isDigit := by simpa using hsome
            exact hdigit (List.any_eq_true.2 ⟨d, digit_of_sign hmark hd hsome, hsome⟩)
          rw [hrest, List.append_nil] at hrun
          rw [hrest, hrun, List.cons_append, signAt_append] at hpower
          rw [hrun, List.cons_append, signAt_append] at hnone
          exact ⟨hpower, List.cons_ne_nil _ _, hnone⟩
        · right
          intro more
          have hds : ds ≠ [] := by
            rintro rfl
            exact hrest rfl
          obtain ⟨htake, -⟩ := run_extends hrest more
          simp only [List.cons_append, withExponent, hmark, if_true, signAt_extends hds, htake,
            hdigit, Bool.false_eq_true, if_false]
    · cases h

theorem read_pointed_final {after : List Char} (hstart : StartsNumber cs)
    (hpoint : cs.dropWhile isRunChar = '.' :: after) (h : read cs = .error fault) :
    BreaksOff cs ∨ ∀ more, read (cs ++ more) = .error fault := by
  have hcs := List.takeWhile_append_dropWhile (p := isRunChar) (l := cs)
  have hafter := List.takeWhile_append_dropWhile (p := isRunChar) (l := after)
  have hne : cs.dropWhile isRunChar ≠ [] := by simp [hpoint]
  have hwhole := run_extends hne
  simp only [read, hpoint] at h
  split at h
  · rename_i beyond hsecond
    have hne : after.dropWhile isRunChar ≠ [] := by simp [hsecond]
    have hfraction := run_extends hne
    cases h
    right
    intro more
    simp only [read, hwhole, hpoint, List.cons_append, hfraction, hsecond]
  · rename_i hsecond
    rcases withExponent_final h with ⟨hpower, hne, hnone⟩ | hfinal
    · left
      have hmantissa := fronts_pointed cs after
      have htext : cs = cs.takeWhile isRunChar ++ '.' :: after.takeWhile isRunChar ++
          after.dropWhile isRunChar := by
        rw [List.append_assoc, List.cons_append, hafter, ← hpoint, hcs]
      rw [htext] at hstart ⊢
      exact .exponent (hmantissa.isMantissa hstart) hpower hne hnone
    · right
      intro more
      -- An exponent was refused, so the run behind the point does not reach to the end.
      have hne : after.dropWhile isRunChar ≠ [] := by
        intro hnil
        rw [hnil] at h
        cases h
      have hfraction := run_extends hne more
      simp only [read, hwhole, hpoint, List.cons_append, hfraction]
      split
      · rename_i beyond hthird
        obtain ⟨d, ds, hds⟩ := List.exists_cons_of_ne_nil hne
        rw [hds, List.cons_append, List.cons.injEq] at hthird
        exact absurd (hthird.1 ▸ hds) (hsecond ds)
      · exact hfinal more

theorem read_whole_final (hstart : StartsNumber cs)
    (hpoint : ∀ after, cs.dropWhile isRunChar ≠ '.' :: after) (h : read cs = .error fault) :
    BreaksOff cs ∨ ∀ more, read (cs ++ more) = .error fault := by
  have hcs := List.takeWhile_append_dropWhile (p := isRunChar) (l := cs)
  have hnone : (cs.dropWhile isRunChar).head? ≠ some '.' := by
    intro hhead
    obtain ⟨after, hafter⟩ := List.head?_eq_some_iff.1 hhead
    exact hpoint after hafter
  unfold read at h
  split at h
  · rename_i after hafter
    exact absurd hafter (hpoint after)
  rcases withExponent_final h with ⟨hpower, hne, hdigit⟩ | hfinal
  · left
    have hmantissa := (fronts_whole hnone).isMantissa (by simpa [mantissa, hcs] using hstart)
    have hoff := BreaksOff.exponent hmantissa hpower hne hdigit
    simpa [mantissa, hcs] using hoff
  · right
    intro more
    have hne : cs.dropWhile isRunChar ≠ [] := by
      intro hnil
      rw [hnil] at h
      cases h
    simp only [read, run_extends hne]
    split
    · rename_i beyond hsecond
      have hhead := congrArg List.head? hsecond
      rw [List.head?_append_of_ne_nil _ hne] at hhead
      exact absurd hhead hnone
    · exact hfinal more

theorem read_final (hstart : StartsNumber cs) (h : read cs = .error fault) :
    BreaksOff cs ∨ ∀ more, read (cs ++ more) = .error fault := by
  by_cases hpoint : ∃ after, cs.dropWhile isRunChar = '.' :: after
  · obtain ⟨after, hafter⟩ := hpoint
    exact read_pointed_final hstart hafter h
  · exact read_whole_final hstart (not_exists.1 hpoint) h

theorem literal_malformed (h : n.literal = .error (.malformed cause before)) :
    n.fraction = none ∧ n.exponent = none ∧ 2 ^ 63 - 1 < valueOf (digitsOf n.whole) := by
  by_cases hplain : n.fraction = none ∧ n.exponent = none
  · obtain ⟨hf, he⟩ := hplain
    refine ⟨hf, he, ?_⟩
    simp only [literal, hf, he] at h
    split at h
    · cases h
    · split at h
      · assumption
      · cases h
  · rw [literal_marked (not_and_or.1 hplain)] at h
    cases h

end Numeral

namespace Item

/-- The items end at the same backslash in any longer text. -/
theorem run_extends (hclose : close ≠ '\\') (h : (run close cs).2 = '\\' :: mark :: rest)
    (more : List Char) :
    run close (cs ++ more) = ((run close cs).1, '\\' :: mark :: (rest ++ more)) := by
  fun_induction run close cs with
  | case1 | case2 => cases h
  | case3 mark' cs value hvalue items left hrun ih =>
    rw [hrun] at ih
    simp only [List.cons_append, run, hvalue, ih h]
  | case4 mark' cs hnone =>
    cases h
    simp only [List.cons_append, run, hnone]
  | case5 =>
    cases h
    exact absurd rfl hclose
  | case6 c cs hlast hpair hc items left hrun ih =>
    rw [hrun] at ih
    rw [List.cons_append, run_plain (ne_backslash hlast hpair) hc, ih h]

end Item

namespace Piece

theorem number_final (hstart : StartsNumber cs) (h : number cs = .error (.malformed cause before)) :
    BreaksOff cs ∨ ∀ more, number (cs ++ more) = .error (.malformed cause before) := by
  cases hread : Numeral.read cs with
  | error fault =>
    simp only [number, hread, bind, Except.bind] at h
    cases h
    refine (Numeral.read_final hstart hread).imp_right fun hfinal more => ?_
    simp only [number, hfinal more, bind, Except.bind]
  | ok result =>
    obtain ⟨n, rest⟩ := result
    have hl : n.literal = .error (.malformed cause before) := by
      simp only [number, hread, bind, Except.bind] at h
      split at h
      · cases h
        assumption
      · cases h
    have htext := Numeral.read_append hread
    by_cases hrest : rest = []
    · left
      obtain ⟨hf, he, hvalue⟩ := Numeral.literal_malformed hl
      have hproper := Numeral.read_proper hstart hread
      have hwhole : cs = n.whole := by
        rw [← htext, hrest, Numeral.text, hf, he]
        simp
      have hpoint : '.' ∉ cs := by
        intro hmem
        exact absurd (hproper.whole '.' (hwhole ▸ hmem)) (by decide)
      have hstart : cs.head?.any Char.isDigit := by
        have hfirst := hproper.start
        rw [hf] at hfirst
        simpa [hwhole] using hfirst
      obtain ⟨d, hd, hdigit⟩ := (Option.any_eq_true _ _).1 hstart
      obtain ⟨ds, rfl⟩ := List.head?_eq_some_iff.1 hd
      have hrun : ∀ e ∈ d :: ds, isRunChar e := hwhole ▸ hproper.whole
      refine .integer (.whole hdigit (List.forall_mem_cons.1 hrun).2) hpoint ?_
      rwa [filter_run hrun, hwhole]
    · right
      intro more
      have hother : Replaces (rest ++ more) rest := by
        intro d hd
        rw [List.head?_append_of_ne_nil _ hrest] at hd
        exact .inl hd
      have hlonger := Numeral.read_stays hread hother
      rw [← List.append_assoc, htext] at hlonger
      simp only [number, hlonger, hl, bind, Except.bind]

theorem string_final (h : string cs = .error (.malformed cause before)) (hend : cause.atEnd = false)
    (more : List Char) : string (cs ++ more) = .error (.malformed cause before) := by
  simp only [string] at h
  split at h
  · cases h
    cases hend
  · cases h
    cases hend
  · rename_i mark rest hrest
    cases h
    simp only [string, Item.run_extends (by decide) hrest more]
  · cases h

theorem closeCharacter_final {item : Item}
    (h : closeCharacter item cs = .error (.malformed cause before)) (hend : cause.atEnd = false)
    (more : List Char) : closeCharacter item (cs ++ more) = .error (.malformed cause before) := by
  unfold closeCharacter at h
  split at h
  · cases h
    cases hend
  · cases h
  · rename_i hnil hquote
    cases h
    obtain ⟨d, ds, rfl⟩ := List.exists_cons_of_ne_nil hnil
    rw [List.cons_append, closeCharacter]
    · simp
    · intro rest hrest
      cases hrest
      exact hquote ds rfl

theorem character_final (h : character cs = .error (.malformed cause before))
    (hend : cause.atEnd = false) (more : List Char) :
    character (cs ++ more) = .error (.malformed cause before) := by
  unfold character at h
  split at h
  · cases h
    cases hend
  · cases h
    rfl
  · cases h
    cases hend
  · rename_i mark ds
    split at h
    · rename_i value hvalue
      have hclose := closeCharacter_final h hend more
      simpa only [List.cons_append, character, hvalue] using hclose
    · rename_i hnone
      cases h
      simp only [List.cons_append, character, hnone]
  · rename_i c ds hquote hlast hpair
    have hclose := closeCharacter_final h hend more
    rw [List.cons_append, character_plain (fun hc => hquote hc) (ne_backslash hlast hpair)]
    exact hclose

/-- Any operator of two characters starts with one that is an operator or a symbol by itself. -/
theorem longest?_none_of_single (hop : Operator.longest? [c] = none) (hs : Symbol.ofChar? c = none)
    (cs : List Char) : Operator.longest? (c :: cs) = none := by
  have hstarts : ∀ op : Operator, ∀ d ∈ op.spelling.head?,
      Operator.longest? [d] ≠ none ∨ Symbol.ofChar? d ≠ none := by
    intro op
    cases op <;> simp [Operator.spelling] <;> decide
  rw [Option.eq_none_iff_forall_ne_some]
  intro op hlonger
  obtain ⟨d, ds, hds⟩ := List.exists_cons_of_ne_nil op.spelling_ne_nil
  have hfront := Operator.spelling_prefix_of_longest? hlonger
  rw [hds, List.cons_prefix_cons] at hfront
  obtain ⟨rfl, -⟩ := hfront
  rcases hstarts op d (by rw [hds]; rfl) with hsome | hsome
  · exact hsome hop
  · exact hsome hs

/-- What starts no operator and is no symbol is refused, whatever follows. -/
theorem punctuation_eq_error : punctuation c cs = .error fault ↔
    Operator.longest? [c] = none ∧ Symbol.ofChar? c = none ∧
      fault = .malformed (.unexpected c) [] := by
  constructor
  · intro h
    unfold punctuation at h
    split at h
    · simp only at h
      split at h <;> cases h
    · rename_i hnone
      split at h <;> cases h
      exact ⟨longest?_none_stays hnone (.nil cs), ‹_›, rfl⟩
  · rintro ⟨hop, hs, rfl⟩
    simp only [punctuation, longest?_none_of_single hop hs, hs]

theorem continuation_final (h : continuation cs = .error fault) :
    BreaksOff ('\\' :: cs) ∨ ∀ more, continuation (cs ++ more) = .error fault := by
  unfold continuation at h
  split at h
  · cases h
  rename_i hbreak
  cases h
  cases cs with
  | nil => exact .inl .backslash
  | cons d ds =>
    right
    intro more
    change continuation (d :: (ds ++ more)) = _
    exact if_neg hbreak

theorem digit_or_point_append (h : c.isDigit ∨ c = '.' ∧ cs.head?.any Char.isDigit)
    (more : List Char) : c.isDigit ∨ c = '.' ∧ (cs ++ more).head?.any Char.isDigit := by
  refine h.imp_right fun ⟨hpoint, hnext⟩ => ⟨hpoint, ?_⟩
  obtain ⟨d, hd, hdigit⟩ := (Option.any_eq_true _ _).1 hnext
  obtain ⟨ds, rfl⟩ := List.head?_eq_some_iff.1 hd
  exact hdigit

/-- What is refused, but not for the end of the text, is refused in any longer text, unless it
breaks off. -/
theorem first_final (h : first c cs = .error (.malformed cause before)) (hend : cause.atEnd = false) :
    BreaksOff (c :: cs) ∨ ∀ more, first c (cs ++ more) = .error (.malformed cause before) := by
  unfold first at h
  -- The cases follow the order in which a lexeme is told by its first characters.
  split at h
  · cases h
  rename_i hlayout
  split at h
  · rename_i hback
    subst hback
    exact continuation_final h
  rename_i hback
  split at h
  · unfold comment at h
    split at h <;> cases h
    cases hend
  split at h
  · rename_i hnumber
    have hstart : c.isDigit ∨ c = '.' ∧ cs.head?.any Char.isDigit := by simpa using hnumber
    refine (number_final ⟨c, cs, rfl, hstart⟩ h).imp_right fun hfinal more => ?_
    rw [first_number (digit_or_point_append hstart more)]
    exact hfinal more
  rename_i hnumber
  split at h
  · rename_i hquote
    subst hquote
    exact .inr (character_final h hend)
  rename_i hquote
  split at h
  · rename_i hdouble
    subst hdouble
    exact .inr (string_final h hend)
  rename_i hdouble
  split at h
  · cases h
  · rename_i hword
    right
    intro more
    obtain ⟨hop, hs, -⟩ := punctuation_eq_error.1 h
    -- A slash is an operator and a point a symbol by itself, so neither is refused here.
    have hslash : c ≠ '/' := by
      rintro rfl
      cases hop
    have hpoint : c ≠ '.' := by
      rintro rfl
      cases hs
    have hdigit : c.isDigit = false := by
      simpa [hpoint] using hnumber
    have hlonger : punctuation c (cs ++ more) = .error (.malformed cause before) :=
      punctuation_eq_error.2 (punctuation_eq_error.1 h)
    simpa [first, hlayout, hback, hslash, hpoint, hdigit, hquote, hdouble, hword] using hlonger

end Piece

/-! ### Completions -/

theorem IsMantissa.exists_numeral {mantissa : List Char} (h : IsMantissa mantissa) :
    ∃ n : Numeral, n.Proper ∧ n.exponent = none ∧ n.text = mantissa := by
  have habsent : ∀ {α : Type} {P : α → Prop}, ∀ a ∈ (none : Option α), P a := by
    rintro α P a ⟨⟩
  cases h with
  | @whole d run hd hrun =>
    refine ⟨⟨d :: run, none, none⟩, ⟨?_, habsent, habsent, .inl hd⟩, rfl, by simp [Numeral.text]⟩
    exact List.forall_mem_cons.2 ⟨Numeral.isRunChar_of_isDigit hd, hrun⟩
  | @pointed d run part hd hrun hpart =>
    refine ⟨⟨d :: run, some part, none⟩, ⟨?_, ?_, habsent, .inl hd⟩, rfl, by simp [Numeral.text]⟩
    · exact List.forall_mem_cons.2 ⟨Numeral.isRunChar_of_isDigit hd, hrun⟩
    · rintro _ ⟨⟩
      exact hpart
  | @point d run hd hrun =>
    refine ⟨⟨[], some (d :: run), none⟩,
      ⟨List.forall_mem_nil _, ?_, habsent, .inr ⟨rfl, _, rfl, hd⟩⟩, rfl, by simp [Numeral.text]⟩
    rintro _ ⟨⟩
    exact List.forall_mem_cons.2 ⟨Numeral.isRunChar_of_isDigit hd, hrun⟩

/-- An exponent at the end of a text is completed by a digit. -/
theorem PowerBefore.exists_exponent {power : List Char} (h : PowerBefore [] power)
    (hne : power ≠ []) : ∃ e : Exponent, e.Proper ∧ e.text = power ++ ['0'] := by
  have hdigits : ∀ {run : List Char}, (∀ c ∈ run, isRunChar c) → ∀ c ∈ run ++ ['0'], isRunChar c := by
    intro run hrun c hc
    rcases List.mem_append.1 hc with hc | hc
    · exact hrun c hc
    · exact List.mem_singleton.1 hc ▸ by decide
  cases h with
  | absent => exact absurd rfl hne
  | @unsigned mark run hmark _ hrun =>
    exact ⟨⟨mark, none, run ++ ['0']⟩, ⟨hmark, nofun, hdigits hrun, by simp⟩, rfl⟩
  | @signed mark sign run hmark hsign hrun =>
    refine ⟨⟨mark, some sign, run ++ ['0']⟩, ⟨hmark, ?_, hdigits hrun, by simp⟩, rfl⟩
    rintro _ ⟨⟩
    exact hsign

namespace Piece

/-- A number with a point or an exponent is read at the end of a text. -/
theorem leads_of_numeral {n : Numeral} (hn : n.Proper)
    (hmarked : n.fraction ≠ none ∨ n.exponent ≠ none) : ∃ p : Piece, p.text = n.text ∧ p.Leads [] := by
  obtain ⟨c, cs, htext, hstart⟩ := hn.starts
  have hread : Numeral.read (n.text ++ []) = .ok (n, []) := Numeral.read_text hn nofun
  rw [List.append_nil] at hread
  have hnumber := number_eq_ok.2 ⟨n, _, hread, Numeral.literal_marked hmarked, rfl⟩
  refine ⟨⟨.lexeme (.literal (.float n.nearest)), n.text⟩, rfl, c, cs, ?_, ?_⟩
  · rw [List.append_nil, htext]
  · rw [first_number hstart, ← htext]
    exact hnumber

end Piece

/-- What breaks off is completed by a line break, a digit, or a point. -/
theorem BreaksOff.mended {text : List Char} (h : BreaksOff text) :
    ∃ more, ∃ p : Piece, p.text = text ++ more ∧ p.Leads [] := by
  cases h with
  | backslash =>
    exact ⟨['\n'], ⟨.continuation, ['\\', '\n']⟩, rfl, '\\', ['\n'], rfl, by decide⟩
  | exponent hmantissa hpower hne _ =>
    obtain ⟨n, hn, hnone, rfl⟩ := hmantissa.exists_numeral
    obtain ⟨e, he, htext⟩ := hpower.exists_exponent hne
    have hproper : Numeral.Proper { n with exponent := some e } :=
      ⟨hn.whole, hn.fraction, by rintro _ ⟨⟩; exact he, hn.start⟩
    obtain ⟨p, hp, hleads⟩ := Piece.leads_of_numeral hproper (.inr (Option.some_ne_none e))
    refine ⟨['0'], p, ?_, hleads⟩
    rw [hp, List.append_assoc, ← htext]
    simp [Numeral.text, hnone]
  | integer hmantissa hpoint _ =>
    cases hmantissa with
    | @whole d run hd hrun =>
      have hproper : (⟨d :: run, some [], none⟩ : Numeral).Proper := by
        refine ⟨List.forall_mem_cons.2 ⟨Numeral.isRunChar_of_isDigit hd, hrun⟩, ?_, ?_, .inl hd⟩
        · rintro _ ⟨⟩
          exact List.forall_mem_nil _
        · rintro _ ⟨⟩
      obtain ⟨p, hp, hleads⟩ := Piece.leads_of_numeral hproper (.inl (Option.some_ne_none []))
      exact ⟨['.'], p, by simpa [Numeral.text] using hp, hleads⟩
    | pointed => exact absurd (by simp) hpoint
    | point => exact absurd (by simp) hpoint

/-- A rejection that is not put down to the end of the text is final, that is, any longer text is
rejected in the same way, unless the text breaks off in a lexeme; then some longer text is read. -/
theorem rejection_final {source file : String} {e : ParseError}
    (h : lex source file = .error (.rejected e)) (hend : e.atEnd = false) :
    (¬EndsBrokenOff source.toList → ∀ more, lex (source ++ more) file = .error (.rejected e)) ∧
      (EndsBrokenOff source.toList → ∃ more tokens, lex (source ++ more) file = .ok tokens) := by
  obtain ⟨cause, before, hfault, rfl⟩ := malformed_of_rejected h
  obtain ⟨c, cs, htext, hfirst, hscan⟩ := scan_extends hfault
  constructor
  · intro hwhole more
    have hoff : ¬BreaksOff (c :: cs) := fun hoff => hwhole ⟨c :: cs, htext, hoff⟩
    have hfinal := (Piece.first_final hfirst hend).resolve_left hoff more.toList
    refine lex_eq_error.2 ⟨.malformed cause before, ?_, ?_⟩
    · rw [String.toList_append, hscan, List.cons_append, scan_error hfinal]
    · rw [String.toList_append, hscan, List.cons_append, scan_error hfinal, List.append_nil]
      rfl
  · rintro ⟨rest, hrest, hoff⟩
    obtain ⟨more, p, hp, hleads⟩ := hoff.mended
    obtain ⟨tokens, hlex, -⟩ : ∃ tokens, lex (source ++ String.ofList more) file = .ok tokens ∧
        tokensBefore source file <+: tokens := lex_completed hfault hrest hp hleads
    exact ⟨String.ofList more, tokens, hlex⟩

/-- A name and an empty character literal, whatever follows them. -/
theorem rejection_final_empty :
    ∃ e, lex "x ''" "f" = .error (.rejected e) ∧ e.atEnd = false ∧
      ¬EndsBrokenOff "x ''".toList ∧ ∀ more, lex ("x ''" ++ more) "f" = .error (.rejected e) := by
  have htext : "x ''".toList = ['x', ' ', '\'', '\''] := by decide
  have hscan : (scan "x ''".toList).fault = some (.malformed .emptyCharacter []) ∧
      (scan "x ''".toList).text = ['x', ' '] := by decide +kernel
  have hlex : lex "x ''" "f" = .error _ := lex_eq_error.2 ⟨_, hscan.1, rfl⟩
  have hwhole : ¬EndsBrokenOff "x ''".toList := by
    rintro ⟨rest, hrest, hoff⟩
    rw [hscan.2, htext] at hrest
    obtain rfl : ['\'', '\''] = rest := (List.cons.inj (List.cons.inj hrest).2).2
    obtain ⟨more, p, hp, c, cs, hcs, hfirst⟩ := hoff.mended
    rw [List.append_nil, hp] at hcs
    cases hcs
    cases hfirst
  exact ⟨_, hlex, rfl, hwhole, (rejection_final hlex rfl).1 hwhole⟩

/-- The text is refused without a mark, although it is read once `more` follows it. -/
def MendedUnmarked (source more : String) : Prop :=
  ∃ e tokens, lex source "f" = .error (.rejected e) ∧ e.atEnd = false ∧
    lex (source ++ more) "f" = .ok tokens

theorem MendedUnmarked.of_scan {source more : String}
    (hfault : (scan source.toList).fault = some (.malformed cause before))
    (hend : cause.atEnd = false) (hlonger : (scan (source ++ more).toList).fault = none) :
    MendedUnmarked source more :=
  ⟨_, _, lex_eq_error.2 ⟨_, hfault, rfl⟩, hend, lex_eq_ok.2 ⟨hlonger, rfl⟩⟩

/-- An exponent without digits, a backslash and an integer out of range are refused at the end of the
text without a mark, and each is mended by one character more. -/
theorem unmarked_rejections_mended :
    MendedUnmarked "1e" "5" ∧ MendedUnmarked "\\" "\n" ∧
      MendedUnmarked "9223372036854775808" "." := by
  refine ⟨?exponent, ?backslash, ?range⟩
  case exponent =>
    have hfault : (scan "1e".toList).fault =
        some (.malformed .missingExponent ['1', 'e']) := by decide +kernel
    exact .of_scan hfault rfl (by decide +kernel)
  case backslash =>
    have hfault : (scan "\\".toList).fault = some (.malformed .strayBackslash []) := by
      decide +kernel
    exact .of_scan hfault rfl (by decide +kernel)
  case range =>
    have hfault : (scan "9223372036854775808".toList).fault =
        some (.malformed (.outOfRange "9223372036854775808".toList) []) := by decide +kernel
    exact .of_scan hfault rfl (by decide +kernel)

end Pasture.Lexing
