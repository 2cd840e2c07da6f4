import Pasture.Proofs.Grammar.Places
import Pasture.Proofs.Lexing.Lexemes

/-! # How a text fails

A text that yields no module is rejected, by its lexemes or by its grammar, unless its reading comes
to an integer of more digits than are converted at all.
-/
namespace Pasture.Lexing

variable {α : Type} {c : Char} {cs text : List Char} {n : Nat}

structure Overlong (n : Nat) (text : List Char) : Prop where
  digit : text.head?.any Char.isDigit
  integer : ∃ m rest, Numeral.read text = .ok (m, rest) ∧ m.fraction = none ∧ m.exponent = none ∧
    (digitsOf m.whole).length = n
  exceeds : maxDigits < n

/-- The text is read without a fault up to an overlong integer. -/
def MeetsOverlong (n : Nat) (text : List Char) : Prop :=
  ∃ rest, text = (scan text).text ++ rest ∧ Overlong n rest

def Unlimited (result : Except Fault α) : Prop := ∀ n, result ≠ .error (.digitLimit n)

namespace Numeral

theorem withExponent_unlimited (m : Numeral) (cs : List Char) : Unlimited (withExponent m cs) := by
  intro n h
  unfold withExponent at h
  split at h
  · cases h
  · simp only at h
    split at h
    · split at h <;> cases h
    · cases h

theorem read_unlimited (cs : List Char) : Unlimited (read cs) := by
  intro n h
  unfold read at h
  split at h
  · split at h
    · cases h
    · exact withExponent_unlimited _ _ n h
  · exact withExponent_unlimited _ _ n h

theorem literal_digitLimit {m : Numeral} :
    m.literal = .error (.digitLimit n) ↔ m.fraction = none ∧ m.exponent = none ∧
      (digitsOf m.whole).length = n ∧ maxDigits < n := by
  by_cases hplain : m.fraction = none ∧ m.exponent = none
  · obtain ⟨hf, he⟩ := hplain
    simp only [literal, hf, he, true_and]
    by_cases hlimit : maxDigits < (digitsOf m.whole).length
    · rw [if_pos hlimit]
      constructor
      · rintro ⟨⟩
        exact ⟨rfl, hlimit⟩
      · rintro ⟨rfl, -⟩
        rfl
    · rw [if_neg hlimit]
      constructor
      · intro h
        split at h <;> cases h
      · rintro ⟨rfl, hn⟩
        exact absurd hn hlimit
  · rw [literal_marked (not_and_or.1 hplain)]
    constructor
    · intro h
      cases h
    · rintro ⟨hf, he, -⟩
      exact absurd ⟨hf, he⟩ hplain

end Numeral

namespace Piece

theorem number_digitLimit :
    number cs = .error (.digitLimit n) ↔ ∃ m rest, Numeral.read cs = .ok (m, rest) ∧
      m.literal = .error (.digitLimit n) := by
  unfold number
  cases hread : Numeral.read cs with
  | error fault =>
    simp only [bind, Except.bind]
    constructor
    · rintro ⟨⟩
      exact absurd hread (Numeral.read_unlimited cs n)
    · rintro ⟨_, _, ⟨⟩, _⟩
  | ok r =>
    obtain ⟨m, rest⟩ := r
    cases hl : m.literal with
    | error fault => simp [bind, Except.bind, hl]
    | ok l => simp [bind, Except.bind, pure, Except.pure, hl]

theorem character_unlimited (cs : List Char) : Unlimited (character cs) := by
  have hclose : ∀ item ds, Unlimited (closeCharacter item ds) := by
    intro item ds n h
    unfold closeCharacter at h
    split at h <;> cases h
  intro n h
  unfold character at h
  split at h
  · cases h
  · cases h
  · cases h
  · split at h
    · exact hclose _ _ n h
    · cases h
  · exact hclose _ _ n h

theorem string_unlimited (cs : List Char) : Unlimited (string cs) := by
  intro n h
  simp only [string] at h
  split at h <;> cases h

theorem punctuation_unlimited (c : Char) (cs : List Char) : Unlimited (punctuation c cs) := by
  intro n h
  unfold punctuation at h
  split at h
  · simp only at h
    split at h <;> cases h
  · split at h <;> cases h

/-- A number that starts with a point has a fraction, so only digits in front are ever too many. -/
theorem first_digitLimit : first c cs = .error (.digitLimit n) ↔ Overlong n (c :: cs) := by
  constructor
  · intro h
    unfold first at h
    split at h
    · cases h
    split at h
    · unfold continuation at h
      split at h <;> cases h
    split at h
    · unfold comment at h
      split at h <;> cases h
    split at h
    · rename_i hstart
      obtain ⟨m, rest, hread, hl⟩ := number_digitLimit.1 h
      obtain ⟨hf, he, hlength, hn⟩ := Numeral.literal_digitLimit.1 hl
      refine ⟨?_, ⟨m, rest, hread, hf, he, hlength⟩, hn⟩
      have hproper := Numeral.read_proper ⟨c, cs, rfl, by simpa using hstart⟩ hread
      obtain ⟨d, hd, hdigit⟩ : ∃ d ∈ m.text.head?, d.isDigit := by
        rcases hproper.start with hd | ⟨-, run, hrun, -⟩
        · obtain ⟨d, hd, hdigit⟩ := (Option.any_eq_true _ _).1 hd
          obtain ⟨ds, hds⟩ := List.head?_eq_some_iff.1 hd
          exact ⟨d, by simp [Numeral.text, hds], hdigit⟩
        · rw [hf] at hrun
          cases hrun
      obtain ⟨ds, hds⟩ := List.head?_eq_some_iff.1 hd
      rw [← Numeral.read_append hread, hds]
      exact hdigit
    split at h
    · exact absurd h (character_unlimited cs n)
    split at h
    · exact absurd h (string_unlimited cs n)
    split at h
    · cases h
    · exact absurd h (punctuation_unlimited c cs n)
  · rintro ⟨hdigit, ⟨m, rest, hread, hf, he, hlength⟩, hn⟩
    rw [first_number (.inl (by simpa using hdigit))]
    exact number_digitLimit.2 ⟨m, rest, hread, Numeral.literal_digitLimit.2 ⟨hf, he, hlength, hn⟩⟩

end Piece

theorem scan_digitLimit : (scan text).fault = some (.digitLimit n) ↔ MeetsOverlong n text := by
  fun_induction scan text with
  | case1 =>
    constructor
    · intro h
      cases h
    · rintro ⟨rest, htext, hlong⟩
      obtain ⟨-, rfl⟩ := List.nil_eq_append_iff.1 htext
      cases hlong.digit
  | case2 c cs p rest hfirst _ more ih =>
    obtain ⟨-, htiles⟩ := Piece.first_tiles c cs p rest hfirst
    have hfront : ∀ left, rest = (scan rest).text ++ left ↔
        c :: cs = (scan (c :: cs)).text ++ left := by
      intro left
      rw [scan_cons hfirst, ← htiles, Scan.text, Scan.text, List.flatMap_cons, List.append_assoc,
        List.append_cancel_left_eq]
    rw [ih, MeetsOverlong, MeetsOverlong]
    simp only [hfront]
  | case3 c cs fault hfirst =>
    rw [MeetsOverlong, scan_error hfirst]
    constructor
    · rintro ⟨⟩
      exact ⟨c :: cs, rfl, Piece.first_digitLimit.1 hfirst⟩
    · rintro ⟨rest, htext, hlong⟩
      obtain rfl : c :: cs = rest := htext
      have hlimit := Piece.first_digitLimit.2 hlong
      rw [hfirst] at hlimit
      cases hlimit
      rfl

/-- The limit of digits is met exactly by the texts that come to an overlong integer. -/
theorem lex_digitLimit {source file : String} :
    lex source file = .error (.digitLimit n) ↔ MeetsOverlong n source.toList := by
  rw [← scan_digitLimit]
  simp only [lex]
  cases (scan source.toList).fault with
  | none => simp
  | some fault => cases fault <;> simp [Fault.failure]

end Pasture.Lexing

namespace Pasture

open Grammar Lexing

variable {source file name : String} {tokens : List Token} {e : ParseError}

def Settles {α : Type} (phase : Phase) : Except Failure α → Prop
  | .ok _ => True
  | .error (.rejected e) => e.phase = phase
  | .error (.digitLimit _) => False

theorem Settles.mapError {α : Type} {phase : Phase} {result : Except ParseError α}
    (h : ∀ e, result = .error e → e.phase = phase) :
    Settles phase (result.mapError .rejected) := by
  cases result with
  | ok a => trivial
  | error e => exact h e rfl

theorem lex_settles (h : ∀ n, ¬MeetsOverlong n source.toList) (file : String) :
    Settles .lexical (lex source file) := by
  cases hlex : lex source file with
  | ok tokens => trivial
  | error failure =>
    cases failure with
    | digitLimit n => exact h n (lex_digitLimit.1 hlex)
    | rejected e =>
      obtain ⟨cause, before, -, rfl⟩ := malformed_of_rejected hlex
      rfl

namespace Normal

theorem segmentError_phase (dot : Token) (found : Option Token) :
    (segmentError dot found).phase = .syntactic := by
  unfold segmentError
  simp only
  split <;> rfl

/-- The segments of a name behind a dot are added to one at least, so that the whole is compound. -/
theorem Chain.compound?_extend (chain : Chain) (i : Identifier) (span : Option Span) :
    Identifier.compound? (chain.extend i span).name.segments = .ok (chain.extend i span).name := by
  obtain ⟨⟨head, tail⟩, first, last⟩ := chain
  cases tail <;> rfl

theorem fuse_phase {o : Open} {ts : List Token} (h : fuse o ts = .error e) :
    e.phase = .syntactic := by
  have hmap : ∀ {result : Except ParseError (List Token)} {f : List Token → List Token},
      f <$> result = .error e → result = .error e := by
    intro result f hresult
    cases result with
    | ok out => cases hresult
    | error e' => exact hresult
  fun_induction fuse o ts with
  | case1 | case2 => cases h
  | case3 _ dot =>
    cases h
    exact segmentError_phase dot none
  | case4 _ _ _ _ ih => exact ih h
  | case5 _ _ _ ih => exact ih (hmap h)
  | case6 _ _ _ _ ih => exact ih h
  | case7 _ _ _ _ _ ih => exact ih (hmap h)
  | case8 _ _ _ _ _ ih => exact ih (hmap h)
  | case9 _ _ _ _ _ _ ih => exact ih h
  | case10 _ dot t _ _ =>
    cases h
    exact segmentError_phase dot (some t)

end Normal

theorem tokenise_of_lex_error {failure : Failure} (h : lex source file = .error failure) :
    tokenise source file = .error failure := by
  rw [tokenise, h]
  rfl

theorem parseSource_of_tokenise {failure : Failure} (h : tokenise source file = .error failure)
    (name : String) : parseSource source file name = .error failure := by
  rw [parseSource, h]
  rfl

theorem parseSource_of_parseTokens (h : tokenise source file = .ok tokens)
    (he : parseTokens tokens name = .error e) :
    parseSource source file name = .error (.rejected e) := by
  rw [parseSource, h]
  simp only [bind, Except.bind, he]
  rfl

theorem tokenise_of_lex (h : lex source file = .ok tokens) :
    tokenise source file = (normalise tokens).mapError .rejected := by
  rw [tokenise, h]
  rfl

theorem tokenise_settles (h : lex source file = .ok tokens) :
    Settles .syntactic (tokenise source file) := by
  rw [tokenise_of_lex h]
  exact .mapError fun e he => Normal.fuse_phase he

theorem parseSource_settles (h : lex source file = .ok tokens) (name : String) :
    Settles .syntactic (parseSource source file name) := by
  have hnormal := normalise_settled (Span.pointsInto_joins _ _) (lex_located h) (lex_endOfInput h)
  have htokenise := tokenise_settles h
  rw [tokenise_of_lex h] at htokenise
  rw [parseSource, tokenise_of_lex h]
  cases hn : normalise tokens with
  | error e =>
    rw [hn] at htokenise
    exact htokenise
  | ok out =>
    rw [hn] at hnormal
    have hparse : Settles .syntactic ((parseTokens out name).mapError .rejected) :=
      .mapError fun e he => (parseTokens_blamed hnormal he).phase
    exact hparse

/-- Neither the normal form nor the grammar knows the limit of digits. -/
theorem parseSource_digitLimit {n : Nat} :
    parseSource source file name = .error (.digitLimit n) ↔ MeetsOverlong n source.toList := by
  rw [← @lex_digitLimit n source file]
  constructor
  · intro h
    cases hlex : lex source file with
    | error failure =>
      rw [parseSource_of_tokenise (tokenise_of_lex_error hlex)] at h
      rw [Except.error.inj h]
    | ok tokens =>
      have hsettles := parseSource_settles hlex name
      rw [h] at hsettles
      exact hsettles.elim
  · intro h
    exact parseSource_of_tokenise (tokenise_of_lex_error h) name

/-- A text that is no longer than the limit keeps it. -/
theorem Lexing.MeetsOverlong.length_lt {n : Nat} {text : List Char} (h : MeetsOverlong n text) :
    maxDigits < text.length := by
  obtain ⟨rest, htext, -, ⟨m, left, hread, -, -, hdigits⟩, hn⟩ := h
  have hfew : n ≤ m.text.length := by
    rw [← hdigits, Numeral.text, List.append_assoc, List.length_append]
    exact Nat.le_trans (List.length_filter_le ..) (Nat.le_add_right ..)
  have hrest := congrArg List.length (Numeral.read_append hread)
  have hlength := congrArg List.length htext
  rw [List.length_append] at hrest hlength
  omega

/-- Unless its reading comes to an overlong integer, a text gives a result or is rejected: its
lexemes first, and then, if these are sound, the tokens and the module. Whatever is handed to the
readers of numbers is a number, and whatever is joined by dots is a compound name. -/
theorem front_end_settles (h : ∀ n, ¬MeetsOverlong n source.toList) (file name : String) :
    Settles .lexical (lex source file) ∧
      (∀ failure, lex source file = .error failure →
        tokenise source file = .error failure ∧ parseSource source file name = .error failure) ∧
      (∀ tokens, lex source file = .ok tokens →
        Settles .syntactic (tokenise source file) ∧
          Settles .syntactic (parseSource source file name)) ∧
      (∀ cs m rest, cs <:+ source.toList → StartsNumber cs → Numeral.read cs = .ok (m, rest) →
        ∃ l, m.converted? = some l ∧ ∀ k, m.literal = .ok k → k = l) ∧
      ∀ (chain : Normal.Chain) i span,
        Identifier.compound? (chain.extend i span).name.segments =
          .ok (chain.extend i span).name := by
  refine ⟨lex_settles h file, ?_, ?_, ?_, Normal.Chain.compound?_extend⟩
  · intro failure hlex
    have htokenise := tokenise_of_lex_error hlex
    exact ⟨htokenise, parseSource_of_tokenise htokenise name⟩
  · intro tokens hlex
    exact ⟨tokenise_settles hlex, parseSource_settles hlex name⟩
  · intro cs m rest _ hstart hread
    exact (Numeral.read_proper hstart hread).converted

/-- The least integer that is out of range can be converted, but is rejected by every reader. -/
theorem front_end_settles_limit :
    let source := "9223372036854775808"
    (∃ e, lex source "f" = .error (.rejected e) ∧ e.phase = .lexical ∧
        tokenise source "f" = .error (.rejected e) ∧
        parseSource source "f" "m" = .error (.rejected e)) ∧
      ∃ m, Numeral.read source.toList = .ok (m, []) ∧ ∃ l, m.converted? = some l := by
  intro source
  have hshort : ∀ n, ¬MeetsOverlong n source.toList := by
    intro n hlong
    have hlimit : 4300 < source.toList.length := hlong.length_lt
    have hlength : source.toList.length = 19 := by decide +kernel
    omega
  obtain ⟨hsettles, hrejected, -, hnumber, -⟩ := front_end_settles hshort "f" "m"
  have hfault : (scan source.toList).fault =
      some (.malformed (.outOfRange source.toList) []) := by decide +kernel
  obtain ⟨e, hlex⟩ : ∃ e, lex source "f" = .error (.rejected e) :=
    ⟨_, lex_eq_error.2 ⟨_, hfault, rfl⟩⟩
  have hread : Numeral.read source.toList = .ok (⟨source.toList, none, none⟩, []) := by
    decide +kernel
  rw [hlex] at hsettles
  obtain ⟨htokenise, hparse⟩ := hrejected _ hlex
  obtain ⟨l, hl, -⟩ := hnumber source.toList _ [] (List.suffix_refl _)
    ⟨'9', "223372036854775808".toList, by decide +kernel, .inl (by decide)⟩ hread
  exact ⟨⟨_, hlex, hsettles, htokenise, hparse⟩, _, hread, l, hl⟩

/-- A text of digits alone is rejected by nothing but the limit if there are too many of them. -/
theorem lex_digits {digits : List Char} (hdigits : ∀ c ∈ digits, c.isDigit)
    (hlength : maxDigits < digits.length) (file : String) :
    lex (String.ofList digits) file = .error (.digitLimit digits.length) := by
  have hwhole : digitsOf digits = digits := List.filter_eq_self.2 hdigits
  obtain ⟨c, cs, rfl⟩ := List.exists_cons_of_length_pos (Nat.lt_of_le_of_lt (Nat.zero_le _) hlength)
  have hfirst := hdigits c List.mem_cons_self
  have hproper : (⟨c :: cs, none, none⟩ : Numeral).Proper :=
    ⟨fun d hd => Numeral.isRunChar_of_isDigit (hdigits d hd), nofun, nofun, .inl hfirst⟩
  have hread := @Numeral.read_text [] _ hproper nofun
  rw [List.append_nil] at hread
  have hlong : Overlong (c :: cs).length (c :: cs) := by
    refine ⟨hfirst, ⟨⟨c :: cs, none, none⟩, [], ?_, rfl, rfl, by rw [hwhole]⟩, hlength⟩
    simpa [Numeral.text] using hread
  have hscan := scan_error (Piece.first_digitLimit.2 hlong)
  refine lex_digitLimit.2 ⟨c :: cs, ?_, hlong⟩
  rw [String.toList_ofList, hscan]
  rfl

theorem lex_digits_fails :
    lex (String.ofList (List.replicate 4301 '1')) "f" = .error (.digitLimit 4301) ∧
      ¬Settles .lexical (lex (String.ofList (List.replicate 4301 '1')) "f") := by
  have hlex := @lex_digits (List.replicate 4301 '1')
    (fun c hc => List.eq_of_mem_replicate hc ▸ rfl)
    (by rw [List.length_replicate]; decide) "f"
  rw [List.length_replicate] at hlex
  refine ⟨hlex, ?_⟩
  rw [hlex]
  exact id

end Pasture
