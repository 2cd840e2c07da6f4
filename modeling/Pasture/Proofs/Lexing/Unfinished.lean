import Pasture.Proofs.Lexing.NumberParts
import Pasture.Proofs.Lexing.Parts
import Pasture.Proofs.Lexing.Quoted

/-! # Texts that stop in the middle of a lexeme

A text that goes on is read as before up to the last piece, and what stopped at the end of the text
is completed by what is put behind it.
-/
namespace Pasture.Lexing

variable {c : Char} {cs text value rest after : List Char} {p : Piece} {cause : LexicalCause}
  {before : List Char} {fault : Fault}

theorem Spells.append {close : Char} {more wanted : List Char} (h : Spells close text value)
    (k : Spells close more wanted) : Spells close (text ++ more) (value ++ wanted) := by
  induction h with
  | nil => exact k
  | plain hclose hback _ ih => exact .plain hclose hback ih
  | escaped hmark _ ih => exact .escaped hmark ih

theorem closeComment_eq_none (h : closeComment text = none) : ¬['*', '/'] <:+: text := by
  fun_induction closeComment text with
  | case1 => simp
  | case2 => cases h
  | case3 c cs hopen ih =>
    rw [List.infix_cons_iff]
    rintro (⟨more, hmore⟩ | hlater)
    · cases hmore
      exact hopen more rfl rfl
    · exact ih (Option.map_eq_none_iff.1 h) hlater

namespace Piece

theorem number_not_atEnd (hstart : StartsNumber cs)
    (h : number cs = .error (.malformed cause before)) : cause.atEnd = false := by
  obtain ⟨n, rest, hn⟩ := Numeral.exists_splits cs
  have hnumber := numberAs_of_splits hstart hn
  rw [h] at hnumber
  cases hnumber with
  | refused hrefused => exact hrefused.not_atEnd

theorem comment_mended (h : comment cs = .error fault) :
    ∃ more p, comment (cs ++ more) = .ok (p, []) := by
  unfold comment at h
  split at h
  · cases h
  · rename_i hopen
    have hclose := closeComment_complete (closeComment_eq_none hopen) []
    exact ⟨['*', '/'], _, by simp only [comment, hclose]; rfl⟩

/-- A string is completed by its quote, and behind a backslash by a letter and the quote. -/
theorem string_mended (h : string cs = .error (.malformed cause before)) (hend : cause.atEnd) :
    ∃ more p, string (cs ++ more) = .ok (p, []) := by
  have hnone : ∀ text value rest, Spells '"' text value → cs ≠ text ++ '"' :: rest := by
    intro text value rest hspells hcs
    have hok := string_eq_ok_iff_spells.2 ⟨text, value, hspells, hcs, rfl⟩
    rw [h] at hok
    cases hok
  obtain ⟨cause', before', text, value, hfail, hspells, hreason⟩ := string_fails hnone
  rw [h] at hfail
  cases hfail
  rcases hreason with ⟨mark, more, -, -, rfl, -⟩ | ⟨rfl | rfl, -⟩
  · cases hend
  · exact ⟨['"'], _, string_eq_ok_iff_spells.2 ⟨cs, value, hspells, rfl, rfl⟩⟩
  · have hmore : Spells '"' (text ++ ['\\', 'n']) (value ++ ['\n']) :=
      hspells.append (.escaped (by decide) .nil)
    exact ⟨['n', '"'], _, string_eq_ok_iff_spells.2 ⟨_, _, hmore, by simp, rfl⟩⟩

theorem closeCharacter_atEnd {item : Item}
    (h : closeCharacter item cs = .error (.malformed cause before)) (hend : cause.atEnd) :
    cs = [] := by
  unfold closeCharacter at h
  split at h
  · rfl
  · cases h
  · cases h
    cases hend

/-- A character literal is completed by what it lacks of an item, and its quote. -/
theorem character_mended (h : character cs = .error (.malformed cause before))
    (hend : cause.atEnd) : ∃ more p, character (cs ++ more) = .ok (p, []) := by
  have hmend : ∀ (item : Item) more, item.Encodes '\'' → cs ++ more = item.text ++ ['\''] →
      ∃ more p, character (cs ++ more) = .ok (p, []) := by
    intro item more hitem hmore
    exact ⟨more, _, character_eq_ok_iff.2 ⟨item, hitem, hmore, rfl⟩⟩
  unfold character at h
  split at h
  · exact hmend (.plain 'x') ['x', '\''] ⟨by decide, by decide⟩ rfl
  · cases h
    cases hend
  · exact hmend (.escaped 'n' '\n') ['n', '\''] rfl rfl
  · split at h
    · rename_i mark ds _ value hvalue
      obtain rfl := closeCharacter_atEnd h hend
      exact hmend (.escaped mark value) ['\''] hvalue rfl
    · cases h
      cases hend
  · rename_i c ds hquote hlast hpair
    obtain rfl := closeCharacter_atEnd h hend
    exact hmend (.plain c) ['\''] ⟨fun hc => hquote hc, ne_backslash hlast hpair⟩ rfl

theorem punctuation_not_atEnd (h : punctuation c cs = .error (.malformed cause before)) :
    cause.atEnd = false := by
  unfold punctuation at h
  split at h
  · simp only at h
    split at h <;> cases h
  · split at h <;> cases h
    rfl

/-- What stops at the end of the text is completed by the text that is missing. -/
theorem first_mended (h : first c cs = .error (.malformed cause before)) (hend : cause.atEnd) :
    ∃ more p, first c (cs ++ more) = .ok (p, []) := by
  unfold first at h
  split at h
  · cases h
  split at h
  · unfold continuation at h
    split at h <;> cases h
    cases hend
  split at h
  · rename_i hcomment
    simp only [Bool.and_eq_true, decide_eq_true_eq] at hcomment
    obtain ⟨rfl, hstar⟩ := hcomment
    obtain ⟨ds, rfl⟩ := List.head?_eq_some_iff.1 hstar
    exact comment_mended h
  split at h
  · rename_i hnumber
    rw [number_not_atEnd ⟨c, cs, rfl, by simpa using hnumber⟩ h] at hend
    cases hend
  split at h
  · rename_i hquote
    subst hquote
    exact character_mended h hend
  split at h
  · rename_i hquote
    subst hquote
    exact string_mended h hend
  split at h
  · cases h
  · rw [punctuation_not_atEnd h] at hend
    cases hend

end Piece

/-- A text with a fault is cut as before where it goes on, up to the fault. By induction on the
pieces: behind each of them stands at least the text with the fault, so that it keeps its end. -/
theorem scan_extends (h : (scan text).fault = some fault) :
    ∃ c cs, text = (scan text).text ++ c :: cs ∧ Piece.first c cs = .error fault ∧
      ∀ more, scan (text ++ more) = ⟨(scan text).pieces ++ (scan (c :: cs ++ more)).pieces,
        (scan (c :: cs ++ more)).fault⟩ := by
  fun_induction scan text with
  | case1 => cases h
  | case2 d ds p rest hfirst _ _ ih =>
    obtain ⟨c, cs, hrest, hfault, hmore⟩ := ih h
    obtain ⟨-, htiles⟩ := Piece.first_tiles d ds p rest hfirst
    refine ⟨c, cs, ?_, hfault, ?_⟩
    · rw [← htiles, Scan.text, List.flatMap_cons, List.append_assoc]
      exact congrArg (p.text ++ ·) hrest
    · intro more
      have hne : rest ≠ [] := by
        rw [hrest]
        simp
      obtain ⟨e, es, htext, hlonger⟩ := (Piece.leads_of_first hfirst).extends hne more
      rw [← htiles, List.append_assoc, htext, scan_cons hlonger, hmore more]
      rfl
  | case3 c cs fault' hfirst =>
    cases h
    exact ⟨c, cs, rfl, hfirst, fun more => rfl⟩

theorem tokensOf_append (file : String) (place : Position) (fresh : Bool) (ps qs : List Piece) :
    ∃ fresh', tokensOf file place fresh (ps ++ qs) = tokensOf file place fresh ps ++
      tokensOf file (place.advance (ps.flatMap Piece.text)) fresh' qs := by
  induction ps generalizing place fresh with
  | nil => exact ⟨fresh, rfl⟩
  | cons p ps ih =>
    simp only [List.cons_append, tokensOf, List.flatMap_cons, Position.advance_append]
    cases p.form with
    | lexeme l =>
      obtain ⟨fresh', htokens⟩ := ih (place.advance p.text) false
      exact ⟨fresh', congrArg (_ :: ·) htokens⟩
    | continuation | comment => exact ih (place.advance p.text) fresh
    | layout =>
      simp only
      split
      · obtain ⟨fresh', htokens⟩ := ih (place.advance p.text) true
        exact ⟨fresh', congrArg (_ :: ·) htokens⟩
      · exact ih (place.advance p.text) fresh

theorem tokensBefore_extends {source file more : String}
    (h : (scan source.toList).fault = some fault) :
    tokensBefore source file <+: tokensBefore (source ++ more) file := by
  obtain ⟨c, cs, -, -, hmore⟩ := scan_extends h
  obtain ⟨fresh, htokens⟩ := tokensOf_append file .start false (scan source.toList).pieces
    (scan (c :: cs ++ more.toList)).pieces
  rw [tokensBefore, tokensBefore, String.toList_append, hmore, htokens]
  exact List.prefix_append _ _

/-- A text is read whose fault is mended by one piece up to its end, and what is read of it starts
with what was read in front of the fault. -/
theorem lex_completed {source file : String} {more : List Char}
    (h : (scan source.toList).fault = some fault)
    (hrest : source.toList = (scan source.toList).text ++ rest) (hp : p.text = rest ++ more)
    (hleads : p.Leads []) :
    ∃ tokens, lex (source ++ String.ofList more) file = .ok tokens ∧
      tokensBefore source file <+: tokens := by
  obtain ⟨c, cs, htext, -, hscan⟩ := scan_extends h
  obtain rfl : rest = c :: cs := List.append_cancel_left (hrest.symm.trans htext)
  obtain ⟨d, ds, hd, hfirst⟩ := hleads
  rw [List.append_nil, hp] at hd
  have hwhole : (scan (source.toList ++ more)).fault = none := by
    rw [hscan, hd, scan_cons hfirst, scan]
  have hlex : lex (source ++ String.ofList more) file = .ok _ :=
    lex_eq_ok.2 ⟨by rw [String.toList_append, String.toList_ofList, hwhole], rfl⟩
  exact ⟨_, hlex, (tokensBefore_extends h).trans (List.prefix_append _ _)⟩

/-- A text that is rejected at its end can be completed, and the tokens that stood in front of the
fault are the first tokens of the longer text. -/
theorem unfinished_mended {source file : String} {e : ParseError}
    (h : lex source file = .error (.rejected e)) (hend : e.atEnd) :
    ∃ more tokens, lex (source ++ more) file = .ok tokens ∧
      tokensBefore source file <+: tokens := by
  simp only [lex] at h
  split at h
  · cases h
  · rename_i fault hfault
    cases fault with
    | digitLimit digits => cases h
    | malformed cause before =>
      cases h
      obtain ⟨c, cs, htext, hfirst, -⟩ := scan_extends hfault
      obtain ⟨more, p, hmended⟩ := Piece.first_mended hfirst hend
      have hwhole : p.text = c :: cs ++ more := by
        simpa using (Piece.first_tiles c (cs ++ more) p [] hmended).2
      exact ⟨String.ofList more,
        lex_completed hfault htext hwhole (Piece.leads_of_first hmended)⟩

/-- A name, a line break, and a string that stops behind a backslash. -/
theorem unfinished_mended_escape :
    ∃ e, lex "a\n\"x\\" "f" = .error (.rejected e) ∧ e.atEnd ∧
      (tokensBefore "a\n\"x\\" "f").map Token.lexeme =
        [.identifier (.simple "a"), .newline] ∧
      ∃ more tokens, lex ("a\n\"x\\" ++ more) "f" = .ok tokens ∧
        tokensBefore "a\n\"x\\" "f" <+: tokens := by
  have hfault : (scan "a\n\"x\\".toList).fault =
      some (.malformed .missingEscape ['"', 'x', '\\']) := by decide +kernel
  have hlex : lex "a\n\"x\\" "f" =
      .error (.rejected (.lexical "f" .missingEscape ⟨2, 4⟩)) := by
    have hplace : (Position.start.advance (scan "a\n\"x\\".toList).text).advance
        ['"', 'x', '\\'] = ⟨2, 4⟩ := by decide +kernel
    simp only [lex, hfault, Fault.failure, hplace]
  exact ⟨_, hlex, rfl, by decide +kernel, unfinished_mended hlex rfl⟩

end Pasture.Lexing
