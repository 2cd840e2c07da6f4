import Mathlib.Data.List.Chain
import Mathlib.Data.List.Forall2
import Pasture.Proofs.Lexing.Lexemes
import Pasture.Proofs.Lexing.Reading

/-! # Written tokens are read back

The text of a sequence of lexemes, each in any of its writings and with one space between each two,
is read as that sequence.
-/
namespace Pasture.Lexing

variable {l : Lexeme} {text : List Char}

namespace Piece

/-- The characters that the dispatch asks for before it comes to a letter. -/
theorem first_word {c : Char} (hc : isWordStart c) (cs : List Char) :
    first c cs = word (c :: cs) := by
  have hne : ∀ d, isWordStart d = false → c ≠ d := by
    rintro d hd rfl
    rw [hc] at hd
    cases hd
  have hdigit : c.isDigit = false := by
    by_contra h
    have hnot : (!isWordStart c) = true :=
      Text.of_isDigit (p := fun d => !isWordStart d) (by decide) (by simpa using h)
    rw [hc] at hnot
    cases hnot
  simp [first, isSpace, isBreak, hdigit, hc, hne ' ' (by decide), hne '\t' (by decide),
    hne '\n' (by decide), hne '\r' (by decide), hne '#' (by decide), hne '\\' (by decide),
    hne '/' (by decide), hne '.' (by decide), hne '\'' (by decide), hne '"' (by decide)]

/-! Each lexeme is taken by its writing alone, and so in front of a space, too. -/

theorem takes_word (hname : IsName text) : Takes (lexemeOfWord text) text [] := by
  obtain ⟨hfirst, hall⟩ := isName_iff.1 hname
  obtain ⟨c, hc, hstart⟩ := (Option.any_eq_true _ _).1 hfirst
  obtain ⟨cs, rfl⟩ := List.head?_eq_some_iff.1 hc
  rw [List.all_eq_true] at hall
  refine ⟨c, cs, rfl, ?_⟩
  rw [List.append_nil, first_word hstart, word]
  simp only [List.takeWhile_eq_self_iff.2 hall, List.dropWhile_eq_nil_iff.2 hall]

theorem takes_number {n : Numeral} {v : Literal} (hn : n.Proper) (hv : n.literal = .ok v) :
    Takes (.literal v) n.text [] := by
  obtain ⟨c, cs, htext, hstart⟩ := hn.starts
  refine ⟨c, cs, htext, ?_⟩
  have hread : Numeral.read (n.text ++ []) = .ok (n, []) := Numeral.read_text hn nofun
  rw [htext, List.cons_append] at hread
  rw [first_number ?_]
  · exact number_eq_ok.2 ⟨n, v, hread, hv, by rw [htext]⟩
  · rcases hstart with hdigit | ⟨hpoint, hdigit⟩
    · exact .inl hdigit
    · exact .inr ⟨hpoint, by rwa [List.append_nil]⟩

theorem takes_string {items : List Item} (hitems : ∀ i ∈ items, i.Encodes '"') :
    Takes (.literal (.string (some (String.ofList (items.map Item.value)))))
      ('"' :: items.flatMap Item.text ++ ['"']) [] := by
  refine ⟨'"', items.flatMap Item.text ++ ['"'], rfl, ?_⟩
  rw [List.append_nil]
  exact string_eq_ok_iff.2 ⟨items, hitems, rfl, rfl⟩

theorem takes_character {item : Item} (hitem : item.Encodes '\'') :
    Takes (.literal (.char (some item.value.toString))) ('\'' :: item.text ++ ['\'']) [] := by
  refine ⟨'\'', item.text ++ ['\''], rfl, ?_⟩
  rw [List.append_nil]
  exact character_eq_ok_iff.2 ⟨item, hitem, rfl, rfl⟩

theorem takes_symbol (s : Symbol) : Takes (.symbol s) [s.char] [] := by
  refine ⟨s.char, [], rfl, ?_⟩
  cases s <;> decide

theorem takes_operator (op : Operator) : Takes (.operator op) op.spelling [] := by
  obtain ⟨c, cs, hspelling⟩ := List.exists_cons_of_ne_nil op.spelling_ne_nil
  refine ⟨c, cs, hspelling, ?_⟩
  cases op <;> cases hspelling <;> rfl

theorem takes_fused {op : Operator} (hop : op.isAssignable) :
    Takes (.fused op) (op.spelling ++ ['=']) [] := by
  obtain ⟨c, cs, hspelling⟩ := List.exists_cons_of_ne_nil op.spelling_ne_nil
  refine ⟨c, cs ++ ['='], by rw [hspelling]; rfl, ?_⟩
  cases op <;> cases hspelling <;> first | rfl | cases hop

theorem takes_integer {n : Numeral} (hn : n.Proper) (hf : n.fraction = none)
    (he : n.exponent = none) (hlength : (digitsOf n.whole).length ≤ maxDigits)
    (hvalue : valueOf (digitsOf n.whole) ≤ maxInteger) :
    Takes (.literal (.integer (valueOf (digitsOf n.whole)))) n.text [] := by
  apply takes_number hn
  simp only [Numeral.literal, hf, he, Nat.not_lt.2 hlength, Nat.not_lt.2 hvalue, if_false]

theorem takes_float {n : Numeral} {x : Binary64} (hn : n.Proper)
    (hmarked : n.fraction ≠ none ∨ n.exponent ≠ none)
    (hx : Decimal.binary64? (String.ofList n.plain) = some x) :
    Takes (.literal (.float x)) n.text [] := by
  obtain rfl : n.nearest = x := Option.some.inj (hn.binary64?.symm.trans hx)
  exact takes_number hn (Numeral.literal_marked hmarked)

/-- Every lexeme is taken by its writing, whichever it is. -/
theorem takes_written (h : Written l text) (hnewline : l ≠ .newline) (hend : l ≠ .endOfInput) :
    Takes l text [] := by
  cases h with
  | newline => exact absurd rfl hnewline
  | endOfInput => exact absurd rfl hend
  | symbol s => exact takes_symbol s
  | operator op => exact takes_operator op
  | fused hop => exact takes_fused hop
  | keyword k =>
    rw [← lexemeOfWord_keyword k]
    exact takes_word (isName_keyword k)
  | value hvalue =>
    rw [← lexemeOfWord_value hvalue]
    exact takes_word (isName_value hvalue)
  | name hname hfree =>
    rw [← lexemeOfWord_name hfree]
    exact takes_word hname
  | integer hn hf he hlength hvalue => exact takes_integer hn hf he hlength hvalue
  | float hn hmarked hx => exact takes_float hn hmarked hx
  | string items hitems => exact takes_string hitems
  | character item hitem => exact takes_character hitem

end Piece

/-! ### Sequences -/

variable {ls : List Lexeme}

def Parted (ls : List Lexeme) : Prop := ls.IsChain fun l m => l = .newline → m ≠ .newline

/-- By induction on the lexemes, with a newline token in front if the last lexeme is a newline. -/
theorem reads_written (fresh : Bool) {texts : List (List Char)}
    (hwritten : List.Forall₂ Written ls texts) (hend : .endOfInput ∉ ls) (hparted : Parted ls)
    (hfresh : fresh → ls.head? ≠ some .newline) :
    Reads fresh (texts.flatMap (· ++ [' '])) ls := by
  induction hwritten generalizing fresh with
  | nil => exact .nil fresh
  | @cons l text ls texts hl _ ih =>
    obtain ⟨hend, hends⟩ := List.ne_and_not_mem_of_not_mem_cons hend
    obtain ⟨hnext, htail⟩ := List.isChain_cons.1 hparted
    simp only [List.flatMap_cons, List.append_assoc, List.singleton_append]
    generalize texts.flatMap (· ++ [' ']) = body at ih ⊢
    by_cases hnewline : l = .newline
    · subst hnewline
      obtain rfl : fresh = false := by
        cases fresh with
        | false => rfl
        | true => exact absurd rfl (hfresh rfl)
      cases hl
      have hbody := ih true hends htail fun _ h => hnext _ h rfl rfl
      exact .feed (by decide) (.space (by decide) hbody)
    · have htakes := Piece.takes_written hl hnewline (Ne.symm hend)
      have hspace : Replaces (' ' :: body) [] := .of_gap (by decide) body []
      exact .lexeme (htakes.stays hspace) (.space (by decide) (ih false hends htail nofun))

theorem intercalate_space (texts : List (List Char)) :
    [' '].intercalate (texts ++ [[]]) = texts.flatMap (· ++ [' ']) := by
  induction texts with
  | nil => rfl
  | cons text texts ih =>
    cases texts with
    | nil => simp
    | cons next texts =>
      rw [List.flatMap_cons, ← ih]
      simp [List.intercalate_cons_cons]

theorem written_append_end {texts : List (List Char)}
    (h : List.Forall₂ Written (ls ++ [Lexeme.endOfInput]) texts) :
    ∃ init, texts = init ++ [[]] ∧ List.Forall₂ Written ls init := by
  have hinit := List.forall₂_take_append texts ls [Lexeme.endOfInput] h.flip
  have hlast := List.forall₂_drop_append texts ls [Lexeme.endOfInput] h.flip
  refine ⟨texts.take ls.length, ?_, hinit.flip⟩
  cases hdrop : texts.drop ls.length with
  | nil => simp [hdrop] at hlast
  | cons text more =>
    rw [hdrop] at hlast
    obtain ⟨hend, hmore⟩ := List.forall₂_cons.1 hlast
    cases hend
    cases hmore
    rw [← hdrop, List.take_append_drop]

/-- Lexemes that end with the one end of the input and have no two newlines in a row are read back
from their text, in whatever ways they are written. -/
theorem lex_rendering {ls : List Lexeme} {texts : List (List Char)}
    (hwritten : List.Forall₂ Written (ls ++ [.endOfInput]) texts) (hend : Lexeme.endOfInput ∉ ls)
    (hparted : Parted ls) (file : String) :
    ∃ tokens, lex (String.ofList ([' '].intercalate texts)) file = .ok tokens ∧
      tokens.map unplaced = (ls ++ [Lexeme.endOfInput]).map (Token.plain · none) := by
  obtain ⟨init, rfl, hinit⟩ := written_append_end hwritten
  have hreads := reads_written false hinit hend hparted nofun
  rw [← intercalate_space, ← String.toList_ofList (l := [' '].intercalate _)] at hreads
  exact hreads.lex file

theorem lex_rendering_power :
    ∃ tokens, lex "x_1 \n **= 1_.5 ) '\\'' \"\n\\t\" " "f" = .ok tokens ∧
      tokens.map unplaced =
        [.plain (.identifier (.simple "x_1")) none, .plain .newline none,
          .plain (.fused .power) none,
          .plain (.literal (.float (.finite false 0x18000000000000 (-52)))) none,
          .plain (.symbol .rparen) none, .plain (.literal (.char (some "'"))) none,
          .plain (.literal (.string (some "\n\t"))) none, .plain .endOfInput none] := by
  have hname : Written (.identifier (.simple "x_1")) ['x', '_', '1'] := by
    refine .name (isName_iff.2 ⟨by decide, by decide⟩) ?_
    rintro (⟨k, hk⟩ | ⟨l, hl⟩)
    · cases k <;> cases hk
    · simp [Literal.words] at hl
  have hfloat : Written (.literal (.float (.finite false 0x18000000000000 (-52))))
      ['1', '_', '.', '5'] := by
    refine .float (n := ⟨['1', '_'], some ['5'], none⟩) ⟨?_, ?_, by simp, .inl rfl⟩
      (.inl (by simp)) (by decide +kernel)
    · exact List.all_eq_true.1 (by decide)
    · rintro run ⟨⟩
      exact List.all_eq_true.1 (by decide)
  have hchar : Written (.literal (.char (some "'"))) ['\'', '\\', '\'', '\''] :=
    .character (.escaped '\'' '\'') rfl
  have hstring : Written (.literal (.string (some "\n\t"))) ['"', '\n', '\\', 't', '"'] :=
    .string [.plain '\n', .escaped 't' '\t'] (by simp [Item.Encodes, escapeValue?])
  have hwritten := List.Forall₂.cons hname <| .cons .newline <| .cons (@Written.fused .power rfl) <|
    .cons hfloat <| .cons (.symbol .rparen) <| .cons hchar <| .cons hstring <|
    .cons .endOfInput .nil
  have htext : "x_1 \n **= 1_.5 ) '\\'' \"\n\\t\" " =
      String.ofList ([' '].intercalate [['x', '_', '1'], ['\n'], ['*', '*', '='],
        ['1', '_', '.', '5'], [')'], ['\'', '\\', '\'', '\''],
        ['"', '\n', '\\', 't', '"'], []]) := by
    decide
  rw [htext]
  exact @lex_rendering [_, _, _, _, _, _, _] _ hwritten (by simp) (by simp [Parted]) "f"

end Pasture.Lexing
