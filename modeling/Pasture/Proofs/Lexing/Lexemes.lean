import Pasture.Proofs.Lexing.Gaps
import Pasture.Proofs.Lexing.Numerals
import Pasture.Proofs.Lexing.Words

/-! # The writings of lexemes

Every lexeme has its ways to be written, and no text is read as a lexeme in any other way.
-/
namespace Pasture.Lexing

def Item.Encodes (close : Char) : Item → Prop
  | .plain c => c ≠ close ∧ c ≠ '\\'
  | .escaped mark value => escapeValue? mark = some value

/-- How lexemes are written. Names, numbers and quoted literals have many spellings, the others
have one; the end of the input has none. -/
inductive Written : Lexeme → List Char → Prop where
  | newline : Written .newline ['\n']
  | endOfInput : Written .endOfInput []
  | symbol (s : Symbol) : Written (.symbol s) [s.char]
  | operator (op : Operator) : Written (.operator op) op.spelling
  | fused {op : Operator} : op.isAssignable → Written (.fused op) (op.spelling ++ ['='])
  | keyword (k : Keyword) : Written (.keyword k) k.spelling
  | value {word l} : (word, l) ∈ Literal.words → Written (.literal l) word
  | name {word} : IsName word → ¬IsReserved word →
      Written (.identifier (.simple (String.ofList word))) word
  | integer {n : Numeral} : n.Proper → n.fraction = none → n.exponent = none →
      (digitsOf n.whole).length ≤ maxDigits → valueOf (digitsOf n.whole) ≤ maxInteger →
      Written (.literal (.integer (valueOf (digitsOf n.whole)))) n.text
  | float {n : Numeral} {x} : n.Proper → n.fraction ≠ none ∨ n.exponent ≠ none →
      Decimal.binary64? (String.ofList n.plain) = some x → Written (.literal (.float x)) n.text
  | string (items : List Item) : (∀ i ∈ items, i.Encodes '"') →
      Written (.literal (.string (some (String.ofList (items.map Item.value)))))
        ('"' :: items.flatMap Item.text ++ ['"'])
  | character (item : Item) : item.Encodes '\'' →
      Written (.literal (.char (some item.value.toString))) ('\'' :: item.text ++ ['\''])

def Item.encode (close c : Char) : Item :=
  if c = close ∨ c = '\\' then .escaped c c else .plain c

@[simp] theorem Item.value_encode (close c : Char) : (encode close c).value = c := by
  unfold encode
  split <;> rfl

theorem Item.encode_encodes {close : Char} (hclose : close = '"' ∨ close = '\'') (c : Char) :
    (encode close c).Encodes close := by
  by_cases hc : c = close ∨ c = '\\'
  · rw [encode, if_pos hc]
    rcases hc with rfl | rfl
    · rcases hclose with rfl | rfl <;> rfl
    · rfl
  · rw [encode, if_neg hc]
    exact not_or.1 hc

/-- Any string may be written between quotes. -/
theorem Written.quoted (s : String) :
    Written (.literal (.string (some s)))
      ('"' :: (s.toList.map (Item.encode '"')).flatMap Item.text ++ ['"']) := by
  have hencodes : ∀ i ∈ s.toList.map (Item.encode '"'), i.Encodes '"' := by
    intro i hi
    obtain ⟨c, -, rfl⟩ := List.mem_map.1 hi
    exact Item.encode_encodes (.inl rfl) c
  have hvalue : (s.toList.map (Item.encode '"')).map Item.value = s.toList := by
    simp [Function.comp_def]
  have hwritten := Written.string _ hencodes
  rwa [hvalue, String.ofList_toList] at hwritten

/-- Any character may be written between quotes of its own. -/
theorem Written.quotedCharacter (c : Char) :
    Written (.literal (.char (some c.toString)))
      ('\'' :: (Item.encode '\'' c).text ++ ['\'']) := by
  have hwritten := Written.character _ (Item.encode_encodes (.inr rfl) c)
  rwa [Item.value_encode] at hwritten

/-- An integer may be written by its decimal digits. -/
theorem Written.decimal {n : Nat} (hn : n ≤ maxInteger) :
    Written (.literal (.integer n)) (Nat.toDigits 10 n) := by
  have hdigit : ∀ c ∈ Nat.toDigits 10 n, c.isDigit := by
    intro c hc
    exact Nat.isDigit_of_mem_toDigits (Nat.succ_pos 9) (Nat.le_refl 10) hc
  have hproper : (⟨Nat.toDigits 10 n, none, none⟩ : Numeral).Proper := by
    refine ⟨fun c hc => Numeral.isRunChar_of_isDigit (hdigit c hc), nofun, nofun, .inl ?_⟩
    obtain ⟨c, cs, hcons⟩ := List.exists_cons_of_ne_nil (Nat.toDigits_ne_nil (n := n) (b := 10))
    have hfirst := hdigit c (by rw [hcons]; exact List.mem_cons_self)
    simpa [hcons] using hfirst
  have hdigits : digitsOf (Nat.toDigits 10 n) = Nat.toDigits 10 n := List.filter_eq_self.2 hdigit
  have hvalue : valueOf (digitsOf (Nat.toDigits 10 n)) = n := by
    rw [hdigits]
    exact Nat.ofDigitChars_ten_toDigits
  have hlength : (digitsOf (Nat.toDigits 10 n)).length ≤ maxDigits := by
    have hpositive : 0 < maxDigits := by decide
    rw [hdigits]
    refine (Nat.length_toDigits_le_iff (by decide) hpositive).2 ?_
    calc n ≤ maxInteger := hn
      _ < 10 ^ 19 := by decide
      _ ≤ 10 ^ maxDigits := Nat.pow_le_pow_right (by decide) (by decide)
  have hwritten := Written.integer hproper rfl rfl hlength (by rw [hvalue]; exact hn)
  simpa [hvalue, Numeral.text] using hwritten

theorem Item.run_encodes (close : Char) (cs : List Char) :
    ∀ i ∈ (run close cs).1, i.Encodes close := by
  fun_induction run close cs with
  | case1 | case2 | case4 | case5 =>
    intro i hi
    cases hi
  | case3 mark cs value hvalue items rest hrun ih =>
    rw [hrun] at ih
    exact List.forall_mem_cons.2 ⟨hvalue, ih⟩
  | case6 c cs hlast hpair hc items rest hrun ih =>
    rw [hrun] at ih
    exact List.forall_mem_cons.2 ⟨⟨hc, ne_backslash hlast hpair⟩, ih⟩

theorem Item.run_items {close : Char} {items : List Item} (h : ∀ i ∈ items, i.Encodes close)
    (rest : List Char) :
    run close (items.flatMap Item.text ++ rest) =
      (items ++ (run close rest).1, (run close rest).2) := by
  induction items with
  | nil => rfl
  | cons i items ih =>
    obtain ⟨hi, hitems⟩ := List.forall_mem_cons.1 h
    have hrun := ih hitems
    rw [List.flatMap_cons, List.append_assoc]
    cases i with
    | plain c =>
      obtain ⟨hc, hback⟩ := hi
      rw [Item.text, List.singleton_append, run_plain hback hc, hrun]
      rfl
    | escaped mark value =>
      have hvalue : escapeValue? mark = some value := hi
      simp [Item.text, run, hvalue, hrun]

namespace Piece

def Proper (p : Piece) : Prop := ∃ l, p.form = .lexeme l ∧ Written l p.text

variable {c : Char} {cs rest : List Char} {p : Piece}

/-- Where a number starts, a number is read. -/
theorem first_number {c : Char} {cs : List Char}
    (h : c.isDigit ∨ c = '.' ∧ cs.head?.any Char.isDigit) : first c cs = number (c :: cs) := by
  obtain ⟨hlayout, hback, hslash⟩ :
      (isSpace c || isBreak c || c = '#') = false ∧ c ≠ '\\' ∧ c ≠ '/' := by
    rcases h with hdigit | ⟨rfl, -⟩
    · simpa [and_assoc] using Text.of_isDigit (by decide) hdigit
        (p := fun d => !(isSpace d || isBreak d || d == '#') && d != '\\' && d != '/')
    · decide
  have hnumber : (c.isDigit || c = '.' && cs.head?.any Char.isDigit) = true := by simpa using h
  simp only [first, hlayout, hback, hslash, hnumber, Bool.false_eq_true, if_false, decide_false,
    Bool.false_and, if_true]

theorem number_proper (hstart : StartsNumber cs) (h : number cs = .ok (p, rest)) : p.Proper := by
  obtain ⟨n, l, hread, hl, rfl⟩ := number_eq_ok.1 h
  have hn := Numeral.read_proper hstart hread
  refine ⟨.literal l, rfl, ?_⟩
  by_cases hplain : n.fraction = none ∧ n.exponent = none
  · obtain ⟨hf, he⟩ := hplain
    simp only [Numeral.literal, hf, he] at hl
    split at hl
    · cases hl
    · rename_i hlength
      split at hl
      · cases hl
      · rename_i hvalue
        cases hl
        exact .integer hn hf he (Nat.not_lt.1 hlength) (Nat.not_lt.1 hvalue)
  · have hmarked := not_and_or.1 hplain
    rw [Numeral.literal_marked hmarked] at hl
    cases hl
    exact .float hn hmarked hn.binary64?

theorem string_eq_ok_iff :
    string cs = .ok (p, rest) ↔ ∃ items : List Item, (∀ i ∈ items, i.Encodes '"') ∧
      cs = items.flatMap Item.text ++ '"' :: rest ∧
      p = ⟨.lexeme (.literal (.string (some (String.ofList (items.map Item.value))))),
        '"' :: items.flatMap Item.text ++ ['"']⟩ := by
  constructor
  · intro h
    obtain ⟨items, hrun, hp⟩ := string_eq_ok h
    have hitems := Item.run_encodes '"' cs
    have htext := Item.run_append '"' cs
    rw [hrun] at hitems htext
    exact ⟨items, hitems, htext.symm, hp⟩
  · rintro ⟨items, hitems, rfl, rfl⟩
    have hrun := Item.run_items hitems ('"' :: rest)
    rw [Item.run_close (by decide), List.append_nil] at hrun
    simp only [string, hrun]
    rfl

theorem character_eq_ok_iff :
    character cs = .ok (p, rest) ↔ ∃ item : Item, item.Encodes '\'' ∧
      cs = item.text ++ '\'' :: rest ∧
      p = ⟨.lexeme (.literal (.char (some item.value.toString))),
        '\'' :: item.text ++ ['\'']⟩ := by
  constructor
  · intro h
    have htiles := (character_tiles cs p rest h).2
    have hcs : ∀ item : Item, p = ⟨.lexeme (.literal (.char (some item.value.toString))),
        '\'' :: item.text ++ ['\'']⟩ → cs = item.text ++ '\'' :: rest := by
      rintro item rfl
      simpa using htiles.symm
    unfold character at h
    split at h
    · cases h
    · cases h
    · cases h
    · split at h
      · rename_i hvalue
        have hp := closeCharacter_eq_ok h
        exact ⟨.escaped _ _, hvalue, hcs _ hp, hp⟩
      · cases h
    · rename_i hquote hlast hpair
      have hp := closeCharacter_eq_ok h
      exact ⟨.plain _, ⟨fun hc => hquote hc, ne_backslash hlast hpair⟩, hcs _ hp, hp⟩
  · rintro ⟨item, hitem, rfl, rfl⟩
    cases item with
    | plain c =>
      obtain ⟨hquote, hback⟩ := hitem
      exact character_plain hquote hback _
    | escaped mark value =>
      have hvalue : escapeValue? mark = some value := hitem
      simp [Item.text, character, hvalue, closeCharacter]

theorem string_proper (h : string cs = .ok (p, rest)) : p.Proper := by
  obtain ⟨items, hitems, -, rfl⟩ := string_eq_ok_iff.1 h
  exact ⟨_, rfl, .string items hitems⟩

theorem character_proper (h : character cs = .ok (p, rest)) : p.Proper := by
  obtain ⟨item, hitem, -, rfl⟩ := character_eq_ok_iff.1 h
  exact ⟨_, rfl, .character item hitem⟩

theorem word_proper (hc : isWordStart c) (h : word (c :: cs) = .ok (p, rest)) : p.Proper := by
  cases h
  have hchar := isWordChar_of_isWordStart hc
  have hname : IsName ((c :: cs).takeWhile isWordChar) := by
    refine isName_iff.2 ⟨?_, List.all_takeWhile⟩
    rw [List.takeWhile_cons_of_pos hchar]
    exact hc
  refine ⟨_, rfl, ?_⟩
  generalize (c :: cs).takeWhile isWordChar = w at hname
  rcases lexemeOfWord_cases w with ⟨k, rfl, hk⟩ | ⟨l, hmem, hl⟩ | ⟨hfree, hl⟩
  · rw [hk]
    exact .keyword k
  · rw [hl]
    exact .value hmem
  · rw [hl]
    exact .name hname hfree

theorem punctuation_proper (h : punctuation c cs = .ok (p, rest)) : p.Proper := by
  unfold punctuation at h
  split at h
  · rename_i op _
    simp only at h
    split at h
    · rename_i hop _
      cases h
      exact ⟨_, rfl, .fused hop⟩
    · cases h
      exact ⟨_, rfl, .operator op⟩
  · split at h
    · rename_i s hs
      cases h
      rw [← Symbol.char_of_ofChar? hs]
      exact ⟨_, rfl, .symbol s⟩
    · cases h

theorem first_proper_or_slack (h : first c cs = .ok (p, rest)) : p.Proper ∨ p.Slack rest := by
  unfold first at h
  split at h
  · exact .inr (layout_slack h)
  split at h
  · exact .inr (continuation_slack h)
  split at h
  · exact .inr (comment_slack h)
  split at h
  · rename_i hstart
    exact .inl (number_proper ⟨c, cs, rfl, by simpa using hstart⟩ h)
  split at h
  · exact .inl (character_proper h)
  split at h
  · exact .inl (string_proper h)
  split at h
  · rename_i hword
    exact .inl (word_proper hword h)
  · exact .inl (punctuation_proper h)

/-- A lexeme that is read stands in the text in one of its writings. -/
theorem written_of_first {l : Lexeme} (h : first c cs = .ok (p, rest)) (hl : p.form = .lexeme l) :
    Written l p.text := by
  rcases first_proper_or_slack h with ⟨k, hk, hwritten⟩ | ⟨hslack, -⟩
  · rw [hk] at hl
    cases hl
    exact hwritten
  · exact absurd hl (hslack l)

end Piece

end Pasture.Lexing
