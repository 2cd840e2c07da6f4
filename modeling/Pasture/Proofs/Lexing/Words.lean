import Pasture.Lexing.Lex

/-! # Names and reserved words

A word is a keyword, stands for a value, or is a name.
-/
namespace Pasture.Lexing

/-- A letter or an underscore, and then letters, digits and underscores, all of them ASCII. -/
def IsName (word : List Char) : Prop :=
  ∃ c cs, word = c :: cs ∧ (c.isAlpha ∨ c = '_') ∧ ∀ d ∈ cs, d.isAlphanum ∨ d = '_'

def IsReserved (word : List Char) : Prop :=
  (∃ k : Keyword, k.spelling = word) ∨ ∃ l, (word, l) ∈ Literal.words

variable {word : List Char}

theorem isWordStart_iff {c : Char} : isWordStart c ↔ c.isAlpha ∨ c = '_' := by
  simp [isWordStart]

theorem isWordChar_iff {c : Char} : isWordChar c ↔ c.isAlphanum ∨ c = '_' := by
  simp [isWordChar]

theorem isWordChar_of_isWordStart {c : Char} (h : isWordStart c) : isWordChar c := by
  rcases isWordStart_iff.1 h with h | h
  · exact isWordChar_iff.2 (.inl (by simp [Char.isAlphanum, h]))
  · exact isWordChar_iff.2 (.inr h)

theorem isName_iff :
    IsName word ↔ word.head?.any isWordStart ∧ word.all isWordChar := by
  constructor
  · rintro ⟨c, cs, rfl, hc, hcs⟩
    have hstart := isWordStart_iff.2 hc
    refine ⟨hstart, List.all_eq_true.2 fun d hd => ?_⟩
    rcases List.mem_cons.1 hd with rfl | hd
    · exact isWordChar_of_isWordStart hstart
    · exact isWordChar_iff.2 (hcs d hd)
  · rintro ⟨hfirst, hall⟩
    obtain ⟨c, hc, hstart⟩ := (Option.any_eq_true _ _).1 hfirst
    obtain ⟨cs, rfl⟩ := List.head?_eq_some_iff.1 hc
    refine ⟨c, cs, rfl, isWordStart_iff.1 hstart, fun d hd => ?_⟩
    exact isWordChar_iff.1 (List.all_eq_true.1 hall d (List.mem_cons_of_mem c hd))

theorem isReserved_of_ofWord? {k : Keyword} (h : Keyword.ofWord? word = some k) :
    IsReserved word :=
  .inl ⟨k, Keyword.spelling_of_ofWord? h⟩

theorem isReserved_of_literal {l : Literal} (h : Literal.ofWord? word = some l) :
    IsReserved word := by
  obtain ⟨before, after, hwords, -⟩ := List.lookup_eq_some_iff.1 h
  exact .inr ⟨l, by simp [hwords]⟩

theorem ofWord?_of_mem_words {l : Literal} (h : (word, l) ∈ Literal.words) :
    Keyword.ofWord? word = none ∧ Literal.ofWord? word = some l := by
  simp only [Literal.words, List.mem_cons, Prod.mk.injEq, List.not_mem_nil, or_false] at h
  rcases h with ⟨rfl, rfl⟩ | ⟨rfl, rfl⟩ | ⟨rfl, rfl⟩ <;> exact ⟨by decide, by decide⟩

theorem lexemeOfWord_keyword (k : Keyword) : lexemeOfWord k.spelling = .keyword k := by
  simp [lexemeOfWord]

theorem lexemeOfWord_value {l : Literal} (h : (word, l) ∈ Literal.words) :
    lexemeOfWord word = .literal l := by
  obtain ⟨hkeyword, hvalue⟩ := ofWord?_of_mem_words h
  simp [lexemeOfWord, hkeyword, hvalue]

theorem lexemeOfWord_name (h : ¬IsReserved word) :
    lexemeOfWord word = .identifier (.simple (String.ofList word)) := by
  unfold lexemeOfWord
  split
  · rename_i hk
    exact absurd (isReserved_of_ofWord? hk) h
  · split
    · rename_i hl
      exact absurd (isReserved_of_literal hl) h
    · rfl

theorem isName_keyword (k : Keyword) : IsName k.spelling := by
  refine isName_iff.2 ⟨?_, ?_⟩ <;> cases k <;> decide

theorem isName_value {l : Literal} (h : (word, l) ∈ Literal.words) : IsName word := by
  simp only [Literal.words, List.mem_cons, Prod.mk.injEq, List.not_mem_nil, or_false] at h
  rcases h with ⟨rfl, rfl⟩ | ⟨rfl, rfl⟩ | ⟨rfl, rfl⟩ <;> exact isName_iff.2 ⟨by decide, by decide⟩

/-- The three readings of a word. -/
theorem lexemeOfWord_cases (word : List Char) :
    (∃ k : Keyword, word = k.spelling ∧ lexemeOfWord word = .keyword k) ∨
      (∃ l, (word, l) ∈ Literal.words ∧ lexemeOfWord word = .literal l) ∨
      ¬IsReserved word ∧ lexemeOfWord word = .identifier (.simple (String.ofList word)) := by
  by_cases h : IsReserved word
  · rcases h with ⟨k, rfl⟩ | ⟨l, hl⟩
    · exact .inl ⟨k, rfl, lexemeOfWord_keyword k⟩
    · exact .inr (.inl ⟨l, hl, lexemeOfWord_value hl⟩)
  · exact .inr (.inr ⟨h, lexemeOfWord_name h⟩)

end Pasture.Lexing
