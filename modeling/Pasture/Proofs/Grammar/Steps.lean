import Pasture.Grammar.Module

/-! # Steps of parsers

What a parser does to the tokens in front of it when it succeeds. A composed parser is taken apart
by `bind_eq_ok` and put together by `bind_of_ok`; the single steps are told by the tokens they take.
-/
namespace Pasture

@[simp] theorem Token.kind_eq_symbol {t : Token} {s : Symbol} :
    t.kind = .symbol s ↔ t.lexeme = .symbol s := by
  unfold Token.kind
  cases t.lexeme <;> simp [Lexeme.kind]

@[simp] theorem Token.kind_eq_keyword {t : Token} {k : Keyword} :
    t.kind = .keyword k ↔ t.lexeme = .keyword k := by
  unfold Token.kind
  cases t.lexeme <;> simp [Lexeme.kind]

@[simp] theorem Token.kind_eq_newline {t : Token} : t.kind = .newline ↔ t.lexeme = .newline := by
  unfold Token.kind
  cases t.lexeme <;> simp [Lexeme.kind]

@[simp] theorem Token.kind_eq_operator {t : Token} :
    t.kind = .operator ↔ ∃ op, t.lexeme = .operator op := by
  unfold Token.kind
  cases t.lexeme <;> simp [Lexeme.kind]

@[simp] theorem Token.isNewline_iff {t : Token} : t.isNewline = true ↔ t.lexeme = .newline := by
  unfold Token.isNewline
  cases t.lexeme <;> simp

@[simp] theorem Token.isNewline_eq_false {t : Token} :
    t.isNewline = false ↔ t.lexeme ≠ .newline := by
  rw [Bool.eq_false_iff, ne_eq, isNewline_iff]

@[simp] theorem Token.isEnd_iff {t : Token} : t.isEnd = true ↔ t.lexeme = .endOfInput := by
  unfold Token.isEnd
  cases t.lexeme <;> simp

@[simp] theorem Token.isEnd_eq_false {t : Token} : t.isEnd = false ↔ t.lexeme ≠ .endOfInput := by
  rw [Bool.eq_false_iff, ne_eq, isEnd_iff]

/-- Of the tokens `ts`, those with the lexemes `ls` are taken and `rest` is left. -/
def Took (ts : List Token) (ls : List Lexeme) (rest : List Token) : Prop :=
  ∃ read, ts = read ++ rest ∧ read.map Token.lexeme = ls

namespace Took

variable {ts mid rest : List Token} {ls ks : List Lexeme}

theorem refl (ts : List Token) : Took ts [] ts := ⟨[], rfl, rfl⟩

theorem trans (h : Took ts ls mid) (k : Took mid ks rest) : Took ts (ls ++ ks) rest := by
  obtain ⟨read, rfl, rfl⟩ := h
  obtain ⟨more, rfl, rfl⟩ := k
  exact ⟨read ++ more, by simp, by simp⟩

theorem cons {t : Token} (h : Took ts ls rest) : Took (t :: ts) (t.lexeme :: ls) rest := by
  obtain ⟨read, rfl, rfl⟩ := h
  exact ⟨t :: read, rfl, rfl⟩

theorem one (t : Token) (rest : List Token) : Took (t :: rest) [t.lexeme] rest :=
  (refl rest).cons

theorem length_eq (h : Took ts ls rest) : ts.length = ls.length + rest.length := by
  obtain ⟨read, rfl, rfl⟩ := h
  simp

theorem length_le (h : Took ts ls rest) : rest.length ≤ ts.length := by
  have := h.length_eq
  omega

end Took

namespace Parser

variable {α β : Type} {ends : Option Span} {ts rest : List Token}

theorem bind_apply (p : Parser α) (f : α → Parser β) (ends : Option Span) (ts : List Token) :
    (p >>= f) ends ts = match p ends ts with
      | .ok a mid => f a ends mid
      | .error e mid => .error e mid := by
  change EStateM.bind (p ends) (fun a => f a ends) ts = _
  unfold EStateM.bind
  cases p ends ts <;> rfl

theorem bind_eq_ok {p : Parser α} {f : α → Parser β} {b : β} :
    (p >>= f) ends ts = .ok b rest ↔
      ∃ a mid, p ends ts = .ok a mid ∧ f a ends mid = .ok b rest := by
  rw [bind_apply]
  cases p ends ts with
  | ok a mid => exact ⟨fun h => ⟨a, mid, rfl, h⟩, fun ⟨_, _, h, hf⟩ => by cases h; exact hf⟩
  | error e mid => simp

theorem bind_of_ok {p : Parser α} {f : α → Parser β} {a : α} {mid : List Token}
    (h : p ends ts = .ok a mid) : (p >>= f) ends ts = f a ends mid := by
  rw [bind_apply, h]

theorem skip_eq_true {k : Kind} :
    skip k ends ts = .ok true rest ↔ ∃ t, t.kind = k ∧ ts = t :: rest := by
  cases ts <;> grind [skip]

theorem skip_eq_false {k : Kind} :
    skip k ends ts = .ok false rest ↔ rest = ts ∧ ∀ t ∈ ts.head?, t.kind ≠ k := by
  cases ts <;> grind [skip]

theorem expect_eq_ok {k : Kind} {what : Expectation} {u : Unit} :
    expect k what ends ts = .ok u rest ↔ ∃ t, t.kind = k ∧ ts = t :: rest := by
  unfold expect
  rw [bind_eq_ok]
  constructor
  · rintro ⟨t, mid, ht, hr⟩
    cases hr
    cases ts <;> grind [take]
  · rintro ⟨t, rfl, rfl⟩
    exact ⟨t, rest, by simp [take], rfl⟩

theorem identifier_eq_ok {what : Expectation} {i : Identifier} :
    identifier what ends ts = .ok i rest ↔ ∃ t, t.lexeme = .identifier i ∧ ts = t :: rest := by
  cases ts <;> grind [identifier]

theorem advance_eq_ok {t : Token} : advance ends ts = .ok t rest ↔ ts = t :: rest := by
  cases ts <;> simp [advance]

theorem operatorIn_eq_some {ops : List Operator} {op : Operator} :
    operatorIn ops ends ts = .ok (some op) rest ↔
      op ∈ ops ∧ ∃ t, t.lexeme = .operator op ∧ ts = t :: rest := by
  cases ts <;> grind [operatorIn]

theorem operatorIn_eq_none {ops : List Operator} :
    operatorIn ops ends ts = .ok none rest ↔
      rest = ts ∧ ∀ t ∈ ts.head?, ∀ op ∈ ops, t.lexeme ≠ .operator op := by
  cases ts <;> grind [operatorIn]

/-! The steps that only look at the stream cannot fail. -/

@[simp] theorem current_apply : current ends ts = .ok ts.head? ts := rfl

@[simp] theorem sees_apply {k : Kind} :
    sees k ends ts = .ok (ts.head?.any fun t => t.kind = k) ts := rfl

@[simp] theorem seesAny_apply {ks : List Kind} :
    seesAny ks ends ts = .ok (ts.head?.any fun t => ks.contains t.kind) ts := rfl

@[simp] theorem atEnd_apply : atEnd ends ts = .ok (ts.head?.all Token.isEnd) ts := rfl

@[simp] theorem skipNewlines_apply :
    skipNewlines ends ts = .ok () (ts.dropWhile Token.isNewline) := rfl

end Parser

theorem Grammar.elseFollows_eq_true {ends : Option Span} {ts mid : List Token}
    (h : elseFollows ends ts = .ok true mid) :
    mid = ts ∧ ∃ t us, ts.dropWhile Token.isNewline = t :: us ∧ t.lexeme = .keyword .otherwise := by
  unfold elseFollows at h
  injection h with hseen hmid
  obtain ⟨t, ht, hk⟩ := (Option.any_eq_true _ _).1 hseen
  obtain ⟨us, hus⟩ := List.head?_eq_some_iff.1 ht
  exact ⟨hmid.symm, t, us, hus, by simpa using hk⟩

end Pasture
