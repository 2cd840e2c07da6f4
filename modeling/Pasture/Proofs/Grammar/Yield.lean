import Pasture.Proofs.Grammar.Steps

/-! # Yields of expressions

The lexemes of an expression in the order in which they are written, and the expressions whose
grouping agrees with the table of precedence. An expression stands where the rows from some row on
are read if it is built from these rows; only brackets bring a looser one in.
-/
namespace Pasture

def commaJoin : List (List Lexeme) → List Lexeme
  | [] => []
  | [part] => part
  | part :: parts => part ++ .symbol .comma :: commaJoin parts

mutual

def Expr.yield : Expr → List Lexeme
  | .ternary condition whenTrue whenFalse =>
    condition.yield ++ .symbol .question :: whenTrue.yield ++ .symbol .colon :: whenFalse.yield
  | .binary left op right => left.yield ++ .operator op :: right.yield
  | .unary op operand => .operator op :: operand.yield
  | .literal value => [.literal value]
  | .name i => [.identifier i]
  | .call callee arguments =>
    .identifier callee :: .symbol .lparen :: commaJoin (yieldEach arguments) ++ [.symbol .rparen]
  | .group inner => .symbol .lparen :: inner.yield ++ [.symbol .rparen]
  | .array elements => .symbol .lbracket :: commaJoin (yieldEach elements) ++ [.symbol .rbracket]
  | .element base index => base.yield ++ .symbol .lbracket :: yieldIndex index ++ [.symbol .rbracket]

def Expr.yieldEach : List Expr → List (List Lexeme)
  | [] => []
  | e :: es => e.yield :: yieldEach es

def Expr.yieldIndex : Index Expr → List Lexeme
  | .single value => value.yield
  | .slice start stop => yieldBound start ++ .symbol .colon :: yieldBound stop

def Expr.yieldBound : Option Expr → List Lexeme
  | none => []
  | some e => e.yield

end

theorem Expr.yieldEach_eq_map (es : List Expr) : yieldEach es = es.map yield := by
  induction es with
  | nil => rfl
  | cons e es ih => simp [yieldEach, ih]

def Breaks (ls : List Lexeme) : Prop := ∀ l ∈ ls, l = .newline

/-- Parts with a comma between each two and line breaks around each. -/
inductive Broken : List (List Lexeme) → List Lexeme → Prop where
  | none {before} : Breaks before → Broken [] before
  | last {before part after} : Breaks before → Breaks after →
      Broken [part] (before ++ part ++ after)
  | more {before part after next parts ls} : Breaks before → Breaks after →
      Broken (next :: parts) ls →
      Broken (part :: next :: parts) (before ++ part ++ after ++ .symbol .comma :: ls)

theorem Breaks.append {as bs : List Lexeme} (ha : Breaks as) (hb : Breaks bs) :
    Breaks (as ++ bs) := by
  intro l hl
  rcases List.mem_append.1 hl with h | h
  · exact ha l h
  · exact hb l h

theorem Broken.break_before {parts : List (List Lexeme)} {bs ls : List Lexeme} (hb : Breaks bs)
    (h : Broken parts ls) : Broken parts (bs ++ ls) := by
  cases h with
  | none h => exact .none (hb.append h)
  | last h ha => simpa using Broken.last (hb.append h) ha
  | more h ha hmore => simpa using Broken.more (hb.append h) ha hmore

theorem Breaks.nil : Breaks [] := by
  intro l hl
  cases hl

theorem Broken.cut_before {part : List Lexeme} {parts : List (List Lexeme)} {ls : List Lexeme}
    (h : Broken (part :: parts) ls) :
    ∃ bs ks, ls = bs ++ (part ++ ks) ∧ Breaks bs ∧ Broken (part :: parts) (part ++ ks) := by
  cases h with
  | @last before _ after hb ha =>
    exact ⟨before, after, by simp, hb, by simpa using Broken.last .nil ha⟩
  | @more before _ after _ _ ls hb ha hmore =>
    exact ⟨before, after ++ .symbol .comma :: ls, by simp, hb,
      by simpa using Broken.more .nil ha hmore⟩

/-- The lexemes of an expression in order; line breaks stand in lists of items only. -/
inductive Expr.Spelled : Expr → List Lexeme → Prop where
  | ternary {condition whenTrue whenFalse cs ts fs} : Spelled condition cs →
      Spelled whenTrue ts → Spelled whenFalse fs →
      Spelled (.ternary condition whenTrue whenFalse)
        (cs ++ .symbol .question :: ts ++ .symbol .colon :: fs)
  | binary {left op right ls rs} : Spelled left ls → Spelled right rs →
      Spelled (.binary left op right) (ls ++ .operator op :: rs)
  | unary {op operand ls} : Spelled operand ls →
      Spelled (.unary op operand) (.operator op :: ls)
  | literal (value) : Spelled (.literal value) [.literal value]
  | name (i) : Spelled (.name i) [.identifier i]
  | call {callee arguments parts ls} : arguments.length = parts.length →
      (∀ p ∈ arguments.zip parts, Spelled p.1 p.2) → Broken parts ls →
      Spelled (.call callee arguments)
        (.identifier callee :: .symbol .lparen :: ls ++ [.symbol .rparen])
  | group {inner ls} : Spelled inner ls →
      Spelled (.group inner) (.symbol .lparen :: ls ++ [.symbol .rparen])
  | array {elements parts ls} : elements.length = parts.length →
      (∀ p ∈ elements.zip parts, Spelled p.1 p.2) → Broken parts ls →
      Spelled (.array elements) (.symbol .lbracket :: ls ++ [.symbol .rbracket])
  | single {base value bs ls} : Spelled base bs → Spelled value ls →
      Spelled (.element base (.single value))
        (bs ++ .symbol .lbracket :: ls ++ [.symbol .rbracket])
  | slice {base start stop bs ls rs} : Spelled base bs →
      (start = none → ls = []) → (∀ e ∈ start, Spelled e ls) →
      (stop = none → rs = []) → (∀ e ∈ stop, Spelled e rs) →
      Spelled (.element base (.slice start stop))
        (bs ++ .symbol .lbracket :: ls ++ .symbol .colon :: rs ++ [.symbol .rbracket])

def solid (ls : List Lexeme) : List Lexeme := ls.filter (· ≠ .newline)

@[simp] theorem solid_append (as bs : List Lexeme) : solid (as ++ bs) = solid as ++ solid bs :=
  List.filter_append ..

@[simp] theorem solid_nil : solid [] = [] := rfl

@[simp] theorem solid_cons_newline (ls : List Lexeme) : solid (.newline :: ls) = solid ls := by
  simp [solid]

theorem solid_cons {l : Lexeme} (h : l ≠ .newline) (ls : List Lexeme) :
    solid (l :: ls) = l :: solid ls := by
  simp [solid, h]

theorem Breaks.solid {ls : List Lexeme} (h : Breaks ls) : solid ls = [] := by
  simpa [Pasture.solid, Breaks] using h

theorem Broken.solid {parts : List (List Lexeme)} {ls : List Lexeme} (h : Broken parts ls) :
    solid ls = commaJoin (parts.map Pasture.solid) := by
  induction h with
  | none hb => exact hb.solid
  | last hb ha => simp [hb.solid, ha.solid, commaJoin]
  | more hb ha _ ih =>
    rw [solid_append, solid_append, solid_append, hb.solid, ha.solid, solid_cons (by simp), ih]
    simp [commaJoin]

theorem map_eq_map_of_zip {α β γ : Type} {f : α → γ} {g : β → γ} {as : List α} {bs : List β}
    (hl : as.length = bs.length) (h : ∀ p ∈ as.zip bs, f p.1 = g p.2) : as.map f = bs.map g := by
  induction as generalizing bs with
  | nil =>
    cases bs with
    | nil => rfl
    | cons b bs => cases hl
  | cons a as ih =>
    cases bs with
    | nil => cases hl
    | cons b bs =>
      have hab := h (a, b) (by simp)
      have htail := ih (Nat.succ.inj hl) fun p hp => h p (by simp [hp])
      simp only at hab
      rw [List.map_cons, List.map_cons, hab, htail]

theorem Expr.Spelled.solid_eq {e : Expr} {ls : List Lexeme} (h : e.Spelled ls) :
    solid ls = e.yield := by
  induction h with
  | ternary _ _ _ hc ht hf => simp [yield, solid_cons, hc, ht, hf]
  | binary _ _ hl hr => simp [yield, solid_cons, hl, hr]
  | unary _ ih => simp [yield, solid_cons, ih]
  | literal | name => simp [yield, solid_cons]
  | call hl _ hb ih =>
    simp [yield, solid_cons, hb.solid, yieldEach_eq_map,
      map_eq_map_of_zip hl fun p hp => (ih p hp).symm]
  | group _ ih => simp [yield, solid_cons, ih]
  | array hl _ hb ih =>
    simp [yield, solid_cons, hb.solid, yieldEach_eq_map,
      map_eq_map_of_zip hl fun p hp => (ih p hp).symm]
  | single _ _ hb hv => simp [yield, yieldIndex, solid_cons, hb, hv]
  | @slice base start stop bs ls rs _ hs _ ht _ hb ihs iht =>
    have hstart : solid ls = yieldBound start := by
      cases start with
      | none => simp [hs rfl, yieldBound]
      | some e => exact ihs e rfl
    have hstop : solid rs = yieldBound stop := by
      cases stop with
      | none => simp [ht rfl, yieldBound]
      | some e => exact iht e rfl
    simp [yield, yieldIndex, solid_cons, hb, hstart, hstop]

def Lexeme.opensExpression : Lexeme → Bool
  | .literal _ | .identifier _ | .operator _ | .symbol .lparen | .symbol .lbracket => true
  | _ => false

theorem Expr.Spelled.first {e : Expr} {ls : List Lexeme} (h : e.Spelled ls) :
    ∃ l ks, ls = l :: ks ∧ l.opensExpression := by
  induction h with
  | ternary _ _ _ ih _ _ | binary _ _ ih _ | single _ _ ih _ | slice _ _ _ _ _ ih _ _ =>
    obtain ⟨l, ks, rfl, hl⟩ := ih
    exact ⟨l, _, rfl, hl⟩
  | _ => exact ⟨_, _, rfl, rfl⟩

theorem Expr.Spelled.ne_nil {e : Expr} {ls : List Lexeme} (h : e.Spelled ls) : ls ≠ [] := by
  obtain ⟨l, ks, rfl, -⟩ := h.first
  simp

/-- Where an expression stands: by itself, or as an operand where the given rows are read. -/
inductive Place where
  | whole
  | rows (rows : List PrecedenceRow)

/-- The expression agrees with the table of precedence at every node. -/
inductive Expr.Stands : Place → Expr → Prop where
  | ternary {condition whenTrue whenFalse} : Stands (.rows precedence) condition →
      Stands .whole whenTrue → Stands .whole whenFalse →
      Stands .whole (.ternary condition whenTrue whenFalse)
  | operand {e} : Stands (.rows precedence) e → Stands .whole e
  | tighter {row rows e} : Stands (.rows rows) e → Stands (.rows (row :: rows)) e
  | left {row rows left op right} : row.fixity = .left → op ∈ row.operators →
      Stands (.rows (row :: rows)) left → Stands (.rows rows) right →
      Stands (.rows (row :: rows)) (.binary left op right)
  | right {row rows left op right} : row.fixity = .right → op ∈ row.operators →
      Stands (.rows rows) left → Stands (.rows (row :: rows)) right →
      Stands (.rows (row :: rows)) (.binary left op right)
  | unary {row rows op operand} : row.fixity = .pre → op ∈ row.operators →
      Stands (.rows (row :: rows)) operand →
      Stands (.rows (row :: rows)) (.unary op operand)
  | literal (value) : Stands (.rows []) (.literal value)
  | name (i) : Stands (.rows []) (.name i)
  | call {callee arguments} : (∀ e ∈ arguments, Stands .whole e) →
      Stands (.rows []) (.call callee arguments)
  | group {inner} : Stands .whole inner → Stands (.rows []) (.group inner)
  | array {elements} : (∀ e ∈ elements, Stands .whole e) → Stands (.rows []) (.array elements)
  | single {base value} : Stands (.rows []) base → Stands .whole value →
      Stands (.rows []) (.element base (.single value))
  | slice {base start stop} : Stands (.rows []) base → (∀ e ∈ start, Stands .whole e) →
      (∀ e ∈ stop, Stands .whole e) → Stands (.rows []) (.element base (.slice start stop))

/-- Brackets apart, what stands where tighter rows are read stands wherever looser ones are. -/
theorem Expr.Stands.loosen {rows all : List PrecedenceRow} {e : Expr} (h : e.Stands (.rows rows))
    (hs : rows <:+ all) : e.Stands (.rows all) := by
  obtain ⟨above, rfl⟩ := hs
  induction above with
  | nil => exact h
  | cons row above ih => exact .tighter ih

theorem Expr.Stands.whole_of_suffix {rows : List PrecedenceRow} {e : Expr}
    (h : e.Stands (.rows rows)) (hs : rows <:+ precedence) : e.Stands .whole :=
  .operand (h.loosen hs)

theorem Expr.Stands.operands_whole {left right : Expr} {op : Operator}
    (h : (Expr.binary left op right).Stands .whole) :
    left.Stands .whole ∧ right.Stands .whole := by
  have inner : ∀ rows, rows <:+ precedence → (Expr.binary left op right).Stands (.rows rows) →
      left.Stands .whole ∧ right.Stands .whole := by
    intro rows hs h
    generalize hp : Place.rows rows = place at h
    generalize he : Expr.binary left op right = e at h
    induction h generalizing rows with
    | ternary | operand => cases hp
    | tighter _ ih =>
      cases hp
      exact ih _ ((List.suffix_cons ..).trans hs) rfl he
    | left _ _ hl hr =>
      cases hp
      cases he
      exact ⟨hl.whole_of_suffix hs, hr.whole_of_suffix ((List.suffix_cons ..).trans hs)⟩
    | right _ _ hl hr =>
      cases hp
      cases he
      exact ⟨hl.whole_of_suffix ((List.suffix_cons ..).trans hs), hr.whole_of_suffix hs⟩
    | _ => cases he
  cases h with
  | operand h => exact inner precedence List.suffix_rfl h

theorem broken_commaJoin (parts : List (List Lexeme)) : Broken parts (commaJoin parts) := by
  induction parts with
  | nil => exact .none .nil
  | cons part parts ih =>
    cases parts with
    | nil => simpa [commaJoin] using Broken.last .nil .nil
    | cons next parts => simpa [commaJoin] using Broken.more .nil .nil ih

/-- The spelling without any line break. -/
theorem Expr.Stands.spelled_yield {place : Place} {e : Expr} (h : e.Stands place) :
    e.Spelled e.yield := by
  have items : ∀ es : List Expr, (∀ e ∈ es, e.Spelled e.yield) →
      ∀ p ∈ es.zip (es.map yield), p.1.Spelled p.2 := by
    intro es hes p hp
    have hzip : es.zip (es.map yield) = es.map fun e => (e, e.yield) := by
      simpa using @List.zip_map' _ _ _ id yield es
    rw [hzip] at hp
    obtain ⟨e, he, rfl⟩ := List.mem_map.1 hp
    exact hes e he
  induction h with
  | ternary _ _ _ hc ht hf => simpa [yield] using Spelled.ternary hc ht hf
  | operand _ ih | tighter _ ih => exact ih
  | left _ _ _ _ hl hr | right _ _ _ _ hl hr => exact .binary hl hr
  | unary _ _ _ ih => exact .unary ih
  | literal value => exact .literal value
  | name i => exact .name i
  | call _ ih =>
    rw [yield, yieldEach_eq_map]
    exact .call (by simp) (items _ ih) (broken_commaJoin _)
  | group _ ih => exact .group ih
  | array _ ih =>
    rw [yield, yieldEach_eq_map]
    exact .array (by simp) (items _ ih) (broken_commaJoin _)
  | single _ _ hb hv => exact .single hb hv
  | @slice base start stop _ _ _ hb hs ht =>
    have hnone : ∀ limit : Option Expr, limit = none → yieldBound limit = [] := by
      rintro limit rfl
      rfl
    have hsome : ∀ limit : Option Expr, (∀ e ∈ limit, e.Spelled e.yield) →
        ∀ e ∈ limit, e.Spelled (yieldBound limit) := by
      rintro limit h e rfl
      exact h e rfl
    rw [yield, yieldIndex]
    simpa using Spelled.slice hb (hnone start) (hsome start hs) (hnone stop) (hsome stop ht)

end Pasture
