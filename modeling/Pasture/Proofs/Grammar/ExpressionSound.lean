import Pasture.Proofs.Grammar.Yield

/-! # What the parsers of expressions read

A parser of expressions that succeeds has taken exactly the lexemes of the tree it gives, and the
tree agrees with the table of precedence. Every rule is shown to keep this for the parser of nested
expressions that it is handed. The bound on the stream is needed for lists of items, whose loop
must not run out before its closing bracket.
-/
namespace Pasture.Grammar

open Pasture.Parser

variable {n m : Nat} {ends : Option Span} {ts rest : List Token}

/-- On streams of at most `n` tokens the parser gives trees that stand at the place, and takes what
they spell. -/
def Reads (n : Nat) (place : Place) (p : Parser Expr) : Prop :=
  ∀ ⦃ends ts e rest⦄, ts.length ≤ n → p ends ts = .ok e rest →
    e.Stands place ∧ ∃ ls, Took ts ls rest ∧ e.Spelled ls

section Rows

variable {row : PrecedenceRow} {rows : List PrecedenceRow} {operand : Parser Expr}

theorem leftChain_reads (hf : row.fixity = .left) (ho : Reads n (.rows rows) operand)
    {left e : Expr} {ks : List Lexeme} (hl : left.Stands (.rows (row :: rows)))
    (hs : left.Spelled ks) (hn : ts.length ≤ n)
    (h : leftChain row.operators operand m left ends ts = .ok e rest) :
    e.Stands (.rows (row :: rows)) ∧ ∃ ls, Took ts ls rest ∧ e.Spelled (ks ++ ls) := by
  induction m generalizing left ks ts with
  | zero =>
    cases h
    exact ⟨hl, [], .refl _, by simpa using hs⟩
  | succ m ih =>
    obtain ⟨o, mid, h₁, h₂⟩ := bind_eq_ok.1 h
    cases o with
    | none =>
      obtain ⟨rfl, -⟩ := operatorIn_eq_none.1 h₁
      cases h₂
      exact ⟨hl, [], .refl _, by simpa using hs⟩
    | some op =>
      obtain ⟨hop, t, ht, rfl⟩ := operatorIn_eq_some.1 h₁
      obtain ⟨right, later, h₃, h₄⟩ := bind_eq_ok.1 h₂
      have hmid : mid.length ≤ n := by simp at hn; omega
      obtain ⟨hr, rs, htook, hrs⟩ := ho hmid h₃
      have hlater := htook.length_le
      obtain ⟨he, ls, htook', hls⟩ := ih (.left hf hop hl hr) (.binary hs hrs) (by omega) h₄
      refine ⟨he, .operator op :: rs ++ ls, ?_, by simpa using hls⟩
      rw [← ht]
      exact (htook.trans htook').cons

theorem rightChain_reads (hf : row.fixity = .right) (ho : Reads n (.rows rows) operand) (m : Nat) :
    Reads n (.rows (row :: rows)) (rightChain row.operators operand m) := by
  induction m with
  | zero =>
    intro ends ts e rest hn h
    exact (ho hn h).imp_left .tighter
  | succ m ih =>
    intro ends ts e rest hn h
    obtain ⟨left, mid, h₁, h₂⟩ := bind_eq_ok.1 h
    obtain ⟨hl, ls, htook, hls⟩ := ho hn h₁
    have hmid := htook.length_le
    obtain ⟨o, mid', h₃, h₄⟩ := bind_eq_ok.1 h₂
    cases o with
    | none =>
      obtain ⟨rfl, -⟩ := operatorIn_eq_none.1 h₃
      cases h₄
      exact ⟨.tighter hl, ls, htook, hls⟩
    | some op =>
      obtain ⟨hop, t, ht, rfl⟩ := operatorIn_eq_some.1 h₃
      obtain ⟨right, later, h₅, h₆⟩ := bind_eq_ok.1 h₄
      cases h₆
      obtain ⟨hr, rs, htook', hrs⟩ := ih (by simp at hmid; omega) h₅
      refine ⟨.right hf hop hl hr, ls ++ .operator op :: rs, ?_, .binary hls hrs⟩
      rw [← ht]
      exact htook.trans htook'.cons

theorem prefixChain_reads (hf : row.fixity = .pre) (ho : Reads n (.rows rows) operand) (m : Nat) :
    Reads n (.rows (row :: rows)) (prefixChain row.operators operand m) := by
  induction m with
  | zero =>
    intro ends ts e rest hn h
    exact (ho hn h).imp_left .tighter
  | succ m ih =>
    intro ends ts e rest hn h
    obtain ⟨seen, mid, h₁, h₂⟩ := bind_eq_ok.1 h
    cases h₁
    split at h₂
    · obtain ⟨o, mid, h₃, h₄⟩ := bind_eq_ok.1 h₂
      cases o with
      | none => cases h₄
      | some op =>
        obtain ⟨hop, t, ht, rfl⟩ := operatorIn_eq_some.1 h₃
        obtain ⟨inner, later, h₅, h₆⟩ := bind_eq_ok.1 h₄
        cases h₆
        obtain ⟨hi, ls, htook, hls⟩ := ih (by simp at hn; omega) h₅
        refine ⟨.unary hf hop hi, .operator op :: ls, ?_, .unary hls⟩
        rw [← ht]
        exact htook.cons
    · exact (ho hn h₂).imp_left .tighter

/-- The rows over atoms, by induction on the rows. -/
theorem climb_reads {atom : Parser Expr} (ha : Reads n (.rows []) atom) (m : Nat)
    (rows : List PrecedenceRow) : Reads n (.rows rows) (climb atom m rows) := by
  induction rows with
  | nil => exact ha
  | cons row rows ih =>
    intro ends ts e rest hn h
    cases hf : row.fixity with
    | left =>
      simp only [climb, hf] at h
      obtain ⟨first, mid, h₁, h₂⟩ := bind_eq_ok.1 h
      obtain ⟨hs, ks, htook, hks⟩ := ih hn h₁
      have hmid := htook.length_le
      obtain ⟨he, ls, htook', hls⟩ := leftChain_reads hf ih (.tighter hs) hks (by omega) h₂
      exact ⟨he, ks ++ ls, htook.trans htook', hls⟩
    | right =>
      simp only [climb, hf] at h
      exact rightChain_reads hf ih m hn h
    | pre =>
      simp only [climb, hf] at h
      exact prefixChain_reads hf ih m hn h

end Rows

section Lists

variable {α : Type} {S : α → Prop} {P : α → List Lexeme → Prop} {close : Symbol}
  {what : Expectation} {item : Parser α}

theorem newlines_took (ts : List Token) :
    ∃ ls, Breaks ls ∧ Took ts ls (ts.dropWhile Token.isNewline) := by
  refine ⟨(ts.takeWhile Token.isNewline).map Token.lexeme, ?_,
    ts.takeWhile Token.isNewline, List.takeWhile_append_dropWhile.symm, rfl⟩
  intro l hl
  obtain ⟨t, ht, rfl⟩ := List.mem_map.1 hl
  simpa using List.all_eq_true.1 List.all_takeWhile t ht

def ReadsItems (n : Nat) (S : α → Prop) (P : α → List Lexeme → Prop) (item : Parser α) : Prop :=
  ∀ ⦃ends ts a rest⦄, ts.length ≤ n → item ends ts = .ok a rest →
    S a ∧ ∃ ls, Took ts ls rest ∧ P a ls

theorem commaList_reads (hne : ∀ a ls, P a ls → ls ≠ []) (hi : ReadsItems n S P item)
    {as : List α} (hn : ts.length ≤ n) (hm : ts.length ≤ m)
    (h : commaList close what item m ends ts = .ok as rest) :
    (∀ a ∈ as, S a) ∧ ∃ parts ls, as.length = parts.length ∧ (∀ p ∈ as.zip parts, P p.1 p.2) ∧
      parts ≠ [] ∧ Broken parts ls ∧ Took ts (ls ++ [.symbol close]) rest := by
  induction m generalizing ts as with
  | zero =>
    -- an item takes at least one token, and there is none
    obtain ⟨a, mid, h₁, -⟩ := bind_eq_ok.1 h
    obtain ⟨-, ls, htook, hls⟩ := hi hn h₁
    have hlen := htook.length_eq
    have := List.length_pos_iff.2 (hne a ls hls)
    omega
  | succ m ih =>
    obtain ⟨u, mid, h₁, h⟩ := bind_eq_ok.1 h
    cases h₁
    obtain ⟨bs, hbs, hbefore⟩ := newlines_took ts
    have hlen₁ := hbefore.length_le
    obtain ⟨a, mid, h₂, h⟩ := bind_eq_ok.1 h
    obtain ⟨hS, ps, hpart, hps⟩ := hi (by omega) h₂
    have hlen₂ := hpart.length_eq
    have hpos := List.length_pos_iff.2 (hne a ps hps)
    obtain ⟨u, mid', h₃, h⟩ := bind_eq_ok.1 h
    cases h₃
    obtain ⟨cs, hcs, hafter⟩ := newlines_took mid
    have hlen₃ := hafter.length_le
    have htook := (hbefore.trans hpart).trans hafter
    obtain ⟨comma, mid', h₄, h⟩ := bind_eq_ok.1 h
    cases comma with
    | false =>
      obtain ⟨rfl, -⟩ := skip_eq_false.1 h₄
      obtain ⟨u, mid', h₅, h⟩ := bind_eq_ok.1 h
      cases h
      obtain ⟨t, ht, hmid⟩ := expect_eq_ok.1 h₅
      rw [Token.kind_eq_symbol] at ht
      refine ⟨by simpa using hS, [ps], bs ++ ps ++ cs, rfl, by simpa using hps, by simp,
        .last hbs hcs, ?_⟩
      rw [← ht]
      rw [hmid] at htook
      exact htook.trans (.one t rest)
    | true =>
      obtain ⟨t, ht, hmid⟩ := skip_eq_true.1 h₄
      rw [Token.kind_eq_symbol] at ht
      rw [hmid] at htook hlen₃
      rw [List.length_cons] at hlen₃
      obtain ⟨as, later, h₅, h⟩ := bind_eq_ok.1 h
      cases h
      obtain ⟨hSs, parts, ls, hl, hparts, hsome, hbroken, htook'⟩ :=
        ih (by omega) (by omega) h₅
      obtain ⟨next, parts, rfl⟩ := List.exists_cons_of_ne_nil hsome
      refine ⟨by simpa using ⟨hS, hSs⟩, ps :: next :: parts,
        bs ++ ps ++ cs ++ .symbol .comma :: ls, by simp [hl], ?_, by simp,
        .more hbs hcs hbroken, ?_⟩
      · intro p hp
        rw [List.zip_cons_cons, List.mem_cons] at hp
        rcases hp with rfl | hp
        · exact hps
        · exact hparts p hp
      · rw [← ht, List.append_assoc, List.cons_append]
        exact htook.trans htook'.cons

theorem listItems_reads (hne : ∀ a ls, P a ls → ls ≠ []) (hi : ReadsItems n S P item)
    {as : List α} (hn : ts.length ≤ n) (hm : ts.length ≤ m)
    (h : listItems close what item m ends ts = .ok as rest) :
    (∀ a ∈ as, S a) ∧ ∃ parts ls, as.length = parts.length ∧ (∀ p ∈ as.zip parts, P p.1 p.2) ∧
      Broken parts ls ∧ Took ts (ls ++ [.symbol close]) rest := by
  obtain ⟨u, mid, h₁, h⟩ := bind_eq_ok.1 h
  cases h₁
  obtain ⟨bs, hbs, hbefore⟩ := newlines_took ts
  have hlen := hbefore.length_le
  obtain ⟨closed, mid, h₂, h⟩ := bind_eq_ok.1 h
  cases closed with
  | true =>
    obtain ⟨t, ht, hmid⟩ := skip_eq_true.1 h₂
    rw [Token.kind_eq_symbol] at ht
    cases h
    refine ⟨by simp, [], bs, rfl, by simp, .none hbs, ?_⟩
    rw [← ht]
    rw [hmid] at hbefore
    exact hbefore.trans (.one t rest)
  | false =>
    obtain ⟨rfl, -⟩ := skip_eq_false.1 h₂
    obtain ⟨hS, parts, ls, hl, hparts, -, hbroken, htook⟩ :=
      commaList_reads hne hi (by omega) (by omega) h
    refine ⟨hS, parts, bs ++ ls, hl, hparts, hbroken.break_before hbs, ?_⟩
    simpa using hbefore.trans htook

end Lists

section Atoms

variable {nested : Parser Expr}

theorem bound_reads (hr : Reads n .whole nested) {next : Symbol} {limit : Option Expr}
    (hn : ts.length ≤ n) (h : bound nested next ends ts = .ok limit rest) :
    (∀ e ∈ limit, e.Stands .whole) ∧
      ∃ ls, Took ts ls rest ∧ (limit = none → ls = []) ∧ ∀ e ∈ limit, e.Spelled ls := by
  obtain ⟨missing, mid, h₁, h₂⟩ := bind_eq_ok.1 h
  cases h₁
  split at h₂
  · cases h₂
    exact ⟨by simp, [], .refl _, by simp, by simp⟩
  · obtain ⟨e, mid, h₃, h₄⟩ := bind_eq_ok.1 h₂
    cases h₄
    obtain ⟨he, ls, htook, hls⟩ := hr hn h₃
    exact ⟨by simpa using he, ls, htook, by simp, by simpa using hls⟩

theorem bound_none {next : Symbol} (h : bound nested next ends ts = .ok none rest) :
    rest = ts ∧ ∃ t ∈ ts.head?, t.lexeme = .symbol next := by
  obtain ⟨missing, mid, h₁, h₂⟩ := bind_eq_ok.1 h
  cases h₁
  split at h₂
  · rename_i hseen
    cases h₂
    obtain ⟨t, ht, hk⟩ := (Option.any_eq_true _ _).1 hseen
    exact ⟨rfl, t, ht, by simpa using hk⟩
  · obtain ⟨e, mid, -, h₄⟩ := bind_eq_ok.1 h₂
    cases h₄

/-- An index in its brackets, seen from the array in front of it. -/
theorem index_reads (hr : Reads n .whole nested) {i : Index Expr} {base : Expr} {bs : List Lexeme}
    (hb : base.Stands (.rows [])) (hbs : base.Spelled bs) (hn : ts.length ≤ n)
    (h : index nested ends ts = .ok i rest) :
    (Expr.element base i).Stands (.rows []) ∧
      ∃ ls, Took ts ls rest ∧ (Expr.element base i).Spelled (bs ++ .symbol .lbracket :: ls) := by
  obtain ⟨start, mid, h₁, h₂⟩ := bind_eq_ok.1 h
  obtain ⟨hstart, ls, htook, hnone, hsome⟩ := bound_reads hr hn h₁
  have hlen := htook.length_le
  obtain ⟨colon, mid', h₃, h₄⟩ := bind_eq_ok.1 h₂
  cases colon with
  | false =>
    obtain ⟨rfl, hcolon⟩ := skip_eq_false.1 h₃
    cases start with
    | none =>
      -- a missing start is seen from its colon, which is then taken
      obtain ⟨rfl, t, ht, htc⟩ := bound_none h₁
      exact absurd (Token.kind_eq_symbol.2 htc) (hcolon t ht)
    | some value =>
      obtain ⟨u, later, h₅, h₆⟩ := bind_eq_ok.1 h₄
      cases h₆
      obtain ⟨t, ht, rfl⟩ := expect_eq_ok.1 h₅
      rw [Token.kind_eq_symbol] at ht
      refine ⟨.single hb (hstart _ rfl), ls ++ [.symbol .rbracket], ?_, ?_⟩
      · rw [← ht]
        exact htook.trans (.one t rest)
      · simpa using Expr.Spelled.single hbs (hsome _ rfl)
  | true =>
    obtain ⟨c, hc, rfl⟩ := skip_eq_true.1 h₃
    rw [Token.kind_eq_symbol] at hc
    rw [List.length_cons] at hlen
    obtain ⟨stop, later, h₅, h₆⟩ : ∃ stop later, bound nested .rbracket ends mid' = .ok stop later ∧
        (do expect (.symbol .rbracket) .sliceClose; return .slice start stop : Parser (Index Expr))
          ends later = .ok i rest := by
      cases start <;> exact bind_eq_ok.1 h₄
    obtain ⟨hstop, rs, htook', hnone', hsome'⟩ := bound_reads hr (by omega) h₅
    obtain ⟨u, mid, h₇, h₈⟩ := bind_eq_ok.1 h₆
    cases h₈
    obtain ⟨t, ht, rfl⟩ := expect_eq_ok.1 h₇
    rw [Token.kind_eq_symbol] at ht
    refine ⟨.slice hb hstart hstop, ls ++ .symbol .colon :: rs ++ [.symbol .rbracket], ?_, ?_⟩
    · rw [← ht, ← hc]
      exact (htook.trans htook'.cons).trans (.one t rest)
    · simpa using Expr.Spelled.slice hbs hnone hsome hnone' hsome'

theorem indices_reads (hr : Reads n .whole nested) {base e : Expr} {bs : List Lexeme}
    (hb : base.Stands (.rows [])) (hbs : base.Spelled bs) (hn : ts.length ≤ n + 1)
    (h : indices nested m base ends ts = .ok e rest) :
    e.Stands (.rows []) ∧ ∃ ls, Took ts ls rest ∧ e.Spelled (bs ++ ls) := by
  induction m generalizing base bs ts with
  | zero =>
    cases h
    exact ⟨hb, [], .refl _, by simpa using hbs⟩
  | succ m ih =>
    obtain ⟨opened, mid, h₁, h₂⟩ := bind_eq_ok.1 h
    cases opened with
    | false =>
      obtain ⟨rfl, -⟩ := skip_eq_false.1 h₁
      cases h₂
      exact ⟨hb, [], .refl _, by simpa using hbs⟩
    | true =>
      obtain ⟨t, ht, rfl⟩ := skip_eq_true.1 h₁
      rw [Token.kind_eq_symbol] at ht
      rw [List.length_cons] at hn
      obtain ⟨i, later, h₃, h₄⟩ := bind_eq_ok.1 h₂
      obtain ⟨he, ls, htook, hls⟩ := index_reads hr hb hbs (by omega) h₃
      have hlen := htook.length_le
      obtain ⟨he', ks, htook', hks⟩ := ih he hls (by omega) h₄
      refine ⟨he', .symbol .lbracket :: ls ++ ks, ?_, by simpa using hks⟩
      rw [← ht]
      exact (htook.trans htook').cons

theorem listItem_reads (hr : Reads n .whole nested) (close : Symbol) (what : Expectation) :
    ReadsItems n (Expr.Stands .whole) Expr.Spelled (listItem nested close what) := by
  intro ends ts e rest hn h
  obtain ⟨missing, mid, h₁, h₂⟩ := bind_eq_ok.1 h
  cases h₁
  split at h₂
  · cases h₂
  · exact hr hn h₂

/-- An atom without its indices, by the token that starts it. -/
theorem primary_reads (hr : Reads n .whole nested) (hn : ts.length ≤ n + 1) (hm : ts.length ≤ m)
    {e : Expr} (h : primary nested m ends ts = .ok e rest) :
    e.Stands (.rows []) ∧ ∃ ls, Took ts ls rest ∧ e.Spelled ls := by
  obtain ⟨first, mid, h₁, h₂⟩ := bind_eq_ok.1 h
  cases h₁
  cases ts with
  | nil => cases h₂
  | cons t ts =>
    rw [List.length_cons] at hn hm
    simp only [List.head?_cons, Option.map_some] at h₂
    cases ht : t.lexeme with
    | literal value =>
      simp only [ht] at h₂
      obtain ⟨t', mid, h₃, h₄⟩ := bind_eq_ok.1 h₂
      cases h₃
      cases h₄
      exact ⟨.literal value, [.literal value], ht ▸ .one t _, .literal value⟩
    | identifier i =>
      simp only [ht] at h₂
      obtain ⟨t', mid, h₃, h₄⟩ := bind_eq_ok.1 h₂
      cases h₃
      obtain ⟨called, mid, h₅, h₆⟩ := bind_eq_ok.1 h₄
      cases called with
      | false =>
        obtain ⟨rfl, -⟩ := skip_eq_false.1 h₅
        cases h₆
        exact ⟨.name i, [.identifier i], ht ▸ .one t _, .name i⟩
      | true =>
        obtain ⟨p, hp, rfl⟩ := skip_eq_true.1 h₅
        rw [Token.kind_eq_symbol] at hp
        rw [List.length_cons] at hn hm
        obtain ⟨es, mid', h₇, h₈⟩ := bind_eq_ok.1 h₆
        cases h₈
        obtain ⟨hes, parts, ls, hlen, hparts, hbroken, htook⟩ :=
          listItems_reads (fun _ _ => Expr.Spelled.ne_nil) (listItem_reads hr .rparen .argument)
            (by omega) (by omega) h₇
        refine ⟨.call hes, _, ?_, .call hlen hparts hbroken⟩
        rw [← ht, ← hp]
        exact htook.cons.cons
    | symbol s =>
      simp only [ht] at h₂
      cases s with
      | lparen =>
        obtain ⟨t', mid, h₃, h₄⟩ := bind_eq_ok.1 h₂
        cases h₃
        obtain ⟨inner, mid, h₅, h₆⟩ := bind_eq_ok.1 h₄
        obtain ⟨hi, ls, htook, hls⟩ := hr (by omega) h₅
        obtain ⟨u, mid', h₇, h₈⟩ := bind_eq_ok.1 h₆
        cases h₈
        obtain ⟨c, hc, rfl⟩ := expect_eq_ok.1 h₇
        rw [Token.kind_eq_symbol] at hc
        refine ⟨.group hi, _, ?_, .group hls⟩
        rw [← ht, ← hc]
        exact (htook.trans (.one c rest)).cons
      | lbracket =>
        obtain ⟨t', mid, h₃, h₄⟩ := bind_eq_ok.1 h₂
        cases h₃
        obtain ⟨es, mid, h₅, h₆⟩ := bind_eq_ok.1 h₄
        cases h₆
        obtain ⟨hes, parts, ls, hlen, hparts, hbroken, htook⟩ :=
          listItems_reads (fun _ _ => Expr.Spelled.ne_nil) (listItem_reads hr .rbracket .element)
            (by omega) (by omega) h₅
        refine ⟨.array hes, _, ?_, .array hlen hparts hbroken⟩
        rw [← ht]
        exact htook.cons
      | _ => cases h₂
    | _ =>
      simp only [ht] at h₂
      cases h₂

theorem atomOver_reads (hr : Reads n .whole nested) :
    Reads (n + 1) (.rows []) (atomOver nested (n + 1)) := by
  intro ends ts e rest hn h
  obtain ⟨base, mid, h₁, h₂⟩ := bind_eq_ok.1 h
  obtain ⟨hb, bs, htook, hbs⟩ := primary_reads hr hn hn h₁
  have hlen := htook.length_le
  obtain ⟨he, ls, htook', hls⟩ := indices_reads hr hb hbs (by omega) h₂
  exact ⟨he, bs ++ ls, htook.trans htook', hls⟩

theorem expressionOver_reads (hr : Reads n .whole nested) :
    Reads (n + 1) .whole (expressionOver nested (n + 1)) := by
  intro ends ts e rest hn h
  obtain ⟨condition, mid, h₁, h₂⟩ := bind_eq_ok.1 h
  obtain ⟨hc, cs, htook, hcs⟩ := climb_reads (atomOver_reads hr) (n + 1) precedence hn h₁
  have hlen := htook.length_le
  obtain ⟨asked, mid', h₃, h₄⟩ := bind_eq_ok.1 h₂
  cases asked with
  | false =>
    obtain ⟨rfl, -⟩ := skip_eq_false.1 h₃
    cases h₄
    exact ⟨.operand hc, cs, htook, hcs⟩
  | true =>
    obtain ⟨q, hq, rfl⟩ := skip_eq_true.1 h₃
    rw [Token.kind_eq_symbol] at hq
    rw [List.length_cons] at hlen
    obtain ⟨whenTrue, mid₁, h₅, h₆⟩ := bind_eq_ok.1 h₄
    obtain ⟨ht, ks, htook₁, hks⟩ := hr (by omega) h₅
    have hlen₁ := htook₁.length_le
    obtain ⟨u, mid₂, h₇, h₈⟩ := bind_eq_ok.1 h₆
    obtain ⟨c, hcolon, rfl⟩ := expect_eq_ok.1 h₇
    rw [Token.kind_eq_symbol] at hcolon
    rw [List.length_cons] at hlen₁
    obtain ⟨whenFalse, mid₃, h₉, h₁₀⟩ := bind_eq_ok.1 h₈
    cases h₁₀
    obtain ⟨hf, fs, htook₂, hfs⟩ := hr (by omega) h₉
    refine ⟨.ternary hc ht hf, _, ?_, .ternary hcs hks hfs⟩
    rw [← hq, ← hcolon]
    simpa using htook.trans (htook₁.trans htook₂.cons).cons

end Atoms

/-- The knot is tied on the bound: a nested expression starts behind at least one token. -/
theorem expressionWithin_reads (n : Nat) : Reads n .whole (expressionWithin n) := by
  induction n with
  | zero =>
    intro ends ts e rest hn h
    cases h
  | succ n ih => exact expressionOver_reads ih

theorem expression_reads {e : Expr} (h : expression ends ts = .ok e rest) :
    e.Stands .whole ∧ ∃ ls, Took ts ls rest ∧ e.Spelled ls :=
  expressionWithin_reads ts.length (Nat.le_refl _) h

end Pasture.Grammar
