import Pasture.Proofs.Grammar.Derivation

/-! # What the parsers of statements read

A parser of statements that succeeds has taken a derivation of what it gives. Nothing is needed to
bound the streams here: a loop that runs out of rounds fails.
-/
namespace Pasture

/-- The sign of a compound assignment holds an operator that may be fused. -/
def Token.Fits (t : Token) : Prop := ∀ op, t.lexeme = .fused op → op.isAssignable

theorem Expr.expr_of_reference? {e : Expr} {r : Reference} (h : e.reference? = some r) :
    r.expr = e := by
  induction r generalizing e with
  | name i =>
    cases e with
    | name j =>
      cases h
      rfl
    | element base index =>
      obtain ⟨r, -, hr⟩ := Option.map_eq_some_iff.1 h
      cases hr
    | _ => cases h
  | element r index ih =>
    cases e with
    | element base index =>
      obtain ⟨r, hbase, hr⟩ := Option.map_eq_some_iff.1 h
      cases hr
      rw [Reference.expr, ih hbase]
    | _ => cases h

end Pasture

namespace Pasture.Grammar

open Pasture.Parser

variable {n : Nat} {ends : Option Span} {ts rest : List Token} {s : Statement}

def Sliced (ts : List Token) : Prop := ∀ t ∈ ts, t.lexeme ≠ .newline ∧ t.Fits

theorem Sliced.right {read : List Token} (h : Sliced (read ++ rest)) : Sliced rest :=
  fun t ht => h t (List.mem_append_right _ ht)

theorem Sliced.tail {t : Token} (h : Sliced (t :: rest)) : Sliced rest :=
  fun u hu => h u (List.mem_cons_of_mem _ hu)

theorem Sliced.solid (h : Sliced ts) : ∀ t ∈ ts, t.lexeme ≠ .newline := fun t ht => (h t ht).1

theorem unbroken_sliced (h : ∀ t ∈ ts, t.Fits) : Sliced (unbroken ts) := by
  intro t ht
  obtain ⟨hmem, hnew⟩ := List.mem_filter.1 ht
  exact ⟨by simpa using hnew, h t hmem⟩

/-- Without line breaks an expression takes its yield. -/
theorem expression_took {e : Expr} (hts : ∀ t ∈ ts, t.lexeme ≠ .newline)
    (h : expression ends ts = .ok e rest) :
    e.Stands .whole ∧ ∃ read, ts = read ++ rest ∧ read.map Token.lexeme = e.yield := by
  obtain ⟨he, ls, ⟨read, rfl, rfl⟩, hs⟩ := expression_reads h
  refine ⟨he, read, rfl, ?_⟩
  rw [← hs.solid_eq]
  refine (List.filter_eq_self.2 ?_).symm
  intro l hl
  obtain ⟨t, ht, rfl⟩ := List.mem_map.1 hl
  simpa using hts t (List.mem_append_left _ ht)

theorem statementEnd_eq_ok {u : Unit} (h : statementEnd ends ts = .ok u rest) :
    ts = [] ∧ rest = [] := by
  obtain ⟨empty, mid, h₁, h₂⟩ := bind_eq_ok.1 h
  cases h₁
  cases ts with
  | nil =>
    cases h₂
    exact ⟨rfl, rfl⟩
  | cons t ts => cases h₂

theorem result_reads (hts : Sliced ts) (h : result ends ts = .ok s rest) :
    rest = [] ∧ s.Line (.keyword .result :: ts.map Token.lexeme) := by
  obtain ⟨empty, mid, h₁, h₂⟩ := bind_eq_ok.1 h
  cases h₁
  cases ts with
  | nil =>
    cases h₂
    exact ⟨rfl, .bare⟩
  | cons t ts =>
    obtain ⟨e, mid, h₃, h₄⟩ := bind_eq_ok.1 h₂
    obtain ⟨he, read, hread, hyield⟩ := expression_took hts.solid h₃
    obtain ⟨u, mid', h₅, h₆⟩ := bind_eq_ok.1 h₄
    obtain ⟨rfl, rfl⟩ := statementEnd_eq_ok h₅
    cases h₆
    rw [hread, List.append_nil, hyield]
    exact ⟨rfl, .result he⟩

theorem declaration_reads {left : Expr} {c : Token} {isMutable : Bool} (hts : Sliced ts)
    (h : declaration left c isMutable ends ts = .ok s rest) :
    ∃ name type value read, left = .name (.simple name) ∧ value.Stands .whole ∧
      s = .declaration (.simple name) type value isMutable ∧ ts = read ++ rest ∧
      read.map Token.lexeme = .identifier type :: .symbol .assign :: value.yield := by
  unfold declaration at h
  split at h
  · rename_i name
    obtain ⟨type, mid, h₁, h₂⟩ := bind_eq_ok.1 h
    obtain ⟨t, ht, rfl⟩ := identifier_eq_ok.1 h₁
    obtain ⟨u, mid', h₃, h₄⟩ := bind_eq_ok.1 h₂
    obtain ⟨a, ha, rfl⟩ := expect_eq_ok.1 h₃
    rw [Token.kind_eq_symbol] at ha
    obtain ⟨value, later, h₅, h₆⟩ := bind_eq_ok.1 h₄
    obtain ⟨hv, read, rfl, hyield⟩ := expression_took hts.tail.tail.solid h₅
    cases h₆
    exact ⟨name, type, value, t :: a :: read, rfl, hv, rfl, rfl, by simp [ht, ha, hyield]⟩
  · cases h

theorem assignment_reads {left : Expr} {sign : Token} (hts : Sliced ts)
    (h : assignment left sign ends ts = .ok s rest) :
    ∃ target right read, left = Reference.expr target ∧ right.Stands .whole ∧
      s = .assignment target (match sign.lexeme with
        | .fused op => .binary left op right
        | _ => right) ∧ ts = read ++ rest ∧ read.map Token.lexeme = right.yield := by
  unfold assignment at h
  cases htarget : left.reference? with
  | none =>
    simp only [htarget] at h
    cases h
  | some target =>
    simp only [htarget] at h
    obtain ⟨right, mid, h₁, h₂⟩ := bind_eq_ok.1 h
    obtain ⟨hr, read, rfl, hyield⟩ := expression_took hts.solid h₁
    refine ⟨target, right, read, (Expr.expr_of_reference? htarget).symm, hr, ?_⟩
    cases hl : sign.lexeme with
    | fused op =>
      simp only [hl] at h₂ ⊢
      cases h₂
      exact ⟨rfl, rfl, hyield⟩
    | _ =>
      simp only [hl] at h₂ ⊢
      cases h₂
      exact ⟨rfl, rfl, hyield⟩

/-- The first token behind `left` is the sign, and all the others belong to what it announces. -/
theorem signed_reads {left : Expr} {sign : Token} {isMutable : Bool} (hl : left.Stands .whole)
    (hts : Sliced (sign :: ts)) (h : signed left sign isMutable ends ts = .ok s []) :
    s.Line ((if isMutable then [.keyword .mutable] else []) ++
      left.yield ++ sign.lexeme :: ts.map Token.lexeme) := by
  unfold signed at h
  cases hsign : sign.lexeme with
  | symbol b =>
    simp only [hsign] at h
    cases b with
    | colon =>
      obtain ⟨name, type, value, read, rfl, hv, rfl, rfl, hread⟩ := declaration_reads hts.tail h
      simpa [Expr.yield, hread] using Statement.Line.declaration isMutable hv
    | assign =>
      cases isMutable with
      | true => cases h
      | false =>
        obtain ⟨target, right, read, rfl, hr, rfl, rfl, hread⟩ := assignment_reads hts.tail h
        simpa [hsign, hread] using Statement.Line.assignment hl hr
    | _ => cases h
  | fused op =>
    simp only [hsign] at h
    cases isMutable with
    | true => cases h
    | false =>
      obtain ⟨target, right, read, rfl, hr, rfl, rfl, hread⟩ := assignment_reads hts.tail h
      have hop : op.isAssignable := (hts sign List.mem_cons_self).2 op hsign
      simpa [hsign, hread] using Statement.Line.fused hl hop hr
  | _ =>
    simp only [hsign] at h
    cases h

theorem plainStatement_reads {isMutable : Bool} (hts : Sliced ts)
    (h : plainStatement isMutable ends ts = .ok s rest) :
    rest = [] ∧ s.Line ((if isMutable then [.keyword .mutable] else []) ++
      ts.map Token.lexeme) := by
  obtain ⟨left, mid, h₁, h₂⟩ := bind_eq_ok.1 h
  obtain ⟨hl, read, rfl, hyield⟩ := expression_took hts.solid h₁
  obtain ⟨first, mid', h₃, h₄⟩ := bind_eq_ok.1 h₂
  cases h₃
  cases mid with
  | nil =>
    cases isMutable with
    | true => cases h₄
    | false =>
      cases h₄
      exact ⟨rfl, by simpa [hyield] using Statement.Line.expression hl⟩
  | cons sign mid =>
    obtain ⟨t, mid', h₅, h₆⟩ := bind_eq_ok.1 h₄
    cases h₅
    obtain ⟨s', mid'', h₇, h₈⟩ := bind_eq_ok.1 h₆
    obtain ⟨u, later, h₉, h₁₀⟩ := bind_eq_ok.1 h₈
    obtain ⟨rfl, rfl⟩ := statementEnd_eq_ok h₉
    cases h₁₀
    exact ⟨rfl, by simpa [hyield] using signed_reads hl hts.right h₇⟩

theorem simpleStatement_reads (hts : Sliced ts) (h : simpleStatement ends ts = .ok s rest) :
    rest = [] ∧ s.Line (ts.map Token.lexeme) := by
  obtain ⟨returned, mid, h₁, h₂⟩ := bind_eq_ok.1 h
  cases returned with
  | true =>
    obtain ⟨t, ht, rfl⟩ := skip_eq_true.1 h₁
    rw [List.map_cons, Token.kind_eq_keyword.1 ht]
    exact result_reads hts.tail h₂
  | false =>
    obtain ⟨rfl, -⟩ := skip_eq_false.1 h₁
    obtain ⟨isMutable, mid', h₃, h₄⟩ := bind_eq_ok.1 h₂
    cases isMutable with
    | true =>
      obtain ⟨t, ht, rfl⟩ := skip_eq_true.1 h₃
      rw [List.map_cons, Token.kind_eq_keyword.1 ht]
      exact plainStatement_reads hts.tail h₄
    | false =>
      obtain ⟨rfl, -⟩ := skip_eq_false.1 h₃
      exact plainStatement_reads hts h₄

theorem statement_reads (hts : ∀ t ∈ ts, t.Fits) (h : statement ends ts = .ok s rest) :
    ∃ ms, Statement.Derives [s] ms ∧ Laid ts ms rest := by
  obtain ⟨run, mid, h₁, h₂⟩ := bind_eq_ok.1 h
  unfold statementTokens at h₁
  cases hcut : cutStatement 0 ts with
  | none => simp [hcut] at h₁
  | some p =>
    obtain ⟨run', rest'⟩ := p
    simp only [hcut] at h₁
    cases h₁
    obtain ⟨read, after, rfl, rfl, -, hend⟩ := cutStatement_some hcut
    cases hrun : simpleStatement.run (unbroken read) with
    | error e left =>
      simp only [hrun] at h₂
      cases h₂
    | ok s' left =>
      simp only [hrun] at h₂
      cases h₂
      have hread : Sliced (unbroken read) :=
        unbroken_sliced fun t ht => hts t (List.mem_append_left _ ht)
      obtain ⟨-, hline⟩ := simpleStatement_reads hread hrun
      rw [map_unbroken] at hline
      refine ⟨_, .line hline .nil, (Laid.of_took ⟨read, rfl, rfl⟩).trans ?_⟩
      rcases hend with ⟨t, ht, rfl⟩ | ⟨rfl, t, ht, hstop⟩
      · exact .statementEnd (.inl ht) ((Laid.refl _).newline_before ht)
      · obtain ⟨us, rfl⟩ := List.head?_eq_some_iff.1 ht
        exact .statementEnd (.inr hstop) (.refl _)

section Blocks

variable {block : Parser (List Statement)}

def ReadsBlocks (block : Parser (List Statement)) : Prop :=
  ∀ ⦃ends ts body rest⦄, (∀ t ∈ ts, t.Fits) → block ends ts = .ok body rest →
    ∃ ms, Statement.Derives body ms ∧
      Laid ts (.word (.symbol .lbrace) :: ms ++ [.word (.symbol .rbrace)]) rest

theorem expression_laid {e : Expr} (h : expression ends ts = .ok e rest) :
    e.Stands .whole ∧ Laid ts (e.yield.map .word) rest := by
  obtain ⟨he, ls, htook, hs⟩ := expression_reads h
  rw [← hs.solid_eq]
  exact ⟨he, .of_took htook⟩

theorem expect_laid {k : Kind} {l : Lexeme} {what : Expectation} {u : Unit}
    (hk : ∀ t : Token, t.kind = k → t.lexeme = l) (hl : l ≠ .newline)
    (h : expect k what ends ts = .ok u rest) : Laid ts [.word l] rest := by
  obtain ⟨t, ht, rfl⟩ := expect_eq_ok.1 h
  exact .one (hk t ht) hl rest

theorem loopOver_reads (hb : ReadsBlocks block) (hts : ∀ t ∈ ts, t.Fits)
    (h : loopOver block ends ts = .ok s rest) :
    ∃ ms, Statement.Derives [s] ms ∧ Laid ts ms rest := by
  obtain ⟨u, mid, h₁, h₂⟩ := bind_eq_ok.1 h
  have hword := expect_laid (fun t ht => Token.kind_eq_keyword.1 ht) (by simp) h₁
  obtain ⟨condition, mid', h₃, h₄⟩ := bind_eq_ok.1 h₂
  obtain ⟨hc, hcondition⟩ := expression_laid h₃
  have hhead := hword.trans hcondition
  obtain ⟨body, later, h₅, h₆⟩ := bind_eq_ok.1 h₄
  obtain ⟨bs, hbody, hblock⟩ := hb (fun t ht => hts t (hhead.mem ht)) h₅
  cases h₆
  refine ⟨_, .loop hc hbody .nil, ?_⟩
  simpa using hhead.trans hblock

/-- By induction on the bound, for chains of `else if`. -/
theorem branchOver_reads (hb : ReadsBlocks block) (hts : ∀ t ∈ ts, t.Fits)
    (h : branchOver block n ends ts = .ok s rest) :
    (∃ condition body otherwise, s = .branch condition body otherwise) ∧
      ∃ ms, Statement.Derives [s] ms ∧ Laid ts ms rest := by
  induction n generalizing ts s with
  | zero => cases h
  | succ n ih =>
    obtain ⟨u, mid, h₁, h₂⟩ := bind_eq_ok.1 h
    have hword := expect_laid (fun t ht => Token.kind_eq_keyword.1 ht) (by simp) h₁
    obtain ⟨condition, mid', h₃, h₄⟩ := bind_eq_ok.1 h₂
    obtain ⟨hc, hcondition⟩ := expression_laid h₃
    have hhead := hword.trans hcondition
    obtain ⟨body, later, h₅, h₆⟩ := bind_eq_ok.1 h₄
    obtain ⟨bs, hbody, hblock⟩ := hb (fun t ht => hts t (hhead.mem ht)) h₅
    have htaken := hhead.trans hblock
    obtain ⟨follows, left, h₇, h₈⟩ := bind_eq_ok.1 h₆
    cases follows with
    | false =>
      injection h₇ with _ hleft
      subst hleft
      cases h₈
      refine ⟨⟨_, _, _, rfl⟩, _, .branch hc hbody .nil, ?_⟩
      simpa using htaken
    | true =>
      obtain ⟨rfl, e, us, hdrop, he⟩ := elseFollows_eq_true h₇
      have helse := htaken.trans (Laid.newlines left)
      rw [hdrop] at helse
      have htaken' := helse.trans (.one he (by simp) us)
      have hus : ∀ t ∈ us, t.Fits := fun t ht => hts t (htaken'.mem ht)
      obtain ⟨u, left₁, h₉, h₁₀⟩ := bind_eq_ok.1 h₈
      cases h₉
      obtain ⟨t, left₂, h₁₁, h₁₂⟩ := bind_eq_ok.1 h₁₀
      rw [hdrop] at h₁₁
      cases h₁₁
      obtain ⟨isBranch, left₃, h₁₃, h₁₄⟩ := bind_eq_ok.1 h₁₂
      cases h₁₃
      split at h₁₄
      · obtain ⟨inner, left₄, h₁₅, h₁₆⟩ := bind_eq_ok.1 h₁₄
        cases h₁₆
        obtain ⟨⟨condition', body', otherwise', rfl⟩, is, hinner, hlaid⟩ := ih hus h₁₅
        refine ⟨⟨_, _, _, rfl⟩, _, .elseIf hc hbody hinner .nil, ?_⟩
        simpa using htaken'.trans hlaid
      · obtain ⟨other, left₄, h₁₅, h₁₆⟩ := bind_eq_ok.1 h₁₄
        obtain ⟨os, hother, hlaid⟩ := hb hus h₁₅
        cases h₁₆
        refine ⟨⟨_, _, _, rfl⟩, _, .otherwise hc hbody hother .nil, ?_⟩
        simpa using htaken'.trans hlaid

theorem itemOver_reads (hb : ReadsBlocks block) (hts : ∀ t ∈ ts, t.Fits)
    (h : itemOver block n ends ts = .ok s rest) :
    ∃ ms, Statement.Derives [s] ms ∧ Laid ts ms rest := by
  obtain ⟨isBranch, mid, h₁, h₂⟩ := bind_eq_ok.1 h
  cases h₁
  split at h₂
  · exact (branchOver_reads hb hts h₂).2
  · obtain ⟨isLoop, mid, h₃, h₄⟩ := bind_eq_ok.1 h₂
    cases h₃
    split at h₄
    · exact loopOver_reads hb hts h₄
    · exact statement_reads hts h₄

theorem blockItems_reads {m : Nat} {body : List Statement} (hb : ReadsBlocks block)
    (hts : ∀ t ∈ ts, t.Fits) (h : blockItems (itemOver block n) m ends ts = .ok body rest) :
    ∃ ms, Statement.Derives body ms ∧ Laid ts (ms ++ [.word (.symbol .rbrace)]) rest := by
  induction m generalizing ts body with
  | zero => cases h
  | succ m ih =>
    obtain ⟨u, mid, h₁, h₂⟩ := bind_eq_ok.1 h
    cases h₁
    have hnewlines := Laid.newlines ts
    obtain ⟨closed, mid, h₃, h₄⟩ := bind_eq_ok.1 h₂
    cases closed with
    | true =>
      obtain ⟨c, hc, hdrop⟩ := skip_eq_true.1 h₃
      cases h₄
      rw [hdrop] at hnewlines
      exact ⟨[], .nil, hnewlines.trans (.one (Token.kind_eq_symbol.1 hc) (by simp) _)⟩
    | false =>
      obtain ⟨rfl, -⟩ := skip_eq_false.1 h₃
      obtain ⟨ended, mid, h₅, h₆⟩ := bind_eq_ok.1 h₄
      cases h₅
      split at h₆
      · cases h₆
      · obtain ⟨s, mid, h₇, h₈⟩ := bind_eq_ok.1 h₆
        obtain ⟨ms, hs, hitem⟩ := itemOver_reads hb (fun t ht => hts t (hnewlines.mem ht)) h₇
        have htaken := hnewlines.trans hitem
        obtain ⟨body, mid', h₉, h₁₀⟩ := bind_eq_ok.1 h₈
        cases h₁₀
        obtain ⟨ns, hbody, hrest⟩ := ih (fun t ht => hts t (htaken.mem ht)) h₉
        refine ⟨ms ++ ns, hs.append hbody, ?_⟩
        simpa using htaken.trans hrest

theorem blockWithin_reads (n : Nat) : ReadsBlocks (blockWithin n) := by
  induction n with
  | zero =>
    intro ends ts body rest _ h
    cases h
  | succ n ih =>
    intro ends ts body rest hts h
    obtain ⟨u, mid, h₁, h₂⟩ := bind_eq_ok.1 h
    have hopen := expect_laid (fun t ht => Token.kind_eq_symbol.1 ht) (by simp) h₁
    obtain ⟨ms, hbody, hitems⟩ := blockItems_reads ih (fun t ht => hts t (hopen.mem ht)) h₂
    exact ⟨ms, hbody, by simpa using hopen.trans hitems⟩

end Blocks

theorem block_reads : ReadsBlocks block := by
  intro ends ts body rest hts h
  exact blockWithin_reads ts.length hts h

theorem item_reads (hts : ∀ t ∈ ts, t.Fits) (h : item ends ts = .ok s rest) :
    ∃ ms, Statement.Derives [s] ms ∧ Laid ts ms rest := by
  have hover : itemOver Grammar.block ts.length ends ts = .ok s rest := h
  exact itemOver_reads block_reads hts hover

end Pasture.Grammar
