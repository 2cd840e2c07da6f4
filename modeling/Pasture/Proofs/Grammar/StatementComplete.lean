import Pasture.Proofs.Grammar.Printing
import Pasture.Proofs.Grammar.StatementCut

/-! # Statements are found

The lexemes that are printed for a statement are read as that statement. A simple statement is cut
out of the stream by the newline behind it, and a branch or a loop is told by its first word. Blocks
are read within a bound, and the induction is on it: the blocks in a statement are shorter than the
block it stands in.
-/
namespace Pasture

variable {s : Statement} {ls : List Lexeme}

theorem Expr.Stands.solid_yield {place : Place} {e : Expr} (h : e.Stands place) :
    solid e.yield = e.yield :=
  h.spelled_yield.solid_eq

theorem Statement.Line.solid_eq (h : s.Line ls) : solid ls = ls := by
  cases h with
  | declaration isMutable hv => cases isMutable <;> simp [solid_cons, hv.solid_yield]
  | assignment ht hv => simp [solid_cons, ht.solid_yield, hv.solid_yield]
  | fused ht _ hr => simp [solid_cons, ht.solid_yield, hr.solid_yield]
  | expression hv => exact hv.solid_yield
  | bare => rfl
  | result hv => simp [solid_cons, hv.solid_yield]

def Lexeme.opensStatement : Lexeme → Bool
  | .keyword .mutable | .keyword .result | .keyword .branch | .keyword .loop => true
  | l => l.opensExpression

theorem Lexeme.opensStatement_of_expression {l : Lexeme} (h : l.opensExpression) :
    l.opensStatement := by
  cases l with
  | keyword k => cases h
  | _ => exact h

theorem Lexeme.ne_of_opensStatement {l k : Lexeme} (h : l.opensStatement)
    (hk : k.opensStatement = false) : l ≠ k := by
  rintro rfl
  rw [h] at hk
  cases hk

theorem Expr.Stands.yield_first {place : Place} {e : Expr} (h : e.Stands place) :
    ∃ l ks, e.yield = l :: ks ∧ l.opensExpression :=
  h.spelled_yield.first

theorem Statement.Line.first (h : s.Line ls) :
    ∃ l ks, ls = l :: ks ∧ l.opensStatement ∧ l ≠ .keyword .branch ∧ l ≠ .keyword .loop := by
  have after : ∀ {e : Expr} (ks : List Lexeme), e.Stands .whole →
      ∃ l us, e.yield ++ ks = l :: us ∧ l.opensStatement ∧ l ≠ .keyword .branch ∧
        l ≠ .keyword .loop := by
    intro e ks he
    obtain ⟨l, us, hl, ho⟩ := he.yield_first
    refine ⟨l, us ++ ks, by simp [hl], Lexeme.opensStatement_of_expression ho, ?_, ?_⟩
    · rintro rfl
      cases ho
    · rintro rfl
      cases ho
  cases h with
  | declaration isMutable _ => cases isMutable <;> exact ⟨_, _, rfl, rfl, by simp, by simp⟩
  | assignment ht _ => exact after _ ht
  | fused ht _ _ => exact after _ ht
  | expression hv => simpa using after [] hv
  | bare | result => exact ⟨_, _, rfl, rfl, by simp, by simp⟩

theorem Statement.WellFormed.print_first (h : s.WellFormed) :
    ∃ l ks, s.print = l :: ks ∧ l.opensStatement := by
  by_cases hs : s.isSimple
  · obtain ⟨l, ks, hl, ho, -⟩ := (h.line hs).first
    exact ⟨l, ks, hl, ho⟩
  · cases s with
    | branch | loop => exact ⟨_, _, rfl, rfl⟩
    | _ => simp [isSimple] at hs

end Pasture

namespace Pasture.Grammar

open Pasture.Parser

variable {depth n : Nat} {ends : Option Span} {s : Statement} {ls : List Lexeme}
  {ts rest : List Token}

theorem Level.of_line (h : s.Line ls) : Level depth ls := by
  have whole : ∀ {e : Expr}, e.Stands .whole → Level depth e.yield :=
    fun he => .of_spelled he.spelled_yield depth
  cases h with
  | declaration isMutable hv =>
    cases isMutable with
    | false => exact .cons rfl (.cons rfl (.cons rfl (.cons rfl (whole hv))))
    | true => exact .cons rfl (.cons rfl (.cons rfl (.cons rfl (.cons rfl (whole hv)))))
  | assignment ht hv => exact (whole ht).append (.cons rfl (whole hv))
  | fused ht _ hr => exact (whole ht).append (.cons rfl (whole hr))
  | expression hv => exact whole hv
  | bare => exact .cons rfl (.nil depth)
  | result hv => exact .cons rfl (whole hv)

/-- An expression in front of the rest of a simple statement. -/
theorem expression_yield {e : Expr} (he : e.Stands .whole) (ht : ts.map Token.lexeme = e.yield)
    (hrest : ∀ t ∈ rest.head?, t.lexeme.endsExpression) :
    expression ends (ts ++ rest) = .ok e rest :=
  expression_finds he (ht ▸ he.spelled_yield) (whole_ended hrest)

theorem expression_yield_all {e : Expr} (he : e.Stands .whole)
    (ht : ts.map Token.lexeme = e.yield) : expression ends ts = .ok e [] := by
  have h : expression ends (ts ++ []) = .ok e [] := expression_yield he ht (by simp)
  simpa using h

theorem declaration_finds {name : String} {type : Identifier} {value : Expr} {isMutable : Bool}
    {c : Token} (hv : value.Stands .whole)
    (ht : ts.map Token.lexeme = .identifier type :: .symbol .assign :: value.yield) :
    declaration (.name (.simple name)) c isMutable ends ts =
      .ok (.declaration (.simple name) type value isMutable) [] := by
  obtain ⟨t, ts, rfl, htype, ht⟩ := List.map_eq_cons_iff.1 ht
  obtain ⟨a, ts, rfl, ha, ht⟩ := List.map_eq_cons_iff.1 ht
  have hsign : expect (.symbol .assign) .initialiser ends (a :: ts) = .ok () ts :=
    expect_eq_ok.2 ⟨a, by simpa using ha, rfl⟩
  have hvalue : expression ends ts = .ok value [] := expression_yield_all hv ht
  exact (bind_of_ok (identifier_eq_ok.2 ⟨t, htype, rfl⟩)).trans
    ((bind_of_ok hsign).trans (bind_of_ok hvalue))

theorem assignment_finds {target : Reference} {right : Expr} (sign : Token)
    (hr : right.Stands .whole) (ht : ts.map Token.lexeme = right.yield) :
    assignment target.expr sign ends ts =
      .ok (.assignment target (match sign.lexeme with
        | .fused op => .binary target.expr op right
        | _ => right)) [] := by
  have hright : expression ends ts = .ok right [] := expression_yield_all hr ht
  unfold assignment
  rw [Reference.reference?_expr]
  refine (bind_of_ok hright).trans ?_
  cases sign.lexeme <;> rfl

theorem plainStatement_finds {left : Expr} {isMutable : Bool} {us : List Token} {c : Token}
    (hl : left.Stands .whole) (ht : ts.map Token.lexeme = left.yield)
    (hc : c.lexeme.endsExpression) (hs : signed left c isMutable ends us = .ok s []) :
    plainStatement isMutable ends (ts ++ c :: us) = .ok s [] := by
  have hleft : expression ends (ts ++ c :: us) = .ok left (c :: us) :=
    expression_yield hl ht (by simpa using hc)
  rw [plainStatement, bind_of_ok hleft, bind_of_ok current_apply]
  exact (bind_of_ok (advance_eq_ok.2 rfl)).trans (bind_of_ok hs)

theorem simpleStatement_plain {l : Lexeme} {ks : List Lexeme}
    (ht : ts.map Token.lexeme = l :: ks) (hl : l.opensExpression) :
    simpleStatement ends ts = plainStatement false ends ts := by
  obtain ⟨t, ts, rfl, rfl, -⟩ := List.map_eq_cons_iff.1 ht
  have hword : ∀ k, skip (.keyword k) ends (t :: ts) = .ok false (t :: ts) := by
    intro k
    refine skip_eq_false.2 ⟨rfl, ?_⟩
    rintro u ⟨⟩ hk
    rw [Token.kind_eq_keyword.1 hk] at hl
    cases hl
  rw [simpleStatement, bind_of_ok (hword .result)]
  exact bind_of_ok (hword .mutable)

theorem simpleStatement_mutable {v : Token} (hv : v.lexeme = .keyword .mutable) :
    simpleStatement ends (v :: ts) = plainStatement true ends ts := by
  have hresult : skip (.keyword .result) ends (v :: ts) = .ok false (v :: ts) :=
    skip_eq_false.2 ⟨rfl, by simp [hv]⟩
  rw [simpleStatement, bind_of_ok hresult]
  exact bind_of_ok (skip_eq_true.2 ⟨v, by simpa using hv, rfl⟩)

theorem simpleStatement_result {v : Token} (hv : v.lexeme = .keyword .result) :
    simpleStatement ends (v :: ts) = result ends ts := by
  rw [simpleStatement, bind_of_ok (skip_eq_true.2 ⟨v, by simpa using hv, rfl⟩)]
  rfl

theorem plainStatement_declaration {name : String} {type : Identifier} {value : Expr}
    (isMutable : Bool) (hv : value.Stands .whole)
    (ht : ts.map Token.lexeme =
      .identifier (.simple name) :: .symbol .colon :: .identifier type :: .symbol .assign ::
        value.yield) :
    plainStatement isMutable ends ts =
      .ok (.declaration (.simple name) type value isMutable) [] := by
  obtain ⟨t, ts, rfl, hname, ht⟩ := List.map_eq_cons_iff.1 ht
  obtain ⟨c, ts, rfl, hc, ht⟩ := List.map_eq_cons_iff.1 ht
  have hleft : (Expr.name (.simple name)).Stands .whole :=
    (Expr.Stands.name _).whole_of_suffix List.nil_suffix
  have hyield : [t].map Token.lexeme = (Expr.name (.simple name)).yield := by
    simp [Expr.yield, hname]
  refine plainStatement_finds hleft hyield (by simp [hc, Lexeme.endsExpression]) ?_
  simp only [signed, hc]
  exact declaration_finds hv ht

theorem simpleStatement_assignment {target : Reference} {right : Expr} {sign : Token}
    {us : List Token} (hsign : sign.lexeme = .symbol .assign ∨ ∃ op, sign.lexeme = .fused op)
    (htarget : target.expr.Stands .whole) (ht : ts.map Token.lexeme = target.expr.yield)
    (hr : right.Stands .whole) (hu : us.map Token.lexeme = right.yield) :
    simpleStatement ends (ts ++ sign :: us) =
      .ok (.assignment target (match sign.lexeme with
        | .fused op => .binary target.expr op right
        | _ => right)) [] := by
  obtain ⟨l, ks, hl, ho⟩ := htarget.yield_first
  have hfirst : (ts ++ sign :: us).map Token.lexeme = l :: (ks ++ sign.lexeme :: right.yield) := by
    simp [ht, hu, hl]
  rw [simpleStatement_plain hfirst ho]
  refine plainStatement_finds htarget ht ?_ ?_
  · rcases hsign with h | ⟨op, h⟩ <;> simp [h, Lexeme.endsExpression]
  · rcases hsign with h | ⟨op, h⟩ <;> simpa [signed, h] using assignment_finds sign hr hu

/-- A line is read as its statement and taken up as a whole. -/
theorem simpleStatement_finds (h : s.Line (ts.map Token.lexeme)) :
    simpleStatement ends ts = .ok s [] := by
  generalize hls : ts.map Token.lexeme = ls at h
  cases h with
  | declaration isMutable hv =>
    cases isMutable with
    | false =>
      rw [simpleStatement_plain hls rfl]
      exact plainStatement_declaration false hv hls
    | true =>
      obtain ⟨v, ts, rfl, hvar, hts⟩ := List.map_eq_cons_iff.1 hls
      rw [simpleStatement_mutable hvar]
      exact plainStatement_declaration true hv hts
  | assignment ht hv =>
    obtain ⟨ts, us, rfl, hts, hus⟩ := List.map_eq_append_iff.1 hls
    obtain ⟨c, us, rfl, hc, hus⟩ := List.map_eq_cons_iff.1 hus
    simpa [hc] using simpleStatement_assignment (.inl hc) ht hts hv hus
  | fused ht hop hr =>
    obtain ⟨ts, us, rfl, hts, hus⟩ := List.map_eq_append_iff.1 hls
    obtain ⟨c, us, rfl, hc, hus⟩ := List.map_eq_cons_iff.1 hus
    simpa [hc] using simpleStatement_assignment (.inr ⟨_, hc⟩) ht hts hr hus
  | expression hv =>
    obtain ⟨l, ks, hl, ho⟩ := hv.yield_first
    rw [simpleStatement_plain (hls.trans hl) ho, plainStatement,
      bind_of_ok (expression_yield_all hv hls)]
    rfl
  | bare =>
    obtain ⟨v, rfl, hword⟩ := List.map_eq_singleton_iff.1 hls
    rw [simpleStatement_result hword]
    rfl
  | result hv =>
    obtain ⟨v, ts, rfl, hword, hts⟩ := List.map_eq_cons_iff.1 hls
    have hsome : exhausted ends ts = .ok false ts := by
      obtain ⟨l, ks, hl, -⟩ := hv.yield_first
      obtain ⟨t, ts, rfl, -⟩ := List.map_eq_cons_iff.1 (hts.trans hl)
      rfl
    rw [simpleStatement_result hword, result, bind_of_ok hsome]
    exact bind_of_ok (expression_yield_all hv hts)

/-- A line in the stream is read up to the newline behind it, which is taken as well. -/
theorem statement_finds {t : Token} (h : s.Line (ts.map Token.lexeme)) (ht : t.lexeme = .newline) :
    statement ends (ts ++ t :: rest) = .ok s rest := by
  have hcut : cutStatement 0 (ts ++ t :: rest) = some (unbroken ts, rest) := by
    rw [Level.of_line h ts (t :: rest) rfl]
    simp [cutStatement, ht]
  have htokens : statementTokens ends (ts ++ t :: rest) = .ok (unbroken ts) rest := by
    simp [statementTokens, hcut]
  have hline : s.Line ((unbroken ts).map Token.lexeme) := by
    rw [map_unbroken, h.solid_eq]
    exact h
  have hrun : simpleStatement.run (unbroken ts) = .ok s [] := simpleStatement_finds hline
  rw [statement, bind_of_ok htokens]
  simp only [hrun]
  rfl

def NoElse (ts : List Token) : Prop :=
  ∀ t ∈ (ts.dropWhile Token.isNewline).head?, t.lexeme ≠ .keyword .otherwise

theorem noElse_cons_newline {t : Token} (ht : t.lexeme = .newline) (h : NoElse rest) :
    NoElse (t :: rest) := by
  unfold NoElse
  rw [List.dropWhile_cons_of_pos (Token.isNewline_iff.2 ht)]
  exact h

theorem noElse_cons {t : Token} (ht : t.lexeme ≠ .newline) (helse : t.lexeme ≠ .keyword .otherwise)
    (rest : List Token) : NoElse (t :: rest) := by
  unfold NoElse
  rw [List.dropWhile_cons_of_neg (by simpa using ht)]
  simpa using helse

/-- Printed statements do not start with `else`. -/
theorem noElse_lines {body : List Statement} (hbody : ∀ s ∈ body, s.WellFormed)
    (ht : ts.map Token.lexeme = Statement.printLines body) (hrest : NoElse rest) :
    NoElse (ts ++ rest) := by
  cases body with
  | nil =>
    obtain rfl := List.map_eq_nil_iff.1 ht
    exact hrest
  | cons s body =>
    obtain ⟨l, ks, hl, ho⟩ := (hbody s List.mem_cons_self).print_first
    rw [Statement.printLines, hl] at ht
    obtain ⟨t, ts, rfl, rfl, -⟩ := List.map_eq_cons_iff.1 ht
    exact noElse_cons (Lexeme.ne_of_opensStatement ho rfl) (Lexeme.ne_of_opensStatement ho rfl) _

def FindsBlocks (n : Nat) (p : Parser (List Statement)) : Prop :=
  ∀ ⦃ends ts body rest⦄, (∀ s ∈ body, s.WellFormed) →
    ts.map Token.lexeme = .symbol .lbrace :: Statement.printLines body ++ [.symbol .rbrace] →
    ts.length ≤ n → p ends (ts ++ rest) = .ok body rest

section Blocks

variable {block : Parser (List Statement)} {condition : Expr} {body : List Statement}

/-- A condition and the block behind it. -/
theorem head_finds {α : Type} (hb : FindsBlocks n block) (hc : condition.Stands .whole)
    (hbody : ∀ s ∈ body, s.WellFormed)
    (ht : ts.map Token.lexeme = condition.yield ++
      .symbol .lbrace :: Statement.printLines body ++ [.symbol .rbrace])
    (hn : ts.length ≤ n) (next : Expr → List Statement → Parser α) :
    (do let condition ← expression; let body ← block; next condition body : Parser α) ends
        (ts ++ rest) = next condition body ends rest := by
  rw [List.append_assoc] at ht
  obtain ⟨cs, bs, rfl, hcs, hbs⟩ := List.map_eq_append_iff.1 ht
  rw [List.length_append] at hn
  have hblock : block ends (bs ++ rest) = .ok body rest := hb hbody hbs (by omega)
  have hcond : expression ends (cs ++ (bs ++ rest)) = .ok condition (bs ++ rest) := by
    obtain ⟨o, bs, rfl, ho, -⟩ := List.map_eq_cons_iff.1 hbs
    exact expression_yield hc hcs (by simp [ho, Lexeme.endsExpression])
  rw [List.append_assoc, bind_of_ok hcond, bind_of_ok hblock]

theorem loopOver_finds (hb : FindsBlocks n block) (hc : condition.Stands .whole)
    (hbody : ∀ s ∈ body, s.WellFormed)
    (ht : ts.map Token.lexeme = (Statement.loop condition body).print) (hn : ts.length ≤ n) :
    loopOver block ends (ts ++ rest) = .ok (.loop condition body) rest := by
  obtain ⟨w, ts, rfl, hw, hts⟩ := List.map_eq_cons_iff.1 ht
  rw [List.length_cons] at hn
  have hword : expect (.keyword .loop) .loopKeyword ends (w :: (ts ++ rest)) = .ok () (ts ++ rest) :=
    expect_eq_ok.2 ⟨w, by simpa using hw, rfl⟩
  rw [List.cons_append, loopOver, bind_of_ok hword]
  rw [head_finds hb hc hbody (by simpa using hts) (by omega)]
  rfl

theorem branchOver_finds {otherwise : Option (List Statement)} (hb : FindsBlocks n block)
    (hc : condition.Stands .whole) (hbody : ∀ s ∈ body, s.WellFormed)
    (hother : ∀ block ∈ otherwise, ∀ s ∈ block, s.WellFormed)
    (ht : ts.map Token.lexeme = (Statement.branch condition body otherwise).print)
    (hn : ts.length ≤ n) (hrest : NoElse rest) (m : Nat) :
    branchOver block (m + 1) ends (ts ++ rest) = .ok (.branch condition body otherwise) rest := by
  obtain ⟨w, ts, rfl, hw, hts⟩ := List.map_eq_cons_iff.1 ht
  have hsplit : ts.map Token.lexeme = (condition.yield ++
      .symbol .lbrace :: Statement.printLines body ++ [.symbol .rbrace]) ++
        Statement.printElse otherwise := by simpa using hts
  obtain ⟨hs, es, rfl, hhs, hes⟩ := List.map_eq_append_iff.1 hsplit
  simp only [List.length_cons, List.length_append] at hn
  have hword : expect (.keyword .branch) .branchKeyword ends (w :: (hs ++ (es ++ rest))) =
      .ok () (hs ++ (es ++ rest)) := expect_eq_ok.2 ⟨w, by simpa using hw, rfl⟩
  rw [List.cons_append, List.append_assoc, branchOver, bind_of_ok hword,
    head_finds hb hc hbody hhs (by omega)]
  cases otherwise with
  | none =>
    obtain rfl := List.map_eq_nil_iff.1 hes
    have hno : elseFollows ends rest = .ok false rest := by
      simpa [elseFollows, Option.any_eq_false, NoElse] using hrest
    exact bind_of_ok hno
  | some other =>
    obtain ⟨e, es, rfl, he, hes⟩ := List.map_eq_cons_iff.1 hes
    rw [List.length_cons] at hn
    have hyes : elseFollows ends (e :: (es ++ rest)) = .ok true (e :: (es ++ rest)) := by
      simp [elseFollows, he]
    have hskip : skipNewlines ends (e :: (es ++ rest)) = .ok () (e :: (es ++ rest)) := by
      simp [he]
    have hsees : sees (.keyword .branch) ends (es ++ rest) = .ok false (es ++ rest) := by
      obtain ⟨o, es, rfl, ho, -⟩ := List.map_eq_cons_iff.1 hes
      simp [ho]
    have hblock : block ends (es ++ rest) = .ok other rest := hb (hother other rfl) hes (by omega)
    rw [List.cons_append, bind_of_ok hyes]
    refine (bind_of_ok hskip).trans ((bind_of_ok (advance_eq_ok.2 rfl)).trans ?_)
    exact (bind_of_ok hsees).trans (bind_of_ok hblock)

/-- A printed statement is read up to the newline `t` behind it, which is taken with a simple
statement only. -/
theorem itemOver_finds {t : Token} (hb : FindsBlocks n block) (hs : s.WellFormed)
    (hts : ts.map Token.lexeme = s.print) (hn : ts.length ≤ n) (ht : t.lexeme = .newline)
    (hrest : NoElse (t :: rest)) (m : Nat) :
    ∃ left, itemOver block (m + 1) ends (ts ++ t :: rest) = .ok s left ∧
      (left = rest ∨ left = t :: rest) := by
  by_cases hsimple : s.isSimple
  · have hline : s.Line (ts.map Token.lexeme) := by
      rw [hts]
      exact hs.line hsimple
    obtain ⟨l, ks, hl, -, hbranch, hloop⟩ := hline.first
    have hsees : ∀ k, l ≠ .keyword k →
        sees (.keyword k) ends (ts ++ t :: rest) = .ok false (ts ++ t :: rest) := by
      intro k hk
      obtain ⟨u, us, rfl, rfl, -⟩ := List.map_eq_cons_iff.1 hl
      simp [hk]
    refine ⟨rest, ?_, .inl rfl⟩
    rw [itemOver, bind_of_ok (hsees _ hbranch)]
    exact (bind_of_ok (hsees _ hloop)).trans (statement_finds hline ht)
  · refine ⟨t :: rest, ?_, .inr rfl⟩
    cases hs with
    | branch hc hbody hother =>
      have hfound : branchOver block (m + 1) ends (ts ++ t :: rest) = _ :=
        branchOver_finds hb hc hbody hother hts hn hrest m
      obtain ⟨w, us, rfl, hw, -⟩ := List.map_eq_cons_iff.1 hts
      have hsees : sees (.keyword .branch) ends (w :: us ++ t :: rest) =
          .ok true (w :: us ++ t :: rest) := by simp [hw]
      rw [itemOver, bind_of_ok hsees]
      exact hfound
    | loop hc hbody =>
      have hfound : loopOver block ends (ts ++ t :: rest) = _ := loopOver_finds hb hc hbody hts hn
      obtain ⟨w, us, rfl, hw, -⟩ := List.map_eq_cons_iff.1 hts
      have hbranch : sees (.keyword .branch) ends (w :: us ++ t :: rest) =
          .ok false (w :: us ++ t :: rest) := by simp [hw]
      have hloop : sees (.keyword .loop) ends (w :: us ++ t :: rest) =
          .ok true (w :: us ++ t :: rest) := by simp [hw]
      rw [itemOver, bind_of_ok hbranch]
      exact (bind_of_ok hloop).trans hfound
    | _ => simp [Statement.isSimple] at hsimple

theorem blockItems_newline {item : Parser Statement} {t : Token} (ht : t.lexeme = .newline)
    (m : Nat) (rest : List Token) :
    blockItems item (m + 1) ends (t :: rest) = blockItems item (m + 1) ends rest := by
  have hskip : skipNewlines ends (t :: rest) = skipNewlines ends rest := by
    rw [skipNewlines_apply, skipNewlines_apply,
      List.dropWhile_cons_of_pos (Token.isNewline_iff.2 ht)]
  rw [blockItems, bind_apply, bind_apply, hskip]

/-- By induction on the statements: behind each of them the newline is taken by the statement, or
skipped in the next round. -/
theorem blockItems_finds {c : Token} {m k : Nat} (hb : FindsBlocks n block)
    (hbody : ∀ s ∈ body, s.WellFormed) (ht : ts.map Token.lexeme = Statement.printLines body)
    (hc : c.lexeme = .symbol .rbrace) (hn : ts.length ≤ n) (hm : ts.length < m) :
    blockItems (itemOver block (k + 1)) m ends (ts ++ c :: rest) = .ok body rest := by
  obtain ⟨m, rfl⟩ : ∃ j, m = j + 1 := ⟨m - 1, by omega⟩
  induction body generalizing ts m with
  | nil =>
    obtain rfl := List.map_eq_nil_iff.1 ht
    have hskip : skipNewlines ends (c :: rest) = .ok () (c :: rest) := by simp [hc]
    rw [List.nil_append, blockItems, bind_of_ok hskip]
    exact bind_of_ok (skip_eq_true.2 ⟨c, by simpa using hc, rfl⟩)
  | cons s body ih =>
    have hs := hbody s List.mem_cons_self
    have hmore : ∀ s ∈ body, s.WellFormed := fun s h => hbody s (List.mem_cons_of_mem _ h)
    obtain ⟨us, vs, rfl, hus, hvs⟩ := List.map_eq_append_iff.1 ht
    obtain ⟨t, vs, rfl, ht, hvs⟩ := List.map_eq_cons_iff.1 hvs
    simp only [List.length_append, List.length_cons] at hn hm
    obtain ⟨m, rfl⟩ : ∃ j, m = j + 1 := ⟨m - 1, by omega⟩
    have hlast : NoElse (c :: rest) := noElse_cons (by simp [hc]) (by simp [hc]) rest
    have helse : NoElse (t :: (vs ++ c :: rest)) :=
      noElse_cons_newline ht (noElse_lines hmore hvs hlast)
    obtain ⟨left, hitem, hleft⟩ :
        ∃ left, itemOver block (k + 1) ends (us ++ t :: (vs ++ c :: rest)) = .ok s left ∧
          (left = vs ++ c :: rest ∨ left = t :: (vs ++ c :: rest)) :=
      itemOver_finds hb hs hus (by omega) ht helse k
    have hrest : blockItems (itemOver block (k + 1)) (m + 1) ends left = .ok body rest := by
      have hfound := ih hmore hvs (by omega) m (by omega)
      rcases hleft with rfl | rfl
      · exact hfound
      · rw [blockItems_newline ht]
        exact hfound
    -- the first lexeme is neither a newline nor the end of the block or of the input
    obtain ⟨l, ks, hl, ho⟩ := hs.print_first
    obtain ⟨u, us, rfl, rfl, -⟩ := List.map_eq_cons_iff.1 (hus.trans hl)
    simp only [List.append_assoc, List.cons_append] at hitem ⊢
    have hnew : u.lexeme ≠ .newline := Lexeme.ne_of_opensStatement ho rfl
    have hbrace : u.lexeme ≠ .symbol .rbrace := Lexeme.ne_of_opensStatement ho rfl
    have hinput : u.lexeme ≠ .endOfInput := Lexeme.ne_of_opensStatement ho rfl
    have hskip : skipNewlines ends (u :: (us ++ t :: (vs ++ c :: rest))) =
        .ok () (u :: (us ++ t :: (vs ++ c :: rest))) := by simp [hnew]
    have hopen : skip (.symbol .rbrace) ends (u :: (us ++ t :: (vs ++ c :: rest))) =
        .ok false (u :: (us ++ t :: (vs ++ c :: rest))) :=
      skip_eq_false.2 ⟨rfl, by simpa using hbrace⟩
    have hend : atEnd ends (u :: (us ++ t :: (vs ++ c :: rest))) =
        .ok false (u :: (us ++ t :: (vs ++ c :: rest))) := by simp [hinput]
    rw [blockItems, bind_of_ok hskip, bind_of_ok hopen]
    refine (bind_of_ok hend).trans ((bind_of_ok hitem).trans ?_)
    exact bind_of_ok hrest

theorem blockWithin_finds (n : Nat) : FindsBlocks n (blockWithin n) := by
  induction n with
  | zero =>
    intro ends ts body rest _ ht hn
    obtain ⟨o, ts, rfl, -⟩ := List.map_eq_cons_iff.1 ht
    cases hn
  | succ n ih =>
    intro ends ts body rest hbody ht hn
    obtain ⟨os, cs, rfl, hos, hcs⟩ := List.map_eq_append_iff.1 ht
    obtain ⟨o, ts, rfl, ho, hts⟩ := List.map_eq_cons_iff.1 hos
    obtain ⟨c, rfl, hc⟩ := List.map_eq_singleton_iff.1 hcs
    simp only [List.length_append, List.length_cons, List.length_nil] at hn
    obtain ⟨n, rfl⟩ : ∃ j, n = j + 1 := ⟨n - 1, by omega⟩
    have hopen : expect (.symbol .lbrace) .blockOpen ends (o :: (ts ++ c :: rest)) =
        .ok () (ts ++ c :: rest) := expect_eq_ok.2 ⟨o, by simpa using ho, rfl⟩
    simp only [List.append_assoc, List.cons_append, List.nil_append]
    rw [blockWithin, bind_of_ok hopen]
    exact blockItems_finds ih hbody hts hc (by omega) (by omega)

end Blocks

theorem block_finds (n : Nat) : FindsBlocks n block := by
  intro ends ts body rest hbody ht _
  exact blockWithin_finds _ hbody ht (by simp)

end Pasture.Grammar
