import Pasture.Proofs.Grammar.Items
import Pasture.Token.Normal

/-! # Statements and conditions

The tokens of an expression are a statement with a newline behind them and a condition with a block
behind them. In a statement the line breaks in brackets are dropped before the expression is read;
in a condition they are not, and then only those in lists of items are skipped.
-/
namespace Pasture.Grammar

open Pasture.Parser

variable {ends : Option Span} {s : Statement} {e : Expr} {ts rest : List Token}
  {branchWord loopWord opening closing newline ending : Token}

/-! ### Statements that are an expression -/

section Gives

variable {α β : Type} {P : α → Prop}

def Gives (P : α → Prop) (p : Parser α) : Prop :=
  ∀ ⦃ends ts a rest⦄, p ends ts = .ok a rest → P a

theorem Gives.bind {p : Parser β} {f : β → Parser α} (hf : ∀ b, Gives P (f b)) :
    Gives P (p >>= f) := by
  intro ends ts a rest h
  obtain ⟨b, mid, -, hfb⟩ := bind_eq_ok.1 h
  exact hf b hfb

theorem pure_gives {a : α} (ha : P a) : Gives P (pure a) := by
  intro ends ts b rest h
  cases h
  exact ha

theorem refuse_gives (t : Option Token) (c : Complaint) (suggestions : List Suggestion) :
    Gives P (refuse t c suggestions) := by
  intro ends ts a rest h
  cases h

/-- What follows a sign makes no statement that is an expression. -/
theorem signed_gives (e : Expr) (left : Expr) (sign : Token) (isMutable : Bool) :
    Gives (· ≠ .expression e) (signed left sign isMutable) := by
  have declared : Gives (· ≠ .expression e) (declaration left sign isMutable) := by
    unfold declaration
    split
    · exact .bind fun _ => .bind fun _ => .bind fun _ => pure_gives Statement.noConfusion
    · exact refuse_gives _ _ _
  have assigned : Gives (· ≠ .expression e) (assignment left sign) := by
    unfold assignment
    split
    · exact refuse_gives _ _ _
    · refine .bind fun right => ?_
      split <;> exact pure_gives Statement.noConfusion
  unfold signed
  split
  · exact declared
  · split
    · exact refuse_gives _ _ _
    · exact assigned
  · split
    · exact refuse_gives _ _ _
    · exact assigned
  · exact refuse_gives _ _ _

theorem result_gives (e : Expr) : Gives (· ≠ .expression e) result := by
  refine .bind fun ended => ?_
  split
  · exact pure_gives Statement.noConfusion
  · exact .bind fun _ => .bind fun _ => pure_gives Statement.noConfusion

end Gives

/-- A statement that is an expression is read as one. -/
theorem simpleStatement_eq_expression
    (h : simpleStatement ends ts = .ok (.expression e) rest) : expression ends ts = .ok e [] := by
  obtain ⟨returned, mid, hskip, hmid⟩ := bind_eq_ok.1 h
  cases returned with
  | true =>
    exact absurd rfl (result_gives e hmid)
  | false =>
    obtain ⟨rfl, -⟩ := skip_eq_false.1 hskip
    obtain ⟨isMutable, mid', hvar, hplain⟩ := bind_eq_ok.1 hmid
    obtain ⟨left, behind, hleft, hbehind⟩ := bind_eq_ok.1 hplain
    rw [bind_of_ok current_apply] at hbehind
    cases behind with
    | nil =>
      cases isMutable with
      | true => cases hbehind
      | false =>
        cases hbehind
        obtain ⟨rfl, -⟩ := skip_eq_false.1 hvar
        exact hleft
    | cons t behind =>
      obtain ⟨u, mid'', -, hsigned⟩ := bind_eq_ok.1 hbehind
      obtain ⟨s', left', hstatement, hend⟩ := bind_eq_ok.1 hsigned
      obtain ⟨v, last, -, hpure⟩ := bind_eq_ok.1 hend
      cases hpure
      exact absurd rfl (signed_gives e left t isMutable hstatement)

/-! ### The same tokens as a condition -/

structure Writes (e : Expr) (ts : List Token) : Prop where
  stands : e.Stands .whole
  solid_eq : solid (ts.map Token.lexeme) = e.yield

theorem Writes.ne_lbrace (h : Writes e ts) {t : Token} (ht : t ∈ ts) :
    t.lexeme ≠ .symbol .lbrace := by
  intro hbrace
  have hmem : t.lexeme ∈ e.yield := by
    rw [← h.solid_eq, solid, List.mem_filter]
    exact ⟨List.mem_map_of_mem ht, by simp [hbrace]⟩
  exact ((Bracketed.of_spelled h.stands.spelled_yield).excludes hmem).2.1 hbrace

/-- Without line breaks nothing stands in the wrong place. -/
theorem Writes.spelled (h : Writes e ts) (hnew : ∀ t ∈ ts, t.lexeme ≠ .newline) :
    e.Spelled (ts.map Token.lexeme) := by
  have hsolid : solid (ts.map Token.lexeme) = ts.map Token.lexeme := by
    rw [solid, List.filter_eq_self]
    simpa using hnew
  rw [← hsolid, h.solid_eq]
  exact h.stands.spelled_yield

/-- A statement that is an expression takes the lexemes of the expression. -/
theorem writes_of_statement (hnewline : newline.lexeme = .newline)
    (h : statement ends (ts ++ [newline, ending]) = .ok (.expression e) [ending]) :
    Writes e ts := by
  obtain ⟨run, left, hcut, hrun⟩ := statement_eq_ok.1 h
  obtain ⟨read, after, hts, rfl, -, hend⟩ := cutStatement_some hcut
  have hread : unbroken read = unbroken ts := by
    rcases hend with ⟨t, -, rfl⟩ | ⟨rfl, -⟩
    · rw [(List.append_inj' hts rfl).1]
    · have hsplit : ts ++ [newline] ++ [ending] = read ++ [ending] := by simpa using hts
      rw [← (List.append_inj' hsplit rfl).1]
      simp [unbroken, Token.isNewline_iff.2 hnewline]
  rw [hread] at hrun
  obtain ⟨hstands, ls, ⟨all, hall, rfl⟩, hspelled⟩ :=
    expression_reads (simpleStatement_eq_expression hrun)
  rw [List.append_nil] at hall
  rw [← hall, map_unbroken] at hspelled
  refine ⟨hstands, ?_⟩
  rw [← hspelled.solid_eq]
  simp [solid]

/-- In front of a brace the tokens are read as an expression if and only if each line break in them
is skipped by a list. -/
theorem Writes.condition_iff (h : Writes e ts) (hopening : opening.lexeme = .symbol .lbrace)
    (e' : Expr) (behind : List Token) :
    (expression ends (ts ++ opening :: rest) = .ok e' behind ∧
        ∃ t ∈ behind.head?, t.lexeme = .symbol .lbrace) ↔
      e' = e ∧ behind = opening :: rest ∧ e.Spelled (ts.map Token.lexeme) := by
  constructor
  · rintro ⟨hread, t, ht, hbrace⟩
    obtain ⟨hstands, ls, ⟨read, hparts, rfl⟩, hspelled⟩ := expression_reads hread
    -- the expression ends at the brace, since it has none, and neither have the tokens
    obtain ⟨rfl, rfl⟩ : read = ts ∧ behind = opening :: rest := by
      rcases List.append_eq_append_iff.1 hparts with ⟨more, rfl, hrest⟩ | ⟨more, rfl, rfl⟩
      · rcases more with - | ⟨u, more⟩
        · exact ⟨List.append_nil ts, hrest.symm⟩
        · obtain ⟨rfl, -⟩ := List.cons_eq_cons.1 hrest
          have hmem : opening.lexeme ∈ (ts ++ opening :: more).map Token.lexeme :=
            List.mem_map_of_mem (by simp)
          exact absurd hopening ((Bracketed.of_spelled hspelled).excludes hmem).2.1
      · rcases more with - | ⟨u, more⟩
        · exact ⟨(List.append_nil read).symm, rfl⟩
        · cases ht
          exact absurd hbrace (h.ne_lbrace (by simp))
    have hyield : e'.yield = e.yield := hspelled.solid_eq.symm.trans h.solid_eq
    obtain rfl := Stands.eq_of_yield_eq hstands h.stands hyield
    exact ⟨rfl, rfl, hspelled⟩
  · rintro ⟨rfl, rfl, hspelled⟩
    have hends : opening.lexeme.endsExpression := by simp [hopening, Lexeme.endsExpression]
    exact ⟨expression_finds h.stands hspelled (whole_ended_cons hends rest), opening, rfl, hopening⟩

theorem empty_block (hopening : opening.lexeme = .symbol .lbrace)
    (hclosing : closing.lexeme = .symbol .rbrace) :
    block ends (opening :: closing :: rest) = .ok [] rest := by
  have hbraces : [opening, closing].map Token.lexeme =
      .symbol .lbrace :: Statement.printLines [] ++ [.symbol .rbrace] := by
    simp [hopening, hclosing, Statement.printLines]
  exact block_finds 2 (List.forall_mem_nil _) hbraces (Nat.le_refl 2)

section Heads

variable {α : Type} {a : α} {left : List Token}

/-- A condition with an empty block behind it. -/
theorem Writes.head_iff (h : Writes e ts) (hopening : opening.lexeme = .symbol .lbrace)
    (hclosing : closing.lexeme = .symbol .rbrace) (next : Expr → List Statement → Parser α) :
    (do let condition ← expression; let body ← block; next condition body : Parser α) ends
        (ts ++ opening :: closing :: rest) = .ok a left ↔
      e.Spelled (ts.map Token.lexeme) ∧ next e [] ends rest = .ok a left := by
  rw [bind_eq_ok]
  constructor
  · rintro ⟨condition, behind, hcondition, hblock⟩
    obtain ⟨body, mid, hbody, hnext⟩ := bind_eq_ok.1 hblock
    obtain ⟨rfl, rfl, hspelled⟩ := (h.condition_iff hopening _ _).1 ⟨hcondition, block_opens hbody⟩
    cases (empty_block hopening hclosing).symm.trans hbody
    exact ⟨hspelled, hnext⟩
  · rintro ⟨hspelled, hnext⟩
    obtain ⟨hcondition, -⟩ := (h.condition_iff hopening e _).2 ⟨rfl, rfl, hspelled⟩
    exact ⟨e, _, hcondition, (bind_of_ok (empty_block hopening hclosing)).trans hnext⟩

theorem Writes.loop_iff (h : Writes e ts) (hloop : loopWord.lexeme = .keyword .loop)
    (hopening : opening.lexeme = .symbol .lbrace) (hclosing : closing.lexeme = .symbol .rbrace) :
    loop ends (loopWord :: (ts ++ opening :: closing :: rest)) = .ok s left ↔
      e.Spelled (ts.map Token.lexeme) ∧ s = .loop e [] ∧ left = rest := by
  have hword : expect (.keyword .loop) .loopKeyword ends
      (loopWord :: (ts ++ opening :: closing :: rest)) =
        .ok () (ts ++ opening :: closing :: rest) :=
    expect_eq_ok.2 ⟨loopWord, by simpa using hloop, rfl⟩
  rw [loop, loopOver, bind_of_ok hword, h.head_iff hopening hclosing]
  refine and_congr_right fun _ => ?_
  constructor
  · intro hpure
    cases hpure
    exact ⟨rfl, rfl⟩
  · rintro ⟨rfl, rfl⟩
    rfl

theorem Writes.branch_iff (h : Writes e ts) (hbranch : branchWord.lexeme = .keyword .branch)
    (hopening : opening.lexeme = .symbol .lbrace) (hclosing : closing.lexeme = .symbol .rbrace)
    (hrest : NoElse rest) :
    branch ends (branchWord :: (ts ++ opening :: closing :: rest)) = .ok s left ↔
      e.Spelled (ts.map Token.lexeme) ∧ s = .branch e [] none ∧ left = rest := by
  have hword : expect (.keyword .branch) .branchKeyword ends
      (branchWord :: (ts ++ opening :: closing :: rest)) =
        .ok () (ts ++ opening :: closing :: rest) :=
    expect_eq_ok.2 ⟨branchWord, by simpa using hbranch, rfl⟩
  rw [branch, List.length_cons, branchOver, bind_of_ok hword, h.head_iff hopening hclosing]
  refine and_congr_right fun _ => ?_
  rw [bind_of_ok (elseFollows_eq_false.2 ⟨rfl, hrest⟩)]
  constructor
  · intro hpure
    cases hpure
    exact ⟨rfl, rfl⟩
  · rintro ⟨rfl, rfl⟩
    rfl

end Heads

/-- What is a statement by itself is a condition if and only if each of its line breaks stands
around an item of a list, and then it is the condition of the same expression. Without line breaks
it always is. -/
theorem condition_of_statement (hbranch : branchWord.lexeme = .keyword .branch)
    (hloop : loopWord.lexeme = .keyword .loop)
    (hopening : opening.lexeme = .symbol .lbrace) (hclosing : closing.lexeme = .symbol .rbrace)
    (hnewline : newline.lexeme = .newline) (hending : ending.lexeme = .endOfInput)
    (h : statement.run (ts ++ [newline, ending]) = .ok (.expression e) [ending]) :
    (∀ s left, branch.run (branchWord :: (ts ++ [opening, closing, ending])) = .ok s left ↔
      e.Spelled (ts.map Token.lexeme) ∧ s = .branch e [] none ∧ left = [ending]) ∧
    (∀ s left, loop.run (loopWord :: (ts ++ [opening, closing, ending])) = .ok s left ↔
      e.Spelled (ts.map Token.lexeme) ∧ s = .loop e [] ∧ left = [ending]) ∧
    ((∀ t ∈ ts, t.lexeme ≠ .newline) → e.Spelled (ts.map Token.lexeme)) := by
  have hwrites : Writes e ts := writes_of_statement hnewline h
  have hrest : NoElse [ending] := noElse_cons (by simp [hending]) (by simp [hending]) []
  refine ⟨fun s left => ?_, fun s left => ?_, hwrites.spelled⟩
  · exact hwrites.branch_iff hbranch hopening hclosing hrest
  · exact hwrites.loop_iff hloop hopening hclosing

/-- A call with a line break behind its argument. -/
theorem condition_of_statement_call :
    let ts := [Token.plain (.identifier (.simple "f")) none, .plain (.symbol .lparen) none,
      .plain (.identifier (.simple "a")) none, .plain .newline none, .plain (.symbol .rparen) none]
    let e := Expr.call (.simple "f") [.name (.simple "a")]
    let f := Token.plain .endOfInput none
    let braces := [Token.plain (.symbol .lbrace) none, .plain (.symbol .rbrace) none, f]
    statement.run (ts ++ [.plain .newline none, f]) = .ok (.expression e) [f] ∧
      branch.run (.plain (.keyword .branch) none :: (ts ++ braces)) = .ok (.branch e [] none) [f] ∧
      loop.run (.plain (.keyword .loop) none :: (ts ++ braces)) = .ok (.loop e []) [f] := by
  intro ts e f braces
  have hstatement : statement.run (ts ++ [.plain .newline none, f]) = .ok (.expression e) [f] := rfl
  have hlist : Broken [[.identifier (.simple "a")]] [.identifier (.simple "a"), .newline] :=
    .last .nil (by simp [Breaks])
  have hspelled : e.Spelled (ts.map Token.lexeme) := by
    refine .call rfl (fun p hp => ?_) hlist
    obtain rfl := List.mem_singleton.1 hp
    exact .name _
  have hbranch : (Token.plain (.keyword .branch) none).lexeme = .keyword .branch := rfl
  have hloop : (Token.plain (.keyword .loop) none).lexeme = .keyword .loop := rfl
  have hopening : (Token.plain (.symbol .lbrace) none).lexeme = .symbol .lbrace := rfl
  have hclosing : (Token.plain (.symbol .rbrace) none).lexeme = .symbol .rbrace := rfl
  obtain ⟨hasBranch, hasLoop, -⟩ :=
    condition_of_statement hbranch hloop hopening hclosing rfl rfl hstatement
  exact ⟨hstatement, (hasBranch _ _).2 ⟨hspelled, rfl, rfl⟩, (hasLoop _ _).2 ⟨hspelled, rfl, rfl⟩⟩

/-- A line break in front of the closing parenthesis of a group is dropped in a statement, and
refused in a condition. -/
theorem group_no_condition :
    ¬∀ (ts : List Token) (e : Expr), normalise ts = .ok ts →
      statement.run (ts ++ [.plain .newline none, .plain .endOfInput none]) =
        .ok (.expression e) [.plain .endOfInput none] →
      branch.run (.plain (.keyword .branch) none :: (ts ++ [.plain (.symbol .lbrace) none,
          .plain (.symbol .rbrace) none, .plain .endOfInput none])) =
        .ok (.branch e [] none) [.plain .endOfInput none] ∧
      loop.run (.plain (.keyword .loop) none :: (ts ++ [.plain (.symbol .lbrace) none,
          .plain (.symbol .rbrace) none, .plain .endOfInput none])) =
        .ok (.loop e []) [.plain .endOfInput none] := by
  intro h
  obtain ⟨hbranch, -⟩ := h [.plain (.symbol .lparen) none, .plain (.identifier (.simple "a")) none,
    .plain .newline none, .plain (.symbol .rparen) none] (.group (.name (.simple "a"))) rfl rfl
  cases hbranch

end Pasture.Grammar
