import Pasture.Proofs.Grammar.Balance
import Pasture.Proofs.Grammar.Cursor

/-! # Lines of statements

The cut counts brackets without a look at their kinds and drops line breaks while any is open. What
is accepted as a statement has its brackets closed in their kinds, and then the cut has taken no
more than one line: the line breaks it drops stand in brackets.
-/
namespace Pasture

namespace Grammar

variable {stack : List Symbol} {ts run rest : List Token}

/-- A line ends with a newline, or in front of a closing brace or of the end of the input. -/
def LineEnd (ending rest : List Token) : Prop :=
  (∃ t, t.lexeme = .newline ∧ ending = [t]) ∨ ending = [] ∧ Halts rest

theorem LineEnd.unbroken_eq {ending : List Token} (h : LineEnd ending rest) :
    unbroken ending = [] := by
  rcases h with ⟨t, ht, rfl⟩ | ⟨rfl, -⟩
  · simp [unbroken, Token.isNewline_iff.2 ht]
  · rfl

/-- Behind a lexeme that is kept the stack has as many brackets as the cut counts. -/
theorem nested_behind {l : Lexeme} {ls : List Lexeme} (h : Nested stack (l :: ls)) (hl : Kept l) :
    ∃ after : List Symbol, after.length = depthBehind stack.length l ∧ Nested after ls ∧
      ∀ ks, Nested after ks → Nested stack (l :: ks) := by
  cases h with
  | inline hinline hls =>
    exact ⟨stack, (depthBehind_of_isInline hinline).symm, hls, fun _ => .inline hinline⟩
  | newline => exact absurd rfl hl.newline
  | push ho hls => exact ⟨_ :: stack, (depthBehind_opener ho).symm, hls, fun _ => .push ho⟩
  | pop ho hls => exact ⟨_, (depthBehind_closer ho).symm, hls, fun _ => .pop ho⟩

/-- By induction on the cut: its depth is the number of brackets that what it keeps has to close. -/
theorem nested_of_cut (h : Cut stack.length ts run rest)
    (hrun : Nested stack (run.map Token.lexeme)) :
    ∃ read ending, ts = read ++ ending ++ rest ∧ run = unbroken read ∧
      Nested stack (read.map Token.lexeme) ∧ LineEnd ending rest := by
  generalize hdepth : stack.length = depth at h
  induction h generalizing stack with
  | @line t rest hnew => exact ⟨[], [t], rfl, rfl, hrun, .inl ⟨t, hnew, rfl⟩⟩
  | @halt depth t rest hend => exact ⟨[], [], rfl, rfl, hrun, .inr ⟨rfl, t, rfl, hend⟩⟩
  | @«break» depth t ts run rest hnew hopen _ ih =>
    obtain ⟨read, ending, rfl, rfl, hread, hend⟩ := ih hrun hdepth
    have hstack : stack ≠ [] := by
      rintro rfl
      exact hopen hdepth.symm
    refine ⟨t :: read, ending, rfl, ?_, ?_, hend⟩
    · simp [unbroken, Token.isNewline_iff.2 hnew]
    · rw [List.map_cons, hnew]
      exact .newline hstack hread
  | @keep depth t ts run rest hkept _ ih =>
    subst hdepth
    obtain ⟨after, hafter, hbehind, hfront⟩ := nested_behind hrun hkept
    obtain ⟨read, ending, rfl, rfl, hread, hend⟩ := ih hbehind hafter
    refine ⟨t :: read, ending, rfl, ?_, hfront _ hread, hend⟩
    simp [unbroken, Token.isNewline_eq_false.2 hkept.newline]

/-- The tokens of a statement are one line with its end, and the cut keeps all but the newlines. -/
theorem statement_line {ends : Option Span} {s : Statement}
    (h : statement ends ts = .ok s rest) :
    ∃ read ending left, ts = read ++ ending ++ rest ∧ Bracketed false (read.map Token.lexeme) ∧
      LineEnd ending rest ∧ cutStatement 0 ts = some (unbroken (read ++ ending), rest) ∧
      simpleStatement.run (unbroken (read ++ ending)) = .ok s left := by
  obtain ⟨run, left, hcut, hrun⟩ := statement_eq_ok.1 h
  have hkept : Nested [] (run.map Token.lexeme) :=
    nested_nil_iff.2 (simpleStatement_balances hrun).2
  have hsteps : Cut ([] : List Symbol).length ts run rest := cutStatement_eq_some.1 hcut
  obtain ⟨read, ending, hts, rfl, hread, hend⟩ := nested_of_cut hsteps hkept
  have hall : unbroken (read ++ ending) = unbroken read := by
    rw [unbroken_append, hend.unbroken_eq, List.append_nil]
  rw [← hall] at hcut hrun
  exact ⟨read, ending, left, hts, nested_nil_iff.1 hread, hend, hcut, hrun⟩

end Grammar

open Grammar

/-- A statement takes one line: its brackets are closed in their kinds, its line breaks stand in
brackets, and it ends with a newline or in front of a closing brace or of the end of the input. The
slice it is parsed from is what it takes without the newlines. -/
theorem Cursor.statement_takes_line {c c' : Cursor} {s : Statement}
    (h : c.run Grammar.statement = (.ok s, c')) :
    c'.tokens = c.tokens ∧ c.position < c'.position ∧ c'.position ≤ c.tokens.length ∧
      (∃ line ending, c.taken c' = line ++ ending ∧ Bracketed false (line.map Token.lexeme) ∧
        LineEnd ending c'.rest) ∧
      (∀ t ∈ c.taken c', t.lexeme ≠ .symbol .rbrace ∧ t.lexeme ≠ .endOfInput) ∧
      c.run statementTokens = (.ok (unbroken (c.taken c')), c') ∧
      ∃ left, simpleStatement.run (unbroken (c.taken c')) = .ok s left := by
  obtain ⟨rest, hp⟩ := ok_of_run h
  obtain ⟨line, ending, left, hrest, hline, hend, hcut, hrun⟩ := statement_line hp
  have hne : line ++ ending ≠ [] := by
    intro hnone
    rw [hnone] at hrun
    cases hrun
  obtain rfl : c.forward (line ++ ending).length = c' := by
    have hmoved := run_of_ok hrest hne hp
    rw [h] at hmoved
    exact (congrArg Prod.snd hmoved).symm
  have hlen := length_of_rest hrest hne
  have hpos := List.length_pos_iff.2 hne
  have htokens : statementTokens (Token.endOf c.tokens) c.rest =
      .ok (unbroken (line ++ ending)) rest := by
    rw [statementTokens, hcut]
  rw [taken_forward hrest, rest_forward hrest]
  refine ⟨rfl, ?_, ?_, ⟨line, ending, rfl, hline, hend⟩, ?_, run_of_ok hrest hne htokens,
    left, hrun⟩
  · simpa using hpos
  · simp only [forward_position]
    omega
  · intro t ht
    rcases List.mem_append.1 ht with ht | ht
    · obtain ⟨hinput, -, hbrace⟩ := hline.excludes (List.mem_map_of_mem ht)
      exact ⟨hbrace, hinput⟩
    · rcases hend with ⟨u, hu, rfl⟩ | ⟨rfl, -⟩
      · simp [List.mem_singleton.1 ht, hu]
      · cases ht

def brokenCall : Cursor where
  tokens := [.newline, .identifier (.simple "f"), .symbol .lparen, .identifier (.simple "a"),
    .symbol .lbracket, .literal (.integer 0), .newline, .symbol .rbracket, .newline,
    .symbol .rparen, .newline, .identifier (.simple "g"), .endOfInput].map (Token.plain · none)
  position := 1

theorem brokenCall_takes_line :
    ∃ s c', brokenCall.run Grammar.statement = (.ok s, c') ∧ c'.position = 11 ∧
      (∃ line ending, brokenCall.taken c' = line ++ ending ∧
        Bracketed false (line.map Token.lexeme) ∧ LineEnd ending c'.rest) ∧
      brokenCall.run statementTokens = (.ok (unbroken (brokenCall.taken c')), c') := by
  have hrun : brokenCall.run Grammar.statement =
      (.ok (.expression (.call (.simple "f")
        [.element (.name (.simple "a")) (.single (.literal (.integer 0)))])),
        brokenCall.forward 10) := rfl
  obtain ⟨-, -, -, hline, -, htokens, -⟩ := Cursor.statement_takes_line hrun
  exact ⟨_, _, hrun, rfl, hline, htokens⟩

end Pasture
