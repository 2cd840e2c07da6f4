import Pasture.Grammar.Cursor
import Pasture.Proofs.Grammar.ExpressionComplete
import Pasture.Proofs.Grammar.Grouping

/-! # Expressions between two places of a stream

What an expression takes of a stream is what it spells, and an expression whose lexemes stand in a
stream is what is found there. So the tokens between two places and the tree determine each other.
-/
namespace Pasture

namespace Cursor

variable {α : Type} {p : Parser α} {a : α} {c c' : Cursor} {read left : List Token}

def forward (c : Cursor) (n : Nat) : Cursor := { c with position := c.position + n }

def taken (c c' : Cursor) : List Token := c.tokens.extract c.position c'.position

@[simp] theorem forward_tokens (c : Cursor) (n : Nat) : (c.forward n).tokens = c.tokens := rfl

@[simp] theorem forward_position (c : Cursor) (n : Nat) :
    (c.forward n).position = c.position + n := rfl

theorem length_of_rest (h : c.rest = read ++ left) (hread : read ≠ []) :
    c.tokens.length = c.position + read.length + left.length := by
  have hlen := congrArg List.length h
  have hpos := List.length_pos_iff.2 hread
  simp only [rest, List.length_drop, List.length_append] at hlen
  omega

theorem rest_forward (h : c.rest = read ++ left) : (c.forward read.length).rest = left := by
  have hdrop : c.tokens.drop (c.position + read.length) = c.rest.drop read.length := by
    rw [rest, List.drop_drop]
  rw [rest, forward_tokens, forward_position, hdrop, h, List.drop_left]

theorem taken_forward (h : c.rest = read ++ left) : c.taken (c.forward read.length) = read := by
  have htake : c.taken (c.forward read.length) = c.rest.take read.length := by
    simp [taken, rest]
  rw [htake, h, List.take_left]

/-- A parser that takes the front of what is left moves the cursor behind it. -/
theorem run_of_ok (h : c.rest = read ++ left) (hread : read ≠ [])
    (hp : p (Token.endOf c.tokens) c.rest = .ok a left) :
    c.run p = (.ok a, c.forward read.length) := by
  have hlen := length_of_rest h hread
  have hplace : c.tokens.length - left.length = c.position + read.length := by omega
  simp only [run, hp, hplace]
  rfl

theorem ok_of_run (h : c.run p = (.ok a, c')) :
    ∃ left, p (Token.endOf c.tokens) c.rest = .ok a left := by
  unfold run at h
  cases hp : p (Token.endOf c.tokens) c.rest with
  | ok b left =>
    rw [hp] at h
    cases h
    exact ⟨left, rfl⟩
  | error e left =>
    rw [hp] at h
    cases h

end Cursor

/-- The tokens that an expression takes are its lexemes in order, with line breaks in the item lists
of calls and arrays only, and its operators group as the table of precedence has it. -/
theorem Cursor.expression_takes_yield {c c' : Cursor} {e : Expr}
    (h : c.run Grammar.expression = (.ok e, c')) :
    c'.tokens = c.tokens ∧ c.position < c'.position ∧ c'.position ≤ c.tokens.length ∧
      solid ((c.taken c').map Token.lexeme) = e.yield ∧
      e.Spelled ((c.taken c').map Token.lexeme) ∧ e.isGrouped := by
  obtain ⟨left, hp⟩ := ok_of_run h
  obtain ⟨hstands, ls, ⟨read, hread, rfl⟩, hspelled⟩ := Grammar.expression_reads hp
  have hne : read ≠ [] := by
    rintro rfl
    exact hspelled.ne_nil rfl
  obtain rfl : c.forward read.length = c' := by
    have hrun := run_of_ok hread hne hp
    rw [h] at hrun
    exact (congrArg Prod.snd hrun).symm
  have hlen := length_of_rest hread hne
  have hpos := List.length_pos_iff.2 hne
  rw [taken_forward hread]
  exact ⟨rfl, by simpa using hpos, by simp [hlen], hspelled.solid_eq, hspelled,
    Expr.isGrouped_iff.2 hstands⟩

def signedCall : Cursor where
  tokens := [.symbol .assign, .operator .minus, .identifier (.simple "f"), .symbol .lparen, .newline,
    .identifier (.simple "a"), .newline, .symbol .comma, .literal (.integer 1), .newline,
    .symbol .rparen, .operator .power, .identifier (.simple "b"), .newline].map (Token.plain · none)
  position := 1

theorem signedCall_takes_yield :
    ∃ e c', signedCall.run Grammar.expression = (.ok e, c') ∧
      e = .unary .minus (.binary
        (.call (.simple "f") [.name (.simple "a"), .literal (.integer 1)]) .power
        (.name (.simple "b"))) ∧
      c'.position = 13 ∧ solid ((signedCall.taken c').map Token.lexeme) = e.yield ∧
      e.Spelled ((signedCall.taken c').map Token.lexeme) ∧ e.isGrouped := by
  have hrun : signedCall.run Grammar.expression =
      (.ok (.unary .minus (.binary
        (.call (.simple "f") [.name (.simple "a"), .literal (.integer 1)]) .power
        (.name (.simple "b")))), signedCall.forward 12) := rfl
  obtain ⟨-, -, -, hsolid, hspelled, hgrouped⟩ := Cursor.expression_takes_yield hrun
  exact ⟨_, _, hrun, rfl, rfl, hsolid, hspelled, hgrouped⟩

def Kind.extendsExpression : Kind → Bool
  | .operator | .symbol .question | .symbol .lparen | .symbol .lbracket => true
  | _ => false

theorem Token.endsExpression_of_kind {t : Token} (h : t.kind.extendsExpression = false) :
    t.lexeme.endsExpression := by
  unfold Token.kind at h
  cases hl : t.lexeme with
  | symbol s =>
    rw [hl] at h
    cases s <;> first | rfl | cases h
  | operator op =>
    rw [hl] at h
    cases h
  | _ => rfl

/-- Wherever the lexemes of a grouped expression stand in front of a token with which no expression
goes on, this expression is found and no other token is taken; so no other grouped expression is
written alike. -/
theorem Cursor.expression_at_yield :
    (∀ (c : Cursor) (e : Expr) (ts rest : List Token), e.isGrouped → c.rest = ts ++ rest →
      ts.map Token.lexeme = e.yield → (∀ t ∈ rest.head?, t.kind.extendsExpression = false) →
      c.run Grammar.expression = (.ok e, c.forward ts.length) ∧ (c.forward ts.length).rest = rest) ∧
    ∀ e f : Expr, e.isGrouped → f.isGrouped → e.yield = f.yield → e = f := by
  constructor
  · intro c e ts rest he hc ht hrest
    have hstands := Expr.isGrouped_iff.1 he
    have hspelled : e.Spelled (ts.map Token.lexeme) := ht ▸ hstands.spelled_yield
    have hended : Place.whole.Ended rest :=
      whole_ended fun t h => Token.endsExpression_of_kind (hrest t h)
    have hne : ts ≠ [] := by
      rintro rfl
      exact hspelled.ne_nil rfl
    have hp : Grammar.expression (Token.endOf c.tokens) c.rest = .ok e rest := by
      rw [hc]
      exact Grammar.expression_finds hstands hspelled hended
    exact ⟨run_of_ok hc hne hp, rest_forward hc⟩
  · intro e f he hf h
    exact Grammar.Stands.eq_of_yield_eq (Expr.isGrouped_iff.1 he) (Expr.isGrouped_iff.1 hf) h

def slicedChoice : Expr :=
  .ternary
    (.binary (.binary (.name (.simple "a")) .minus (.name (.simple "b"))) .minus
      (.element (.call (.simple "f") [.name (.simple "x")])
        (.slice none (some (.literal (.integer 2))))))
    (.unary .not (.name (.simple "c"))) (.array [])

theorem slicedChoice_at_yield :
    let ts := slicedChoice.yield.map (Token.plain · none)
    let c : Cursor := { tokens := ts ++ [.plain (.symbol .comma) none] }
    c.run Grammar.expression = (.ok slicedChoice, c.forward ts.length) ∧
      (c.forward ts.length).rest = [.plain (.symbol .comma) none] ∧
      ∀ f : Expr, f.isGrouped → slicedChoice.yield = f.yield → slicedChoice = f := by
  intro ts c
  have hgrouped : slicedChoice.isGrouped := by decide
  have hts : ts.map Token.lexeme = slicedChoice.yield := by
    simp [ts, Function.comp_def, Token.plain]
  obtain ⟨hfound, hunique⟩ := Cursor.expression_at_yield
  obtain ⟨hrun, hrest⟩ :=
    hfound c slicedChoice ts [.plain (.symbol .comma) none] hgrouped rfl hts (by simp [Token.plain,
      Token.kind, Lexeme.kind, Kind.extendsExpression])
  exact ⟨hrun, hrest, fun f hf h => hunique slicedChoice f hgrouped hf h⟩

end Pasture
