import Pasture.Proofs.Grammar.Grouping
import Pasture.Proofs.Grammar.StatementSound
import Pasture.Proofs.Grammar.Truncation

/-! # Compound assignments

A compound assignment means the assignment it abbreviates: the value is the operation of the target
and the right side, which is one operand however loose it is, as if it stood in parentheses. The
left side of either has to be a name with any number of indices behind it.
-/
namespace Pasture

/-- Atoms may stand on both sides of the operator of a compound assignment. -/
theorem Operator.joins_atoms {op : Operator} (hop : op.isAssignable) :
    op.joins (precedence.length + 1) (precedence.length + 1) := by
  cases op <;> first | decide | cases hop

theorem Reference.tightness_expr (target : Reference) :
    target.expr.tightness = precedence.length + 1 := by
  cases target <;> rfl

namespace Grammar

open Pasture.Parser

variable {ends ends' : Option Span} {l r : Expr} {op : Operator} {target : Reference}
  {ls rs ts more rest : List Token} {sign : Token}

/-- A target and a group stand beside the operator wherever they stand by themselves. -/
theorem expansion_stands (ht : target.expr.Stands .whole) (hr : r.Stands .whole)
    (hop : op.isAssignable) : (Expr.binary target.expr op (.group r)).Stands .whole := by
  have hgroup : (Expr.group r).tightness = precedence.length + 1 := rfl
  rw [← Expr.isGrouped_iff] at ht hr ⊢
  simp only [Expr.isGrouped, Bool.and_eq_true]
  refine ⟨⟨?_, ht⟩, hr⟩
  rw [target.tightness_expr, hgroup]
  exact Operator.joins_atoms hop

theorem expression_takes_all {e : Expr} (h : expression ends ts = .ok e [])
    (hnew : ∀ t ∈ ts, t.lexeme ≠ .newline) :
    e.Stands .whole ∧ ts.map Token.lexeme = e.yield := by
  obtain ⟨hstands, read, hread, hyield⟩ := expression_took hnew h
  rw [List.append_nil] at hread
  exact ⟨hstands, hread ▸ hyield⟩

/-- Only a name with indices behind it is assigned to. -/
theorem simpleStatement_refuses {s : Statement}
    (hsign : sign.lexeme = .symbol .assign ∨ ∃ op, sign.lexeme = .fused op)
    (hl : l.Stands .whole) (hls : ls.map Token.lexeme = l.yield) (hnone : l.reference? = none) :
    simpleStatement ends (ls ++ sign :: more) ≠ .ok s rest := by
  intro h
  obtain ⟨k, ks, hk, ho⟩ := hl.yield_first
  have hfirst : (ls ++ sign :: more).map Token.lexeme =
      k :: (ks ++ sign.lexeme :: more.map Token.lexeme) := by
    simp [hls, hk]
  have hends : sign.lexeme.endsExpression := by
    rcases hsign with hs | ⟨op, hs⟩ <;> simp [hs, Lexeme.endsExpression]
  have hleft : expression ends (ls ++ sign :: more) = .ok l (sign :: more) :=
    expression_yield hl hls (by simpa using hends)
  rw [simpleStatement_plain hfirst ho, plainStatement, bind_of_ok hleft, bind_of_ok current_apply]
    at h
  obtain ⟨t, mid, hadvance, hsigned⟩ := bind_eq_ok.1 h
  obtain ⟨s', mid', hstatement, -⟩ := bind_eq_ok.1 hsigned
  have hassigned : assignment l sign ends mid = .ok s' mid' := by
    rcases hsign with hs | ⟨op, hs⟩ <;> simpa [signed, hs] using hstatement
  simp only [assignment, hnone] at hassigned
  cases hassigned

/-- The cut takes the left side and the sign first. -/
theorem statement_refuses {s : Statement} {k : Lexeme} {ks : List Lexeme}
    (hk : k = .symbol .assign ∨ ∃ op, k = .fused op) (hl : l.Stands .whole)
    (hnone : l.reference? = none) (hts : ts.map Token.lexeme = l.yield ++ k :: ks) :
    statement ends ts ≠ .ok s rest := by
  intro h
  obtain ⟨ls, more, rfl, hls, hmore⟩ := List.map_eq_append_iff.1 hts
  obtain ⟨sign, more, rfl, rfl, -⟩ := List.map_eq_cons_iff.1 hmore
  obtain ⟨run, left, hcut, hrun⟩ := statement_eq_ok.1 h
  have hinline : sign.lexeme.isInline := by
    rcases hk with hs | ⟨op, hs⟩ <;> simp [hs, Lexeme.isInline]
  have hlevel : Level 0 ((ls ++ [sign]).map Token.lexeme) := by
    rw [List.map_append, hls]
    exact (Level.of_spelled hl.spelled_yield 0).append (.cons hinline (.nil 0))
  have hsplit : ls ++ sign :: more = (ls ++ [sign]) ++ more := by simp
  rw [hsplit, hlevel _ _ rfl, Option.map_eq_some_iff] at hcut
  obtain ⟨⟨run', rest'⟩, -, heq⟩ := hcut
  have hsolid : unbroken (ls ++ [sign]) = ls ++ [sign] := by
    refine unbroken_of_solid ?_
    rw [List.map_append, solid_append, hls, hl.solid_yield]
    simp [solid, (Kept.of_isInline hinline).newline]
  have hparts : ls ++ sign :: run' = run := by
    have hkept := congrArg Prod.fst heq
    simpa [hsolid] using hkept
  rw [← hparts] at hrun
  exact simpleStatement_refuses hk hl hls hnone hrun

theorem line_finds {s : Statement} {ks : List Lexeme} (h : s.Line ks)
    (hts : ts.map Token.lexeme = ks ++ [.newline]) : statement ends (ts ++ rest) = .ok s rest := by
  obtain ⟨us, ns, rfl, rfl, hns⟩ := List.map_eq_append_iff.1 hts
  obtain ⟨n, rfl, hn⟩ := List.map_eq_singleton_iff.1 hns
  rw [List.append_assoc]
  exact statement_finds h hn

/-- A compound assignment is accepted if and only if the assignment with its operation written out
is, which is if its left side is a target; both assign to this target. -/
theorem fused_assignment_expands (hl : expression ends ls = .ok l [])
    (hr : expression ends' rs = .ok r []) (hls : ∀ t ∈ ls, t.lexeme ≠ .newline)
    (hrs : ∀ t ∈ rs, t.lexeme ≠ .newline) (hop : op.isAssignable) {fused expanded : List Token}
    (hfused : fused.map Token.lexeme =
      ls.map Token.lexeme ++ .fused op :: rs.map Token.lexeme ++ [.newline])
    (hexpanded : expanded.map Token.lexeme =
      ls.map Token.lexeme ++ .symbol .assign :: ls.map Token.lexeme ++
        .operator op :: .symbol .lparen :: rs.map Token.lexeme ++ [.symbol .rparen, .newline])
    (places places' : Option Span) (rest rest' : List Token) :
    ((∃ s left, statement places (fused ++ rest) = .ok s left) ↔
      ∃ s left, statement places' (expanded ++ rest') = .ok s left) ∧
    ((∃ s left, statement places (fused ++ rest) = .ok s left) ↔
      ∃ target : Reference, l = target.expr) ∧
    ∀ target : Reference, l = target.expr →
      statement places (fused ++ rest) = .ok (.assignment target (.binary l op r)) rest ∧
      statement places' (expanded ++ rest') =
        .ok (.assignment target (.binary l op (.group r))) rest' := by
  obtain ⟨hlstands, hlyield⟩ := expression_takes_all hl hls
  obtain ⟨hrstands, hryield⟩ := expression_takes_all hr hrs
  rw [hlyield, hryield] at hfused hexpanded
  have found (target : Reference) (ht : l = target.expr) :
      statement places (fused ++ rest) = .ok (.assignment target (.binary l op r)) rest ∧
      statement places' (expanded ++ rest') =
        .ok (.assignment target (.binary l op (.group r))) rest' := by
    subst ht
    constructor
    · exact line_finds (.fused hlstands hop hrstands) hfused
    · refine line_finds (.assignment hlstands (expansion_stands hlstands hrstands hop)) ?_
      simpa [Expr.yield] using hexpanded
  cases htarget : l.reference? with
  | some target =>
    have ht : l = target.expr := (Expr.expr_of_reference? htarget).symm
    obtain ⟨hshort, hlong⟩ := found target ht
    exact ⟨⟨fun _ => ⟨_, _, hlong⟩, fun _ => ⟨_, _, hshort⟩⟩,
      ⟨fun _ => ⟨target, ht⟩, fun _ => ⟨_, _, hshort⟩⟩, found⟩
  | none =>
    have hshort (s : Statement) (left : List Token) :
        statement places (fused ++ rest) ≠ .ok s left := by
      have hparts : (fused ++ rest).map Token.lexeme =
          l.yield ++ .fused op :: (r.yield ++ .newline :: rest.map Token.lexeme) := by
        simp [hfused]
      exact statement_refuses (.inr ⟨op, rfl⟩) hlstands htarget hparts
    have hlong (s : Statement) (left : List Token) :
        statement places' (expanded ++ rest') ≠ .ok s left := by
      have hparts : (expanded ++ rest').map Token.lexeme =
          l.yield ++ .symbol .assign :: (l.yield ++ .operator op :: .symbol .lparen ::
            (r.yield ++ .symbol .rparen :: .newline :: rest'.map Token.lexeme)) := by
        simp [hexpanded]
      exact statement_refuses (.inl rfl) hlstands htarget hparts
    have hno : ¬∃ target : Reference, l = target.expr := by
      rintro ⟨target, rfl⟩
      rw [target.reference?_expr] at htarget
      cases htarget
    refine ⟨⟨?_, ?_⟩, ⟨?_, ?_⟩, found⟩
    · rintro ⟨s, left, h⟩
      exact absurd h (hshort s left)
    · rintro ⟨s, left, h⟩
      exact absurd h (hlong s left)
    · rintro ⟨s, left, h⟩
      exact absurd h (hshort s left)
    · intro h
      exact absurd h hno

/-- The operator of the highest row, which groups to the right, with a ternary on its right side. -/
theorem fused_assignment_expands_power :
    let ls := [Lexeme.identifier (.simple "a"), .symbol .lbracket, .literal (.integer 0),
      .symbol .rbracket].map (Token.plain · none)
    let rs := [Lexeme.identifier (.simple "b"), .symbol .question, .identifier (.simple "c"),
      .symbol .colon, .identifier (.simple "d")].map (Token.plain · none)
    let l := Expr.element (.name (.simple "a")) (.single (.literal (.integer 0)))
    let r := Expr.ternary (.name (.simple "b")) (.name (.simple "c")) (.name (.simple "d"))
    let target := Reference.element (.name (.simple "a")) (.single (.literal (.integer 0)))
    let fused := ls ++ .plain (.fused .power) none :: rs ++ [.plain .newline none]
    let expanded := ls ++ .plain (.symbol .assign) none :: ls ++
      .plain (.operator .power) none :: .plain (.symbol .lparen) none :: rs ++
      [.plain (.symbol .rparen) none, .plain .newline none]
    expression none ls = .ok l [] ∧ expression none rs = .ok r [] ∧
      statement none (fused ++ []) = .ok (.assignment target (.binary l .power r)) [] ∧
      statement none (expanded ++ []) =
        .ok (.assignment target (.binary l .power (.group r))) [] := by
  intro ls rs l r target fused expanded
  have hl : expression none ls = .ok l [] := rfl
  have hr : expression none rs = .ok r [] := rfl
  have hls : ∀ t ∈ ls, t.lexeme ≠ .newline := by simp [ls, Token.plain]
  have hrs : ∀ t ∈ rs, t.lexeme ≠ .newline := by simp [rs, Token.plain]
  have hfused : fused.map Token.lexeme =
      ls.map Token.lexeme ++ .fused .power :: rs.map Token.lexeme ++ [.newline] := rfl
  have hexpanded : expanded.map Token.lexeme =
      ls.map Token.lexeme ++ .symbol .assign :: ls.map Token.lexeme ++
        .operator .power :: .symbol .lparen :: rs.map Token.lexeme ++
        [.symbol .rparen, .newline] := rfl
  obtain ⟨-, -, hboth⟩ :=
    fused_assignment_expands hl hr hls hrs rfl hfused hexpanded none none [] []
  exact ⟨hl, hr, hboth target rfl⟩

end Grammar
end Pasture
