import Pasture.Proofs.Grammar.ExpressionComplete

/-! # Printed modules

The canonical lexemes of a module: every statement, import and function on a line of its own, every
block in braces. A module is well formed if it could have been written: its expressions agree with
the table of precedence, and so does every assigned value, unless it repeats its target as the left
operand and is written with a fused sign.
-/
namespace Pasture

/-- The operator and the right operand of a value that repeats its target, so that the assignment
is written with a fused sign. -/
def Reference.fused? (target : Reference) : Expr → Option (Operator × Expr)
  | .binary left op right =>
    if op.isAssignable ∧ left.yield = target.expr.yield then some (op, right) else none
  | _ => none

mutual

def Statement.print : Statement → List Lexeme
  | .declaration name type value isMutable =>
    (if isMutable then [.keyword .mutable] else []) ++
      .identifier name :: .symbol .colon :: .identifier type :: .symbol .assign :: value.yield
  | .assignment target value =>
    match target.fused? value with
    | some (op, right) => target.expr.yield ++ .fused op :: right.yield
    | none => target.expr.yield ++ .symbol .assign :: value.yield
  | .expression value => value.yield
  | .result value => .keyword .result :: Expr.yieldBound value
  | .branch condition body otherwise =>
    .keyword .branch :: condition.yield ++ .symbol .lbrace :: printLines body ++
      .symbol .rbrace :: printElse otherwise
  | .loop condition body =>
    .keyword .loop :: condition.yield ++ .symbol .lbrace :: printLines body ++ [.symbol .rbrace]

def Statement.printLines : List Statement → List Lexeme
  | [] => []
  | s :: ss => s.print ++ .newline :: printLines ss

def Statement.printElse : Option (List Statement) → List Lexeme
  | none => []
  | some body => .keyword .otherwise :: .symbol .lbrace :: printLines body ++ [.symbol .rbrace]

end

def Parameter.print (p : Parameter) : List Lexeme :=
  [.identifier p.name, .symbol .colon, .identifier p.type]

def Function.printResult : Option Identifier → List Lexeme
  | none => []
  | some type => [.symbol .colon, .identifier type]

def Function.print (f : Function) : List Lexeme :=
  .keyword .function :: .identifier f.name :: .symbol .lparen ::
    commaJoin (f.parameters.map Parameter.print) ++ .symbol .rparen ::
    Function.printResult f.resultType ++ .symbol .lbrace :: Statement.printLines f.body ++ [.symbol .rbrace]

def Import.print (i : Import) : List Lexeme :=
  [.identifier i.name, .keyword .naming, .identifier i.localName, .keyword .origin,
    .identifier i.origin]

def Import.printBlock : List Import → List Lexeme
  | [] => []
  | imports =>
    .keyword .importing :: .symbol .lbrace :: imports.flatMap (·.print ++ [.newline]) ++
      [.symbol .rbrace]

def Module.print (m : Module) : List Lexeme :=
  Import.printBlock m.imports ++ m.functions.flatMap (·.print ++ [.newline]) ++
    Statement.printLines m.statements ++ [.endOfInput]

inductive Statement.WellFormed : Statement → Prop where
  | declaration {name type value isMutable} : value.Stands .whole →
      WellFormed (.declaration (.simple name) type value isMutable)
  | assignment {target value} : target.expr.Stands .whole → value.Stands .whole →
      WellFormed (.assignment target value)
  | fused {target op right} : target.expr.Stands .whole → op.isAssignable →
      right.Stands .whole → WellFormed (.assignment target (.binary target.expr op right))
  | expression {value} : value.Stands .whole → WellFormed (.expression value)
  | result {value} : (∀ e ∈ value, e.Stands .whole) → WellFormed (.result value)
  | branch {condition body otherwise} : condition.Stands .whole → (∀ s ∈ body, WellFormed s) →
      (∀ block ∈ otherwise, ∀ s ∈ block, WellFormed s) →
      WellFormed (.branch condition body otherwise)
  | loop {condition body} : condition.Stands .whole → (∀ s ∈ body, WellFormed s) →
      WellFormed (.loop condition body)

structure Module.WellFormed (m : Module) : Prop where
  functions : ∀ f ∈ m.functions, ∀ s ∈ f.body, s.WellFormed
  statements : ∀ s ∈ m.statements, s.WellFormed

/-- The sign of a well-formed assignment is fused exactly if the value repeats the target. -/
theorem Reference.fused?_eq_some_iff {target : Reference} {value : Expr} {op : Operator}
    {right : Expr} (h : (Statement.assignment target value).WellFormed) :
    target.fused? value = some (op, right) ↔
      value = .binary target.expr op right ∧ op.isAssignable := by
  constructor
  · intro hsome
    cases value with
    | binary left op' right' =>
      simp only [fused?] at hsome
      split at hsome
      · rename_i hop
        cases hsome
        have hleft : left = target.expr := by
          cases h with
          | assignment ht hv => exact Grammar.Stands.eq_of_yield_eq hv.operands_whole.1 ht hop.2
          | fused => rfl
        exact ⟨by rw [hleft], hop.1⟩
      · cases hsome
    | _ => cases hsome
  · rintro ⟨rfl, hop⟩
    simp [fused?, hop]

def Statement.isSimple : Statement → Bool
  | .branch .. | .loop .. => false
  | _ => true

inductive Statement.Line : Statement → List Lexeme → Prop where
  | declaration {name type value} (isMutable : Bool) : value.Stands .whole →
      Line (.declaration (.simple name) type value isMutable)
        ((if isMutable then [.keyword .mutable] else []) ++
          .identifier (.simple name) :: .symbol .colon :: .identifier type :: .symbol .assign ::
            value.yield)
  | assignment {target value} : target.expr.Stands .whole → value.Stands .whole →
      Line (.assignment target value) (target.expr.yield ++ .symbol .assign :: value.yield)
  | fused {target op right} : target.expr.Stands .whole → op.isAssignable → right.Stands .whole →
      Line (.assignment target (.binary target.expr op right))
        (target.expr.yield ++ .fused op :: right.yield)
  | expression {value} : value.Stands .whole → Line (.expression value) value.yield
  | bare : Line (.result none) [.keyword .result]
  | result {value} : value.Stands .whole →
      Line (.result (some value)) (.keyword .result :: value.yield)

theorem Statement.Line.wellFormed {s : Statement} {ls : List Lexeme} (h : s.Line ls) :
    s.WellFormed := by
  cases h with
  | declaration _ hv => exact .declaration hv
  | assignment ht hv => exact .assignment ht hv
  | fused ht hop hr => exact .fused ht hop hr
  | expression hv => exact .expression hv
  | bare => exact .result (by simp)
  | result hv => exact .result (by simpa using hv)

theorem Statement.WellFormed.assignment_line {target : Reference} {value : Expr}
    (h : (Statement.assignment target value).WellFormed) :
    (Statement.assignment target value).Line (Statement.assignment target value).print := by
  have ht : target.expr.Stands .whole := by
    cases h with
    | assignment ht _ => exact ht
    | fused ht _ _ => exact ht
  cases hf : target.fused? value with
  | some p =>
    obtain ⟨rfl, hop⟩ := (Reference.fused?_eq_some_iff h).1 hf
    have hr : p.2.Stands .whole := by
      cases h with
      | assignment _ hv => exact hv.operands_whole.2
      | fused _ _ hr => exact hr
    simpa [Statement.print, hf] using Statement.Line.fused ht hop hr
  | none =>
    have hv : value.Stands .whole := by
      cases h with
      | assignment _ hv => exact hv
      | fused ht hop hr =>
        rw [(Reference.fused?_eq_some_iff (.fused ht hop hr)).2 ⟨rfl, hop⟩] at hf
        cases hf
    simpa [Statement.print, hf] using Statement.Line.assignment ht hv

theorem Statement.WellFormed.line {s : Statement} (h : s.WellFormed) (hs : s.isSimple) :
    s.Line s.print := by
  cases h with
  | @declaration name type value isMutable hv =>
    simpa [print] using Statement.Line.declaration isMutable hv
  | assignment ht hv => exact (WellFormed.assignment ht hv).assignment_line
  | fused ht hop hr => exact (WellFormed.fused ht hop hr).assignment_line
  | expression hv => exact .expression hv
  | @result value hv =>
    cases value with
    | none => exact .bare
    | some e => exact .result (hv e rfl)
  | branch | loop => cases hs

end Pasture
