import Pasture.Tree.Module

/-! # Outlines

A tree is shown as an outline: a line for the node, below it a line for each field, and below a
field the outlines of what it holds. Names, literals and operators stay on one line.
-/
namespace Pasture

inductive Outline where
  | line (text : String) (below : List Outline)
  deriving Repr

namespace Outline

def leaf (text : String) : Outline := .line text []

def field (name : String) (held : Outline) : Outline := .line (name ++ ":") [held]

def listField (name : String) : List Outline → Outline
  | [] => leaf (name ++ ": []")
  | held => .line (name ++ ":") held

def noField (name : String) : Outline := leaf (name ++ ": " ++ nothingShown)

def optionField (name : String) : Option Outline → Outline
  | none => noField name
  | some held => field name held

def valueField (name value : String) : Outline := leaf (name ++ ": " ++ value)

/-- The lines of an outline, each level two columns further to the right. -/
def lines (depth : Nat) : Outline → List String
  | .line text below => ("".pushn ' ' (2 * depth) ++ text) :: linesBelow (depth + 1) below
where
  linesBelow (depth : Nat) : List Outline → List String
    | [] => []
    | o :: os => lines depth o ++ linesBelow depth os

end Outline

open Outline

def Identifier.outline (i : Identifier) : Outline :=
  leaf ((if i.isSimple then "SimpleIdentifier " else "CompoundIdentifier ") ++ i.text)

def Operator.outline (op : Operator) : Outline := leaf ("Operator '" ++ op.text ++ "'")

def Literal.Form.node : Literal.Form → String
  | integer => "IntegerLit"
  | float => "FloatLit"
  | char => "CharLit"
  | string => "StringLit"
  | boolean => "BooleanLit"
  | none => "NoneLit"

/-- A missing value is shown as a field. -/
def Literal.outline (l : Literal) : Outline :=
  match l, l.shown? with
  | .none, _ => leaf l.form.node
  | _, some shown => leaf (l.form.node ++ " " ++ shown)
  | _, .none => .line l.form.node [noField "value"]

mutual

def Expr.outline : Expr → Outline
  | .ternary condition whenTrue whenFalse =>
    .line "TernaryCondition"
      [field "condition" condition.outline, field "true_value" whenTrue.outline,
        field "false_value" whenFalse.outline]
  | .binary left op right =>
    .line "BinaryOperation"
      [field "left" left.outline, field "operator" op.outline, field "right" right.outline]
  | .unary op operand =>
    .line "UnaryOperation" [field "operator" op.outline, field "operand" operand.outline]
  | .literal value => value.outline
  | .name i => i.outline
  | .call callee arguments =>
    .line "FunctionCall"
      [field "name" callee.outline, listField "parameters" (Expr.outlines arguments)]
  | .group inner => .line "Parenthesized" [field "value" inner.outline]
  | .array elements => .line "ArrayLiteral" [listField "values" (Expr.outlines elements)]
  | .element base index =>
    .line "ArrayIndex" [field "array" base.outline, field "index" (Expr.indexOutline index)]

def Expr.outlines : List Expr → List Outline
  | [] => []
  | e :: es => e.outline :: Expr.outlines es

def Expr.indexOutline : Index Expr → Outline
  | .single value => .line "SingleIndex" [field "value" value.outline]
  | .slice start stop =>
    .line "SliceIndex"
      [optionField "start" (Expr.outline? start), optionField "end" (Expr.outline? stop)]

def Expr.outline? : Option Expr → Option Outline
  | none => none
  | some e => some e.outline

end

def Reference.outline : Reference → Outline
  | .name i => i.outline
  | .element base index =>
    .line "ArrayReference" [field "array" base.outline, field "index" (Expr.indexOutline index)]

def blockOutline (statements : List Outline) : Outline :=
  .line "StatementBlock" [listField "statements" statements]

mutual

def Statement.outline : Statement → Outline
  | .declaration name type value isMutable =>
    .line "DeclarationStatement"
      [field "name" name.outline, field "var_type" type.outline, field "value" value.outline,
        valueField "is_mutable" (flagShown isMutable)]
  | .assignment target value =>
    .line "AssignmentStatement" [field "reference" target.outline, field "value" value.outline]
  | .expression value => .line "ExpressionStatement" [field "value" value.outline]
  | .result value => .line "ReturnStatement" [optionField "value" (Expr.outline? value)]
  | .branch condition body otherwise =>
    .line "ConditionalStatement"
      [field "condition" condition.outline,
        field "body" (blockOutline (Statement.outlines body)),
        optionField "else_body" (Statement.blockOutline? otherwise)]
  | .loop condition body =>
    .line "LoopStatement"
      [field "condition" condition.outline,
        field "body" (blockOutline (Statement.outlines body))]

def Statement.outlines : List Statement → List Outline
  | [] => []
  | s :: ss => s.outline :: Statement.outlines ss

def Statement.blockOutline? : Option (List Statement) → Option Outline
  | none => none
  | some body => some (blockOutline (Statement.outlines body))

end

def Parameter.outline (p : Parameter) : Outline :=
  .line "Parameter" [field "name" p.name.outline, field "param_type" p.type.outline]

def Function.outline (f : Function) : Outline :=
  .line "Function"
    [field "name" f.name.outline, listField "parameters" (f.parameters.map Parameter.outline),
      optionField "return_type" (f.resultType.map Identifier.outline),
      field "body" (blockOutline (Statement.outlines f.body))]

def Import.outline (i : Import) : Outline :=
  .line "Import"
    [field "name" i.name.outline, field "alias" i.localName.outline, field "source" i.origin.outline]

def Module.outline (m : Module) : Outline :=
  .line "Module"
    [field "name" m.name.outline, listField "imports" (m.imports.map Import.outline),
      listField "functions" (m.functions.map Function.outline),
      field "statements" (blockOutline (Statement.outlines m.statements))]

def Span.outline (s : Span) : Outline :=
  .line "Span"
    [valueField "file" (Text.Quoted.encode s.file), valueField "start_line" (toString s.startLine),
      valueField "start_col" (toString s.startColumn), valueField "end_line" (toString s.endLine),
      valueField "end_col" (toString s.endColumn)]

end Pasture
