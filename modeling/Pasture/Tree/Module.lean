import Pasture.Token.Basic

/-! # Trees

The trees of expressions, statements and modules, and of the references that may be assigned to. Two
trees are alike (`==`) if they have the same shape and alike literals.
-/
namespace Pasture

/-- What stands between the brackets behind an array: one index, or two optional bounds. -/
inductive Index (ε : Type) where
  | single (value : ε)
  | slice (start stop : Option ε)
  deriving BEq, DecidableEq, Repr

inductive Expr where
  | ternary (condition whenTrue whenFalse : Expr)
  | binary (left : Expr) (op : Operator) (right : Expr)
  | unary (op : Operator) (operand : Expr)
  | literal (value : Literal)
  | name (i : Identifier)
  | call (callee : Identifier) (arguments : List Expr)
  | group (inner : Expr)
  | array (elements : List Expr)
  | element (base : Expr) (index : Index Expr)
  deriving BEq, Repr

inductive Reference where
  | name (i : Identifier)
  | element (base : Reference) (index : Index Expr)
  deriving BEq, Repr

/-- The target that an expression denotes: a name with any number of indices behind it. -/
def Expr.reference? : Expr → Option Reference
  | .name i => some (.name i)
  | .element base index => base.reference?.map (.element · index)
  | _ => none

def Reference.expr : Reference → Expr
  | .name i => .name i
  | .element base index => .element base.expr index

theorem Reference.reference?_expr (r : Reference) : r.expr.reference? = some r := by
  induction r with
  | name i => rfl
  | element base index ih => simp [Reference.expr, Expr.reference?, ih]

inductive Statement where
  | declaration (name type : Identifier) (value : Expr) (isMutable : Bool)
  | assignment (target : Reference) (value : Expr)
  | expression (value : Expr)
  | result (value : Option Expr)
  | branch (condition : Expr) (body : List Statement) (otherwise : Option (List Statement))
  | loop (condition : Expr) (body : List Statement)
  deriving BEq, Repr

structure Parameter where
  name : Identifier
  type : Identifier
  deriving BEq, DecidableEq, Repr

structure Function where
  name : Identifier
  parameters : List Parameter
  resultType : Option Identifier
  body : List Statement
  deriving BEq, Repr

/-- The thing called `name` in the module `origin` is called `localName` here. -/
structure Import where
  name : Identifier
  localName : Identifier
  origin : Identifier
  deriving BEq, DecidableEq, Repr

structure Module where
  name : Identifier
  imports : List Import
  functions : List Function
  statements : List Statement
  deriving BEq, Repr

end Pasture
