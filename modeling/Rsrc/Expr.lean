import Rsrc.Value

/-!
# Expressions and statements

There is no control flow: an expression reads variables, calls routines by name and combines values,
and a statement may bind the value of an expression.
-/

namespace Rsrc

inductive Expr where
  | literal (value : Value)
  | var (name : String)
  | call (name : String) (arguments : List Expr)
  | unary (op : UnaryOp) (operand : Expr)
  | binary (op : BinaryOp) (left right : Expr)
  deriving Repr, Inhabited

/-- `target = expr`, or an expression alone; `origin` is its first lexeme. -/
structure Statement where
  target : Option String := none
  expr : Expr
  origin : Lexeme
  deriving Repr

namespace Expr

mutual

/-- The names of variables that the expression reads, from left to right. -/
def names : Expr → List String
  | literal _ => []
  | var name => [name]
  | call _ arguments => namesAll arguments
  | unary _ operand => operand.names
  | binary _ left right => left.names ++ right.names

def namesAll : List Expr → List String
  | [] => []
  | e :: es => e.names ++ namesAll es

end

/-- The routine that the whole expression calls, if it is a call. -/
def called? : Expr → Option String
  | call name _ => some name
  | _ => none

end Expr

/-- The statement whose value is always `value`. -/
def Statement.constant (value : Value) (origin : Lexeme) : Statement :=
  { expr := .literal value, origin }

end Rsrc
