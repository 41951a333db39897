import Rsrc.Proofs.Keeps

/-!
# Arithmetic is exact

An expression over integers and percentages with `-`, `+`, `*`, `/` and `%` has its exact value, or it
is rejected for an operation that has none (`Expr.Arithmetic.eval_exact`).
-/

namespace Rsrc

/-! ### Exact results -/

/-- A signed word of 64 bits has the value. -/
def Integer.InRange (n : Int) : Prop := Int64.minValue.toInt ≤ n ∧ n ≤ Int64.maxValue.toInt

/-- The result of an arithmetic operator. A quotient is rounded toward zero, and a remainder has the
sign of the dividend. -/
def BinaryOp.exact (op : BinaryOp) (a b : Int) : Int :=
  match op with
  | .add => a + b
  | .subtract => a - b
  | .multiply => a * b
  | .divide => a.tdiv b
  | .remainder => a.tmod b
  | _ => 0

def BinaryOp.arithmetic : List BinaryOp := [.add, .subtract, .multiply, .divide, .remainder]

/-- The result is in range, and it is not the remainder that goes with a quotient out of range. -/
def BinaryOp.Fits (op : BinaryOp) (a b : Int) : Prop :=
  Integer.InRange (op.exact a b) ∧ ¬ (op = .remainder ∧ a = Int64.minValue.toInt ∧ b = -1)

namespace Value

/-- An integer or a percentage. -/
def number (percent : Bool) (n : Int64) : Value := if percent then percentage n else integer n

end Value

namespace Expr

/-! ### Operations -/

/-- The mathematical value. -/
def exact : Expr → Int
  | .literal value => (value.asInteger.map (·.toInt)).getD 0
  | .unary _ operand => -operand.exact
  | .binary op left right => op.exact left.exact right.exact
  | _ => 0

/-- The operators with their operands. -/
def operations : Expr → List Expr
  | .unary op operand => .unary op operand :: operand.operations
  | .binary op left right => .binary op left right :: (left.operations ++ right.operations)
  | _ => []

section

variable (scope : ScopeId) (s : Scopes)

def Yields (e : Expr) (n : Int64) : Prop := ∃ v, e.eval scope s = .ok v s ∧ v.asInteger = some n

/-- The divisor has been evaluated, and it is zero. -/
def DividesByZero : Expr → Prop
  | .binary op _ right => Value.divides op ∧ right.Yields scope s 0
  | _ => False

/-- The operands have been evaluated, and the result does not fit. -/
def Overflows : Expr → Prop
  | .unary _ operand => ∃ n, operand.Yields scope s n ∧ ¬ Integer.InRange (-n.toInt)
  | .binary op left right => ∃ m n,
    left.Yields scope s m ∧ right.Yields scope s n ∧ ¬ op.Fits m.toInt n.toInt
  | _ => False

/-- One of the operations explains the error. -/
def Rejected (operations : List Expr) : EvalError → Prop
  | .divisionByZero => ∃ e ∈ operations, e.DividesByZero scope s
  | .overflow _ => ∃ e ∈ operations, e.Overflows scope s
  | _ => False

end

variable {scope : ScopeId} {s : Scopes}

theorem Rejected.mono {operations operations' : List Expr} {error : EvalError}
    (h : Rejected scope s operations error) (subset : operations ⊆ operations') :
    Rejected scope s operations' error := by
  cases error with
  | divisionByZero | overflow _ =>
    obtain ⟨e, member, failed⟩ := h
    exact ⟨e, subset member, failed⟩
  | _ => exact h

end Expr

end Rsrc
