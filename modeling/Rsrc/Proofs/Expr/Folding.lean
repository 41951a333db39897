import Rsrc.Eval
import Rsrc.Expr.Read

/-!
# Negated literals

A reader puts a literal in place of a negated integer literal, where the negation is a word. That is
a change of the tree, from the inside out, which no evaluation can tell.
-/

namespace Rsrc

theorem Integer.neg?_eq (n : Int64) :
    Integer.neg? n = if n = Int64.minValue then none else some (-n) := by
  have lower := n.le_toInt
  have upper := n.toInt_lt
  have least : Int64.minValue.toInt = -2 ^ 63 := rfl
  have most : Int64.maxValue.toInt = 2 ^ 63 - 1 := rfl
  rw [Integer.neg?, Integer.ofInt?]
  by_cases h : n = Int64.minValue
  · subst h
    rfl
  · have above : n.toInt ≠ -2 ^ 63 := fun same => h (Int64.toInt_inj.1 (same.trans least.symm))
    rw [if_neg h, if_pos ⟨by omega, by omega⟩, Int64.ofInt_neg, Int64.ofInt_toInt]

namespace Expr

/-- The negation of an expression, which is a literal if that of an integer literal fits. -/
def negated : Expr → Expr
  | .literal (.integer n) =>
    if n = Int64.minValue then .unary .negate (.literal (.integer n))
    else .literal (.integer (-n))
  | e => .unary .negate e

mutual

/-- Literals in place of negated integer literals, from the inside out. -/
def folded : Expr → Expr
  | .literal value => .literal value
  | .var name => .var name
  | .call name arguments => .call name (foldedAll arguments)
  | .unary .negate operand => operand.folded.negated
  | .unary op operand => .unary op operand.folded
  | .binary op left right => .binary op left.folded right.folded

def foldedAll : List Expr → List Expr
  | [] => []
  | e :: es => e.folded :: foldedAll es

end

theorem foldedAll_append (es es' : List Expr) :
    foldedAll (es ++ es') = foldedAll es ++ foldedAll es' := by
  induction es with
  | nil => rfl
  | cons e es ih => rw [List.cons_append, foldedAll, foldedAll, ih, List.cons_append]

/-- What a reader makes of an operator in front of an operand. -/
theorem applyUnary_folded (op : UnaryOp) (operand : Expr) :
    applyUnary op operand.folded = (Expr.unary op operand).folded := by
  cases op with
  | complement => rfl
  | not => rfl
  | negate =>
    rw [folded]
    generalize operand.folded = e
    match e with
    | .literal (.integer n) =>
      rw [applyUnary, negated, Integer.neg?_eq]
      by_cases h : n = Int64.minValue
      · simp [h]
      · simp [h]
    | .literal (.decimal _) | .literal (.percentage _) | .literal (.string _)
    | .literal (.reference _) | .literal (.boolean _) => rfl
    | .var _ | .call _ _ | .unary _ _ | .binary _ _ _ => rfl

variable (call : Caller) (scope : ScopeId)

theorem evaluate_negated (e : Expr) :
    e.negated.evaluate call scope = (Expr.unary .negate e).evaluate call scope := by
  match e with
  | .literal (.integer n) =>
    rw [negated]
    by_cases h : n = Int64.minValue
    · rw [if_pos h]
    · have value : (Value.integer n).unary .negate = .ok (.integer (-n)) := by
        rw [Value.unary, Integer.neg?_eq, if_neg h]
        rfl
      rw [if_neg h]
      funext s
      show EStateM.Result.ok _ s = Eval.ofExcept ((Value.integer n).unary .negate) s
      rw [value]
      rfl
  | .literal (.decimal _) | .literal (.percentage _) | .literal (.string _)
  | .literal (.reference _) | .literal (.boolean _) => rfl
  | .var _ | .call _ _ | .unary _ _ | .binary _ _ _ => rfl

mutual

/-- A folded tree has the value of the tree, or fails in the same way. -/
theorem evaluate_folded : (e : Expr) → e.folded.evaluate call scope = e.evaluate call scope
  | .literal _ | .var _ => rfl
  | .call name arguments => by
    rw [folded, evaluate, evaluate, evaluateAll_folded arguments]
  | .unary .negate operand => by
    rw [folded, evaluate_negated, evaluate, evaluate, evaluate_folded operand]
  | .unary .complement operand | .unary .not operand => by
    simp only [folded, evaluate, evaluate_folded operand]
  | .binary op left right => by
    rw [folded, evaluate, evaluate, evaluate_folded left, evaluate_folded right]

theorem evaluateAll_folded : (es : List Expr) →
    evaluateAll call scope (foldedAll es) = evaluateAll call scope es
  | [] => rfl
  | e :: es => by
    rw [foldedAll, evaluateAll, evaluateAll, evaluate_folded e, evaluateAll_folded es]

end

end Expr

end Rsrc
