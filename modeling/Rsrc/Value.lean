import Rsrc.Lexeme
import Rsrc.Decimal.Layout

/-!
# Values

The values that expressions compute, the literals that stand for them, and the operators on them.
-/

namespace Rsrc

inductive Value where
  | integer (n : Int64)
  | decimal (x : Float)
  | percentage (n : Int64)
  | string (text : String)
  | reference (r : Reference)
  | boolean (b : Bool)
  deriving BEq, Repr, Inhabited

inductive UnaryOp where
  | negate
  | complement
  | not
  deriving DecidableEq, Repr

inductive BinaryOp where
  | or
  | xor
  | and
  | shiftLeft
  | shiftRight
  | add
  | subtract
  | multiply
  | divide
  | remainder
  deriving DecidableEq, Repr

def UnaryOp.symbol : UnaryOp → String
  | negate => "-"
  | complement => "~"
  | not => "!"

def BinaryOp.symbol : BinaryOp → String
  | or => "|"
  | xor => "^"
  | and => "&"
  | shiftLeft => "<<"
  | shiftRight => ">>"
  | add => "+"
  | subtract => "-"
  | multiply => "*"
  | divide => "/"
  | remainder => "%"

/-- Why an expression has no value. Operands and arguments are named by their kind. -/
inductive EvalError where
  | unknownVariable (name : String)
  | unknownRoutine (name : String)
  | argumentCount (name : String) (expected found : Nat)
  | invalidOperands (operator left right : String)
  | invalidOperand (operator operand : String)
  | invalidArgument (routine expected found : String)
  | divisionByZero
  | overflow (operator : String)
  | callDepth (name : String)
  deriving DecidableEq, Repr

def EvalError.message : EvalError → String
  | unknownVariable name => s!"Unknown variable {quoted name}"
  | unknownRoutine name => s!"Unknown function {quoted name}"
  | argumentCount name expected found =>
    s!"{quoted name} expects {expected} arguments, but {found} were given"
  | invalidOperands operator left right => s!"Can not apply {quoted operator} to {left} and {right}"
  | invalidOperand operator operand => s!"Can not apply {quoted operator} to {operand}"
  | invalidArgument routine expected found =>
    s!"{quoted routine} expects {expected}, but found {found}"
  | divisionByZero => "Division by zero"
  | overflow operator => s!"Integer overflow in {quoted operator}"
  | callDepth name => s!"Calls of {quoted name} are nested too deeply"

namespace Value

variable (op : BinaryOp)

/-- How the kind of a value is named in a message. -/
def kindName : Value → String
  | integer _ => "an integer"
  | decimal _ => "a decimal"
  | percentage _ => "a percentage"
  | string _ => "a string"
  | reference _ => "a reference"
  | boolean _ => "a boolean"

/-- Integers, percentages and booleans as integers. -/
def asInteger : Value → Option Int64
  | integer n | percentage n => some n
  | boolean b => some (if b then 1 else 0)
  | _ => none

/-- Numbers as decimals. -/
def asDecimal : Value → Option Float
  | decimal x => some x
  | integer n | percentage n => some n.toFloat
  | _ => none

def truthy : Value → Bool
  | integer n | percentage n => n != 0
  | decimal x => x != 0
  | string text => !text.isEmpty
  | reference r => !r.isAny && !r.isAuto
  | boolean b => b

def display : Value → String
  | integer n => toString n.toInt
  | decimal x => Decimal.Layout.display.render x
  | percentage n => toString n.toInt ++ "%"
  | string text => text
  | reference r => r.display
  | boolean b => if b then "true" else "false"

/-! ### Literals -/

/-- The value that a lexeme stands for, if it is a literal. -/
def ofLexeme? (l : Lexeme) : Option Value :=
  match l.kind, l.literal with
  | .integer, some (.integer n) => some (integer n)
  | .percentage, some (.integer n) => some (percentage n)
  | .decimal, some (.decimal x) => some (decimal x)
  | .reference, some (.reference r) => some (reference r)
  | .string, _ => some (string l.text)
  | .identifier, _ =>
    if l.text = "true" then some (boolean true)
    else if l.text = "false" then some (boolean false)
    else none
  | _, _ => none

/-- A literal that stands for the value, placed over `origin`. -/
def toLexeme (v : Value) (origin : Lexeme) : Lexeme :=
  match v with
  | integer n => .placed .integer v.display (some (.integer n)) origin
  | decimal x => .placed .decimal v.display (some (.decimal x)) origin
  | percentage n => .placed .percentage v.display (some (.integer n)) origin
  | string text => .placed .string text none origin
  | reference r => .placed .reference v.display (some (.reference r)) origin
  | boolean _ => .placed .identifier v.display none origin

/-! ### Operators -/

/-- An exact result, or the error for one that does not fit. -/
def orOverflow (operator : String) (result : Option Int64) : Except EvalError Int64 :=
  match result with
  | some n => .ok n
  | none => .error (.overflow operator)

def unary (op : UnaryOp) (v : Value) : Except EvalError Value :=
  match op, v with
  | .negate, integer n => integer <$> orOverflow op.symbol (Integer.neg? n)
  | .negate, percentage n => percentage <$> orOverflow op.symbol (Integer.neg? n)
  | .negate, decimal x => .ok (decimal (-x))
  | .complement, integer n => .ok (integer (~~~n))
  | .not, boolean b => .ok (boolean (!b))
  | .not, integer n => .ok (boolean (n == 0))
  | _, v => .error (.invalidOperand op.symbol v.kindName)

def mismatch (a b : Value) : EvalError :=
  .invalidOperands op.symbol a.kindName b.kindName

/-- The exact result of an operator on integers, `none` if it does not fit. A divisor is not
zero. -/
def integerOp? (a b : Int64) : Option Int64 :=
  match op with
  | .add => Integer.add? a b
  | .subtract => Integer.sub? a b
  | .multiply => Integer.mul? a b
  | .divide => Integer.div? a b
  | .remainder => Integer.rem? a b
  | .and => some (a &&& b)
  | .or => some (a ||| b)
  | .xor => some (a ^^^ b)
  | .shiftLeft => Integer.shiftLeft? a b
  | .shiftRight => Integer.shiftRight? a b

def divides : BinaryOp → Bool
  | .divide | .remainder => true
  | _ => false

/-- An operator on integers and percentages, where only two percentages make a percentage. -/
def integerArithmetic (a b : Value) : Except EvalError Value :=
  let compute (m n : Int64) : Except EvalError Int64 :=
    if divides op && n == 0 then .error .divisionByZero
    else orOverflow op.symbol (integerOp? op m n)
  match a, b with
  | percentage m, percentage n => percentage <$> compute m n
  | integer m, integer n | integer m, percentage n | percentage m, integer n =>
    integer <$> compute m n
  | a, b => .error (mismatch op a b)

/-- An operator on two numbers of which one is a decimal. -/
def decimalArithmetic (a b : Value) : Except EvalError Value :=
  match a.asDecimal, b.asDecimal with
  | some x, some y =>
    match op with
    | .add => .ok (decimal (x + y))
    | .subtract => .ok (decimal (x - y))
    | .multiply => .ok (decimal (x * y))
    | .divide => if y == 0 then .error .divisionByZero else .ok (decimal (x / y))
    | .remainder =>
      if y == 0 then .error .divisionByZero else .ok (decimal (Decimal.remainder x y))
    | _ => .error (mismatch op a b)
  | _, _ => .error (mismatch op a b)

def booleanArithmetic (a b : Bool) : Except EvalError Value :=
  match op with
  | .and => .ok (boolean (a && b))
  | .or => .ok (boolean (a || b))
  | .xor => .ok (boolean (a ^^ b))
  | _ => .error (mismatch op (boolean a) (boolean b))

/-- The operators other than concatenation. An integer shifts the id of a reference. -/
def arithmetic (a b : Value) : Except EvalError Value :=
  match a, b, op with
  | boolean a, boolean b, op => booleanArithmetic op a b
  | reference r, integer n, .add =>
    (fun id => reference { r with id }) <$> orOverflow op.symbol (Integer.add? r.id n)
  | reference r, integer n, .subtract =>
    (fun id => reference { r with id }) <$> orOverflow op.symbol (Integer.sub? r.id n)
  | decimal x, b, op => decimalArithmetic op (decimal x) b
  | a, decimal y, op => decimalArithmetic op a (decimal y)
  | a, b, op => integerArithmetic op a b

/-- Adding a string to anything, on either side, concatenates texts. -/
def binary (a b : Value) : Except EvalError Value :=
  match op, a, b with
  | .add, string s, b => .ok (string (s ++ b.display))
  | .add, a, string t => .ok (string (a.display ++ t))
  | op, a, b => arithmetic op a b

end Value

end Rsrc
