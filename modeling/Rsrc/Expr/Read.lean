import Rsrc.Cursor
import Rsrc.Expr

/-!
# Reading expressions

Binary operators bind in six layers, each associating to the left; unary operators bind tighter.
A reader is given the lowest layer it may take (`layer`) and climbs from there.

Every step of the mutual recursion spends one unit of `fuel`. At most three steps pass between two
lexemes read, so `3 * unread + 3` units are enough for any input.
-/

namespace Rsrc

/-- The operator that a lexeme of this kind stands for between two operands. -/
def BinaryOp.ofKind? : LexemeKind → Option BinaryOp
  | .pipe => some or
  | .caret => some xor
  | .ampersand => some and
  | .leftShift => some shiftLeft
  | .rightShift => some shiftRight
  | .plus => some add
  | .minus => some subtract
  | .star => some multiply
  | .slash => some divide
  | .percent => some remainder
  | _ => none

/-- The layer of an operator; a higher one binds tighter. -/
def BinaryOp.layer : BinaryOp → Nat
  | or => 1
  | xor => 2
  | and => 3
  | shiftLeft | shiftRight => 4
  | add | subtract => 5
  | multiply | divide | remainder => 6

/-- The operator that a lexeme of this kind stands for in front of an operand. -/
def UnaryOp.ofKind? : LexemeKind → Option UnaryOp
  | .minus => some negate
  | .tilde => some complement
  | .exclaim => some not
  | _ => none

/-- A binary operator of at least the given layer, if one is next. -/
def Cursor.operator? (c : Cursor) (layer : Nat) : Option BinaryOp :=
  (c.peekKind.bind BinaryOp.ofKind?).filter (layer ≤ ·.layer)

/-- Applies a unary operator. A negated integer literal is a literal, if its value fits. -/
def Expr.applyUnary (op : UnaryOp) (operand : Expr) : Expr :=
  match op, operand with
  | .negate, .literal (.integer n) =>
    match Integer.neg? n with
    | some m => .literal (.integer m)
    | none => .unary op operand
  | _, _ => .unary op operand

/-- Reads `.name` as often as it comes, each onto the path. -/
def Reading.pathFrom (path : String) : Nat → Reading String
  | 0 => return path
  | fuel + 1 => do
    if (← get).expects [LexemeKind.dot, LexemeKind.identifier] then
      skip LexemeKind.dot
      let segment ← identifier
      pathFrom (path ++ "." ++ segment.text) fuel
    else return path

/-- Reads names with points between them. -/
def Reading.path : Reading String := do
  let first ← identifier
  pathFrom first.text (← get).unread

namespace Expr

mutual

/-- Reads operands joined by operators of at least the given layer. -/
def readLayer : Nat → Nat → Reading Expr
  | 0, _ => Reading.fail "an expression"
  | fuel + 1, layer => do
    let left ← readUnary fuel
    readOperators fuel layer left

/-- Reads further operators of at least the given layer with their right operands. -/
def readOperators : Nat → Nat → Expr → Reading Expr
  | 0, _, _ => Reading.fail "an expression"
  | fuel + 1, layer, left => do
    match (← get).operator? layer with
    | none => return left
    | some op =>
      modify Cursor.advance
      let right ← readLayer fuel (op.layer + 1)
      readOperators fuel layer (.binary op left right)

/-- Reads an operand behind any number of unary operators. -/
def readUnary : Nat → Reading Expr
  | 0 => Reading.fail "an expression"
  | fuel + 1 => do
    match (← get).peekKind.bind UnaryOp.ofKind? with
    | none => readPrimary fuel
    | some op =>
      modify Cursor.advance
      let operand ← readUnary fuel
      return applyUnary op operand

/-- Reads a literal, a variable, a call or an expression in parentheses. -/
def readPrimary : Nat → Reading Expr
  | 0 => Reading.fail "an expression"
  | fuel + 1 => do
    let some l := (← get).peek | Reading.fail "an expression"
    if let some value := Value.ofLexeme? l then
      modify Cursor.advance
      return .literal value
    match l.kind with
    | .var =>
      modify Cursor.advance
      return .var l.text
    | .identifier =>
      let name ← Reading.path
      if ← Reading.accept LexemeKind.leftParen then
        if ← Reading.accept LexemeKind.rightParen then return .call name []
        return .call name (← readArguments fuel)
      else return .var name
    | .leftParen =>
      modify Cursor.advance
      let inner ← readLayer fuel 0
      Reading.skip LexemeKind.rightParen
      return inner
    | _ => Reading.fail "an expression"

/-- Reads one or more expressions with commas between them, and a closing parenthesis. -/
def readArguments : Nat → Reading (List Expr)
  | 0 => Reading.fail "an expression"
  | fuel + 1 => do
    let first ← readLayer fuel 0
    if ← Reading.accept LexemeKind.comma then return first :: (← readArguments fuel)
    Reading.skip LexemeKind.rightParen
    return [first]

end

/-- Reads an expression. -/
def read : Reading Expr := do readLayer (3 * (← get).unread + 3) 0

end Expr

namespace Statement

/-- Looks past `.name`s for an equals sign. -/
def equalsAfterPath : List Lexeme → Bool
  | dot :: name :: rest =>
    if dot.kind = .dot && name.kind = .identifier then equalsAfterPath rest
    else dot.kind = .equals
  | [l] => l.kind = .equals
  | [] => false

/-- An assignment is next: a path or a variable before an equals sign. -/
def isAssignment : List Lexeme → Bool
  | [] => false
  | l :: rest =>
    match l.kind with
    | .var => rest.head?.any (·.kind = .equals)
    | .identifier => equalsAfterPath rest
    | _ => false

/-- Reads the name that an assignment binds. -/
def readTarget (origin : Lexeme) : Reading String := do
  if origin.kind = .var then
    modify Cursor.advance
    return origin.text
  else Reading.path

def read : Reading Statement := do
  let some origin := (← get).peek | Reading.fail "a statement"
  if isAssignment (← get).rest then
    let target ← readTarget origin
    Reading.skip LexemeKind.equals
    let expr ← Expr.read
    return { target := some target, expr, origin }
  else
    let expr ← Expr.read
    return { expr, origin }

/-- Reads a statement that is all of what is left. -/
def readWhole : Reading Statement := do
  let statement ← read
  if (← get).finished then return statement else Reading.fail "the end of the statement"

end Statement

end Rsrc
