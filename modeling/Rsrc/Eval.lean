import Rsrc.Scopes

/-!
# Evaluation

Evaluation reads and changes scopes. `Expr.evaluate` is told how calls are answered; a script runs in
a scope of its own, in which its parameters are bound by name and by position, and calls made there
are answered one level deeper.
-/

namespace Rsrc

/-- Computations on scopes. A failure keeps the scopes as they were when it happened. -/
abbrev Eval := EStateM EvalError Scopes

/-- How a call of a name from a scope is answered. -/
abbrev Caller := ScopeId → String → List Value → Eval Value

/-- A computation that reads the scopes only. -/
def Eval.ofExcept {α : Type} (result : Except EvalError α) : Eval α := fun s =>
  match result with
  | .ok a => .ok a s
  | .error e => .error e s

mutual

def Expr.evaluate (call : Caller) (scope : ScopeId) : Expr → Eval Value
  | .literal value => return value
  | .var name => do Eval.ofExcept ((← get).resolve scope name)
  | .call name arguments => do
    let values ← evaluateAll call scope arguments
    call scope name values
  | .unary op operand => do
    let value ← operand.evaluate call scope
    Eval.ofExcept (value.unary op)
  | .binary op left right => do
    let a ← left.evaluate call scope
    let b ← right.evaluate call scope
    Eval.ofExcept (a.binary op b)

/-- The values of expressions from left to right. -/
def evaluateAll (call : Caller) (scope : ScopeId) : List Expr → Eval (List Value)
  | [] => return []
  | e :: es => do
    let value ← e.evaluate call scope
    let values ← evaluateAll call scope es
    return value :: values

end

/-- Evaluates the expression, and binds its value if there is a target. -/
def Statement.execute (call : Caller) (scope : ScopeId) (statement : Statement) : Eval Value := do
  let value ← statement.expr.evaluate call scope
  if let some target := statement.target then modify (·.define scope target value)
  return value

/-- Runs statements in turn; the value is that of the last one, `last` if there are none. -/
def runFrom (call : Caller) (scope : ScopeId) (last : Value) : List Statement → Eval Value
  | [] => return last
  | statement :: rest => do
    let value ← statement.execute call scope
    runFrom call scope value rest

namespace Routine

/-- What a call binds: the `i`-th argument under its parameter's name and under the number `i`,
counted from one. -/
def bindings : (position : Nat) → (parameters : List String) → (arguments : List Value) →
    List (String × Value)
  | _, _, [] => []
  | position, [], value :: values =>
    (toString position, value) :: bindings (position + 1) [] values
  | position, parameter :: parameters, value :: values =>
    (parameter, value) :: (toString position, value) :: bindings (position + 1) parameters values

/-- Runs a script in a fresh scope under the caller's. Once it has run, that scope is gone, and the
watched names that it bound are defined in the caller's scope. -/
def runScript (call : Caller) (r : Routine) (statements : List Statement) (caller : ScopeId)
    (arguments : List Value) : Eval Value := fun s =>
  let scope := s.next
  let entered := (s.push .subscope caller).defineAll scope (bindings 1 r.parameters arguments)
  match runFrom call scope (.integer 0) statements entered with
  | .ok value s =>
    let watched := (s.locals scope).entries.filter fun (name, _) => r.isWatched name
    .ok value ((s.release scope).defineAll caller watched)
  | .error e s => .error e (s.release scope)

/-- Runs the routine for a caller. -/
def execute (call : Caller) (r : Routine) (caller : ScopeId) (arguments : List Value) :
    Eval Value := do
  if arguments.length < r.arity then
    throw (.argumentCount r.name r.arity arguments.length)
  match r.body with
  | .native run => Eval.ofExcept (run arguments)
  | .script statements => r.runScript call statements caller arguments

end Routine

namespace Scopes

/-- How deeply calls may be nested. The language sets no bound: this one is for routines that call
themselves without end, which fail with `callDepth` and would otherwise have no value. -/
def callLimit : Nat := 10000

/-- Calls the routine that a name stands for, with at most `depth` calls inside one another. -/
def callWithin : (depth : Nat) → Caller
  | 0, _, name, _ => throw (.callDepth name)
  | depth + 1, scope, name, arguments => do
    match (← get).routine? scope name with
    | none => throw (.unknownRoutine name)
    | some routine => routine.execute (callWithin depth) scope arguments

/-- Calls the routine that a name stands for as seen from a scope. -/
def call : Caller := callWithin callLimit

end Scopes

/-- The value of an expression in a scope. -/
def Expr.eval (scope : ScopeId) (e : Expr) : Eval Value := e.evaluate Scopes.call scope

/-- Runs a statement in a scope. -/
def Statement.run (scope : ScopeId) (statement : Statement) : Eval Value :=
  statement.execute Scopes.call scope

end Rsrc
