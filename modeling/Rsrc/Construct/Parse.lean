import Rsrc.Expr.Read
import Rsrc.Update

/-!
# Reading constructs

Constructs take effect on a session as they are read. Loops run on the number of lexemes that are
left: every turn passes over one at least.
-/

namespace Rsrc

/-- A session, and the cursor over the file that is being read into it. -/
structure ParseState where
  session : Session
  cursor : Cursor

/-- Computations that read lexemes and change a session. A failure keeps both as they were when it
happened. -/
abbrev Parse := EStateM Failure ParseState

namespace Parse

variable {α β : Type}

/-- Reads lexemes only. -/
def ofReading (r : Reading α) : Parse α := fun st =>
  match r st.cursor with
  | .ok a cursor => .ok a { st with cursor }
  | .error e cursor => .error (.grammar e) { st with cursor }

/-- Changes the session only. -/
def ofUpdate (u : Update α) : Parse α := fun st =>
  match u st.session with
  | .ok a session => .ok a { st with session }
  | .error e session => .error e { st with session }

instance : MonadLift Reading Parse := ⟨ofReading⟩

instance : MonadLift Update Parse := ⟨ofUpdate⟩

def cursor : Parse Cursor := return (← get).cursor

def session : Parse Session := return (← get).session

def modifySession (f : Session → Session) : Parse Unit :=
  modify fun st => { st with session := f st.session }

/-- Fails at the next lexeme, naming what the grammar wants. -/
def fail (expected : String) : Parse α := ofReading (Reading.fail expected)

/-- Fails at a lexeme already read. -/
def unexpected (l : Lexeme) (expected : String) : Parse α := throw (.grammar (l.unexpected expected))

def isAt (e : Expectation) : Parse Bool := return (← cursor).isAt e

/-! ### Loops -/

/-- Repeats a step up to a closing brace, at most `limit` times. -/
def stepsToBrace (step : α → Parse α) : (limit : Nat) → α → Parse α
  | 0, _ => fail "`\x7d`"
  | limit + 1, a => do
    let c ← cursor
    if c.isAt LexemeKind.rightBrace then return a
    if c.finished then fail "`\x7d`"
    let a ← step a
    stepsToBrace step limit a

/-- Repeats a step up to a closing brace. -/
def toBrace (step : α → Parse α) (a : α) : Parse α := do
  stepsToBrace step ((← cursor).unread + 1) a

/-- Reads items with commas between them, at most `limit` of them. -/
def itemsWithin (item : Parse α) : (limit : Nat) → Parse (List α)
  | 0 => fail "an item"
  | limit + 1 => do
    let first ← item
    if ← Reading.accept LexemeKind.comma then return first :: (← itemsWithin item limit)
    return [first]

/-- Reads one or more items with commas between them. -/
def items (item : Parse α) : Parse (List α) := do itemsWithin item ((← cursor).unread + 1)

/-- Reads items with commas between them, in brackets. -/
def bracketed (opening closing : LexemeKind) (item : Parse α) : Parse (List α) := do
  Reading.skip opening
  if ← Reading.accept closing then return []
  let all ← items item
  Reading.skip closing
  return all

/-! ### Expressions -/

/-- Reads an expression, with its first lexeme. -/
def operand : Parse (Expr × Lexeme) := do
  let some origin := (← cursor).peek | fail "an expression"
  return (← Expr.read, origin)

/-- Reads arguments and evaluates them in the root scope. -/
def arguments : Parse (List (Value × Lexeme)) := do
  let operands ← bracketed .leftParen .rightParen operand
  operands.mapM fun (e, origin) => do
    let value ← Update.evaluate origin (e.eval Scopes.rootId)
    return (value, origin)

/-- Where a literal is wanted, a variable or a call is evaluated in the root scope and a literal for
its value is put in its place. -/
def inlineValue : Parse Unit := do
  let c ← cursor
  if c.isAt LexemeKind.var || c.expects [LexemeKind.identifier, LexemeKind.leftParen] then
    let (e, origin) ← operand
    let value ← Update.evaluate origin (e.eval Scopes.rootId)
    modify fun st => { st with cursor := st.cursor.push (value.toLexeme origin) }

/-- Reads an integer. -/
def integer : Parse Int64 := do
  inlineValue
  let l ← Reading.one LexemeKind.integer
  match l.literal with
  | some (.integer n) => return n
  | _ => unexpected l "an integer"

/-! ### Decorators -/

/-- Reads an argument of a decorator. -/
def decoratorArgument : Parse String := do
  let negated ← Reading.accept LexemeKind.exclaim
  inlineValue
  let l ← Reading.any
  match l.kind with
  | .identifier | .string | .integer | .decimal => return if negated then "!" ++ l.text else l.text
  | _ => unexpected l "a decorator argument"

/-- Reads a decorator, which then waits for a construct. -/
def decorator : Parse Unit := do
  let origin ← Reading.one LexemeKind.decorator
  let arguments ←
    if ← isAt LexemeKind.leftParen then bracketed .leftParen .rightParen decoratorArgument
    else pure []
  modifySession fun s =>
    { s with pending := s.pending ++ [{ name := origin.text, arguments, origin }] }

/-- Hands the waiting decorators to the construct that comes next. A construct that a condition
excludes is skipped. -/
def claim : Parse (Option Decorators) := do
  let s ← session
  let decorators : Decorators := ⟨s.pending⟩
  modifySession fun s => { s with pending := [] }
  if decorators.permits s.definitions.keys then return some decorators
  modify fun st => { st with cursor := st.cursor.skipConstruct }
  return none

/-- The failure of a decorator that waits for nothing. -/
def dangling? (s : Session) : Option Failure :=
  s.pending.head?.map fun d => .semantic ⟨.danglingDecorator d.name, d.origin.site⟩

/-- Reads the end of a block, where no decorator may wait. -/
def closeBlock : Parse Unit := do
  if let some failure := dangling? (← session) then throw failure
  Reading.skip LexemeKind.rightBrace
  discard (Reading.accept LexemeKind.semicolon)

/-! ### Failures of constructs -/

/-- Reads one construct. If it fails in a way that ends only the construct, the failure is recorded,
the scopes and waiting decorators are reset, and the rest of the construct is skipped. -/
def guarded (construct : Parse Unit) : Parse Unit := fun st =>
  match construct st with
  | .ok () st => .ok () st
  | .error failure failed =>
    if failure.isRecoverable then
      let s := failed.session.record failure
      .ok () {
        session := { s with scopes := s.scopes.truncate st.session.scopes.depth, pending := [] }
        cursor := failed.cursor.recover st.cursor.mark }
    else .error failure failed

/-- Runs a computation and changes the session afterwards, also after a failure. -/
def andFinally (computation : Parse α) (f : Session → Session) : Parse α := fun st =>
  match computation st with
  | .ok a st => .ok a { st with session := f st.session }
  | .error failure st => .error failure { st with session := f st.session }

end Parse

end Rsrc
