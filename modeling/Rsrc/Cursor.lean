import Rsrc.Lexeme.Lex

/-!
# Cursors

A cursor moves forward over the lexemes of one source. Lexemes can be injected in front of it; they
are read before the source goes on. `rest` is what is still to be read, and every operation is
described by what it does to `rest`.
-/

namespace Rsrc

/-- Why a sequence of lexemes does not follow the grammar. -/
inductive GrammarError where
  | unexpected (found expected : String) (site : Site)
  | ended (expected : String) (site : Site)
  deriving DecidableEq, Repr

def GrammarError.report : GrammarError → Report
  | unexpected found expected site =>
    { code := "parser::unexpected_lexeme"
      message := s!"Unexpected lexeme {quoted found}"
      help := "The parser found a lexeme it did not expect in this position."
      label := some ⟨s!"Expected {expected}, but found this", site⟩ }
  | ended expected site =>
    { code := "parser::unexpected_eof"
      message := "Unexpected end of input"
      help := "The file ended unexpectedly. The parser expected more lexemes."
      label := some ⟨s!"Expected {expected} after this", site⟩ }

/-- The error for a lexeme in a place where the grammar wants something else. -/
def Lexeme.unexpected (l : Lexeme) (expected : String) : GrammarError :=
  .unexpected l.display expected l.site

/-- A condition on a single lexeme. -/
structure Expectation where
  kind : LexemeKind
  text : Option String := none
  negated : Bool := false
  deriving DecidableEq, Repr

namespace Expectation

/-- An identifier with exactly this text. -/
def keyword (word : String) : Expectation := { kind := .identifier, text := some word }

def negate (e : Expectation) : Expectation := { e with negated := !e.negated }

def matched (e : Expectation) (l : Lexeme) : Bool :=
  (l.kind == e.kind && e.text.all (l.text == ·)) != e.negated

def describe (e : Expectation) : String :=
  (if e.negated then "anything but " else "") ++
    match e.text with
    | some text =>
      if e.kind = .identifier then "'" ++ text ++ "'" else e.kind.describe ++ " '" ++ text ++ "'"
    | none => e.kind.describe

end Expectation

instance : Coe LexemeKind Expectation := ⟨fun kind => { kind }⟩

structure Cursor where
  source : SourceFile
  /-- Lexemes of the source behind the cursor, the last one first. -/
  consumed : List Lexeme := []
  /-- Injected lexemes, the next one first. -/
  injected : List Lexeme := []
  /-- Lexemes of the source in front of the cursor. -/
  ahead : List Lexeme

namespace Cursor

variable (c : Cursor)

/-- A cursor in front of all lexemes of a source. -/
def ofSource (source : SourceFile) : Except LexicalError Cursor := do
  return { source, ahead := ← Lexeme.lex source }

/-- What is still to be read. -/
def rest : List Lexeme := c.injected ++ c.ahead

/-- The number of lexemes still to be read. -/
def unread : Nat := c.injected.length + c.ahead.length

def finished : Bool := c.injected.isEmpty && c.ahead.isEmpty

def peek : Option Lexeme :=
  match c.injected, c.ahead with
  | l :: _, _ => some l
  | [], l :: _ => some l
  | [], [] => none

/-- Passes over one lexeme, if there is one. -/
def advance : Cursor :=
  match c.injected, c.ahead with
  | _ :: injected, _ => { c with injected }
  | [], l :: ahead => { c with consumed := l :: c.consumed, ahead }
  | [], [] => c

/-- Puts a lexeme in front of everything still to be read. -/
def push (l : Lexeme) : Cursor := { c with injected := l :: c.injected }

/-- The lexeme of the source just behind the cursor. -/
def previous : Option Lexeme := c.consumed.head?

/-- The number of lexemes of the source behind the cursor. -/
def mark : Nat := c.consumed.length

/-- The kind of the next lexeme. -/
def peekKind : Option LexemeKind := c.peek.map (·.kind)

/-- The lexemes at the front match the expectations one by one. -/
def matchesAll : List Expectation → List Lexeme → Bool
  | [], _ => true
  | _ :: _, [] => false
  | e :: es, l :: ls => e.matched l && matchesAll es ls

def expects (expectations : List Expectation) : Bool :=
  matchesAll expectations c.rest

def isAt (e : Expectation) : Bool := c.peek.any e.matched

/-- The next lexeme matches one of the expectations. -/
def expectsAny (expectations : List Expectation) : Bool :=
  c.peek.any fun l => expectations.any (·.matched l)

/-- The end of the source is reported at its last lexeme. -/
def endSite : Site :=
  match c.ahead.getLast? <|> c.consumed.head? with
  | some last => last.site
  | none => ⟨c.source.name, ⟨c.source.contents.utf8ByteSize, 0⟩⟩

def endError (expected : String) : GrammarError := .ended expected c.endSite

/-- The error for the next lexeme, which names what the grammar wants instead. -/
def unexpected (c : Cursor) (expected : String) : GrammarError :=
  match c.peek with
  | some l => l.unexpected expected
  | none => c.endError expected

/-! ### Skipping a construct -/

/-- How a lexeme changes the depth of braces. -/
def braceStep (l : Lexeme) : Int :=
  match l.kind with
  | .leftBrace => 1
  | .rightBrace => -1
  | _ => 0

/-- How lexemes change the depth of braces. -/
def braceDepth : List Lexeme → Int
  | [] => 0
  | l :: lexemes => braceStep l + braceDepth lexemes

/-- Splits `ahead` behind the end of a construct that is `depth` braces deep. A semicolon ends it
at depth zero or below; so does the brace that gets there, along with a semicolon after it, and
`closed` says that such a brace has just been passed. Gives what is passed, last lexeme first, in
front of `passed`, and what is left. -/
def passConstruct (passed : List Lexeme) :
    (depth : Int) → (closed : Bool) → (ahead : List Lexeme) → List Lexeme × List Lexeme
  | _, _, [] => (passed, [])
  | depth, closed, l :: ahead =>
    if depth ≤ 0 && closed && l.kind != .semicolon then (passed, l :: ahead)
    else match l.kind with
      | .semicolon =>
        if depth ≤ 0 then (l :: passed, ahead)
        else passConstruct (l :: passed) depth closed ahead
      | .rightBrace => passConstruct (l :: passed) (depth - 1) (depth - 1 ≤ 0) ahead
      | .leftBrace => passConstruct (l :: passed) (depth + 1) closed ahead
      | _ => passConstruct (l :: passed) depth closed ahead

def pass (depth : Int) (closed : Bool) : Cursor :=
  let (consumed, ahead) := passConstruct c.consumed depth closed c.ahead
  { c with consumed, ahead }

/-- Passes over a semicolon of the source, if one is next. -/
def passSemicolon : Cursor :=
  match c.ahead with
  | l :: ahead => if l.kind = .semicolon then { c with consumed := l :: c.consumed, ahead } else c
  | [] => c

/-- Skips the remainder of the construct that started at `mark`: the cursor goes behind the first
semicolon or closing brace that brings the depth of braces back to where the construct began. A
construct that is already complete is left as it is, but for a semicolon behind its block. -/
def recover (mark : Nat) : Cursor :=
  let c := { c with injected := [] }
  let construct := c.consumed.take (c.mark - mark)
  let depth := braceDepth construct
  let last := construct.head?.map (·.kind)
  if depth ≤ 0 && last == some .semicolon then c
  else if depth ≤ 0 && last == some .rightBrace then c.passSemicolon
  else c.pass depth false

/-- Skips one construct without reading it. -/
def skipConstruct : Cursor := c.recover c.mark

end Cursor

/-! ### Reading -/

/-- Computations that move a cursor and may fail. A failure keeps the cursor where it happened. -/
abbrev Reading := EStateM GrammarError Cursor

namespace Reading

variable (e : Expectation)

/-- Fails at the next lexeme, naming what the grammar wants. -/
def fail {α : Type} (expected : String) : Reading α := fun c => .error (c.unexpected expected) c

/-- Reads any lexeme. -/
def any : Reading Lexeme := fun c =>
  match c.peek with
  | some l => .ok l c.advance
  | none => .error (c.endError "more input") c

/-- Passes over the next lexeme if it matches, and says whether it did. -/
def accept : Reading Bool := fun c =>
  if c.isAt e then .ok true c.advance else .ok false c

/-- Reads one lexeme that matches; `wanted` describes what is missing at the end of the source. -/
def matching (wanted : String) : Reading Lexeme := fun c =>
  match c.peek with
  | some l => if e.matched l then .ok l c.advance else .error (l.unexpected e.describe) c
  | none => .error (c.endError wanted) c

/-- Reads one lexeme that matches. -/
def one : Reading Lexeme := matching e e.describe

def identifier : Reading Lexeme := one LexemeKind.identifier

/-- Passes over one lexeme per expectation. At the end of the source all of them are missing. -/
def ensure (expectations : List Expectation) : Reading Unit :=
  let wanted := " ".intercalate (expectations.map (·.describe))
  expectations.forM fun e => discard (matching e wanted)

/-- Passes over one lexeme that matches. -/
def skip : Reading Unit := discard (one e)

end Reading

end Rsrc
