import Rsrc.Cursor

/-!
# Indexed streams

A stream has the index of the next lexeme of a source, and in an array the injected lexemes, of which the
last is read first. Looking ahead counts back through the injected lexemes and then on through those of
the source. `Stream.cursor` is the cursor that stands for a stream.
-/

namespace Rsrc

/-- A source and its lexemes. Their indices are machine words. -/
structure LexedSource where
  source : SourceFile
  lexemes : Array Lexeme
  small : lexemes.size < UInt64.size

namespace LexedSource

/-- The end of the source is reported at its last lexeme. -/
def endSite (file : LexedSource) : Site :=
  match file.lexemes.back? with
  | some last => last.site
  | none => ⟨file.source.name, ⟨file.source.contents.utf8ByteSize, 0⟩⟩

def endError (file : LexedSource) (expected : String) : GrammarError := .ended expected file.endSite

end LexedSource

structure Stream (file : LexedSource) where
  /-- The index of the next lexeme of the source. -/
  position : Nat := 0
  /-- Injected lexemes, the next one last. -/
  pushed : Array Lexeme := #[]
  inside : position ≤ file.lexemes.size := by exact Nat.zero_le _

/-- Computations that move a stream and may fail. A failure keeps the stream where it happened. -/
abbrev Streaming (file : LexedSource) := EStateM GrammarError (Stream file)

namespace Stream

variable {file : LexedSource}
variable (s : Stream file)

/-- The same place between the lexemes, which are lists behind and in front of it. -/
def cursor (s : Stream file) : Cursor where
  source := file.source
  consumed := (file.lexemes.toList.take s.position).reverse
  injected := s.pushed.toList.reverse
  ahead := file.lexemes.toList.drop s.position

def finished : Bool := s.pushed.isEmpty && file.lexemes.size ≤ s.position

/-- The lexeme at an offset from the next one. The sum of position and offset is taken in a machine
word, so an offset that makes it too large leads back to lexemes that have been read. -/
def peekAt (offset : UInt64) : Option Lexeme :=
  if offset.toNat < s.pushed.size then s.pushed[s.pushed.size - 1 - offset.toNat]?
  else file.lexemes[(s.position.toUInt64 + offset - s.pushed.size.toUInt64).toNat]?

def peek : Option Lexeme := s.peekAt 0

/-- Passes over one lexeme, if there is one. -/
def advance : Stream file :=
  if s.pushed.isEmpty then
    if inside : s.position < file.lexemes.size then { s with position := s.position + 1, inside }
    else s
  else { s with pushed := s.pushed.pop }

/-- Puts a lexeme in front of everything still to be read. -/
def push (l : Lexeme) : Stream file := { s with pushed := s.pushed.push l }

/-- Each expectation is met by the lexeme at its own offset. -/
def expects (expectations : List Expectation) : Bool :=
  expectations.zipIdx.all fun pair => (s.peekAt pair.2.toUInt64).any pair.1.matched

/-- Reads any lexeme. -/
def read : Streaming file Lexeme := fun s =>
  match s.pushed.back? with
  | some l => .ok l { s with pushed := s.pushed.pop }
  | none =>
    if inside : s.position < file.lexemes.size then
      .ok file.lexemes[s.position] { s with position := s.position + 1, inside }
    else .error (file.endError "more input") s

/-- Passes over the next lexeme if it matches, and says whether it did. -/
def accept (e : Expectation) : Streaming file Bool := fun s =>
  if s.expects [e] then .ok true s.advance else .ok false s

/-- Fails unless the next lexeme matches; `wanted` describes what is missing at the end. -/
def check (e : Expectation) (wanted : String) : Streaming file Unit := fun s =>
  match s.peek with
  | some l => if e.matched l then .ok () s else .error (l.unexpected e.describe) s
  | none => .error (file.endError wanted) s

/-- Passes over one lexeme per expectation. At the end of the source all of them are missing. -/
def ensure (expectations : List Expectation) : Streaming file Unit :=
  let wanted := " ".intercalate (expectations.map (·.describe))
  expectations.forM fun e => do
    check e wanted
    modify advance

/-- Reads one lexeme of a kind. -/
def readKind (kind : LexemeKind) : Streaming file Lexeme := do
  let e : Expectation := kind
  check e e.describe
  read

def readIdentifier : Streaming file Lexeme := readKind .identifier

end Stream

end Rsrc
