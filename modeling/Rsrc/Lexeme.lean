import Rsrc.Reference

/-!
# Lexemes

A lexeme is a classified piece of source text with its position. Literals carry the value they
stand for.
-/

namespace Rsrc

inductive LexemeKind where
  | identifier
  | string
  | integer
  | decimal
  | percentage
  | reference
  | var
  | directive
  | decorator
  | leftBrace
  | rightBrace
  | leftBracket
  | rightBracket
  | leftParen
  | rightParen
  | leftAngle
  | rightAngle
  | semicolon
  | comma
  | dot
  | colon
  | equals
  | plus
  | minus
  | star
  | slash
  | percent
  | ampersand
  | pipe
  | caret
  | tilde
  | exclaim
  | question
  | leftShift
  | rightShift
  deriving DecidableEq, Repr, Inhabited

/-- How a kind is named in a message. -/
def LexemeKind.describe : LexemeKind → String
  | identifier => "an identifier"
  | string => "a string"
  | integer => "an integer"
  | decimal => "a decimal"
  | percentage => "a percentage"
  | reference => "a resource reference"
  | var => "a variable"
  | directive => "a directive"
  | decorator => "a decorator"
  | leftBrace => "'\x7b'"
  | rightBrace => "'\x7d'"
  | leftBracket => "'['"
  | rightBracket => "']'"
  | leftParen => "'('"
  | rightParen => "')'"
  | leftAngle => "'<'"
  | rightAngle => "'>'"
  | semicolon => "';'"
  | comma => "','"
  | dot => "'.'"
  | colon => "':'"
  | equals => "'='"
  | plus => "'+'"
  | minus => "'-'"
  | star => "'*'"
  | slash => "'/'"
  | percent => "'%'"
  | ampersand => "'&'"
  | pipe => "'|'"
  | caret => "'^'"
  | tilde => "'~'"
  | exclaim => "'!'"
  | question => "'?'"
  | leftShift => "'<<'"
  | rightShift => "'>>'"

/-- The value of a literal lexeme. -/
inductive Literal where
  | integer (value : Int64)
  | decimal (value : Float)
  | reference (value : Reference)
  deriving Repr

/-- `text` is the slice of the source for punctuation, numbers and references, the unescaped
contents of a string, and the bare name of a variable, directive or decorator. -/
structure Lexeme where
  kind : LexemeKind
  text : String
  literal : Option Literal := none
  start : Nat
  stop : Nat
  source : SourceFile
  deriving Repr

namespace Lexeme

variable (l : Lexeme)

def span : Span := ⟨l.start, l.stop - l.start⟩

def site : Site := ⟨l.source.name, l.span⟩

/-- A lexeme that is not in the source, placed over `origin`. -/
def placed (kind : LexemeKind) (text : String) (literal : Option Literal) (origin : Lexeme) :
    Lexeme :=
  { origin with kind, text, literal }

/-- The line and column of the first character. -/
def place : Nat × Nat := Text.place l.source.contents l.start

/-- The place of a lexeme with its file. -/
def location : String :=
  let (line, column) := l.place
  s!"{l.source.name}:{line}:{column}"

def display : String :=
  match l.kind with
  | .string => "\"" ++ l.text ++ "\""
  | .var => "$" ++ l.text
  | .directive | .decorator => "@" ++ l.text
  | _ => l.text

end Lexeme

/-- Why a text has no lexemes. -/
inductive LexicalCause where
  | unrecognised (character : Char)
  | unterminated
  | malformedReference
  | invalidNumber (text : String)
  deriving DecidableEq, Repr

structure LexicalError where
  cause : LexicalCause
  site : Site
  deriving DecidableEq, Repr

def LexicalError.report (e : LexicalError) : Report :=
  match e.cause with
  | .unrecognised character =>
    { code := "lexer::unrecognised_character"
      message := s!"Unrecognised character {quoted character.toString}"
      help := "This character is not part of the language outside of strings and comments."
      label := some ⟨"not expected here", e.site⟩ }
  | .unterminated =>
    { code := "lexer::unterminated_string"
      message := "Unterminated string literal"
      help := "Close the string with the same quote character that opened it."
      label := some ⟨"string starts here", e.site⟩ }
  | .malformedReference =>
    { code := "lexer::malformed_reference"
      message := "Malformed resource reference"
      help :=
        "References look like `#128`, `#Type.128`, `#Container.Type.128`, `#auto` or `#?`."
      label := some ⟨"could not read a reference here", e.site⟩ }
  | .invalidNumber text =>
    { code := "lexer::invalid_number"
      message := s!"Invalid number {quoted text}"
      label := some ⟨"this number does not fit in a signed 64-bit integer", e.site⟩ }

end Rsrc
