import Rsrc.Decimal.Binary64
import Rsrc.Lexeme

/-!
# Scanning one lexeme

Each scanner splits its input into the characters it takes and the rest, and keeps the proof that
nothing is lost. Faults are placed relative to the first character of the lexeme.
-/

namespace Rsrc.Lexeme

/-- Names that follow `@` and are directives; every other one is a decorator. -/
def directives : List String :=
  ["import", "define", "project", "author", "version", "license", "copyright", "email", "website",
    "format", "out", "echo"]

def isWordStart (c : Char) : Bool := c.isAlpha || c == '_'

def isWordPart (c : Char) : Bool := c.isAlphanum || c == '_'

def isDigitPart (c : Char) : Bool := c.isDigit || c == '_'

def isHexPart (c : Char) : Bool := (Integer.hexDigit? c).isSome || c == '_'

def withoutUnderscores (cs : List Char) : List Char := cs.filter (· ≠ '_')

/-- A fault that covers `length` bytes from `offset` bytes behind the start of the lexeme. -/
structure Fault where
  cause : LexicalCause
  offset : Nat
  length : Nat

/-- A fault that covers the characters taken so far. -/
def Fault.spanning (cause : LexicalCause) (taken : List Char) : Fault :=
  ⟨cause, 0, Text.byteSize taken⟩

def Fault.invalidNumber (taken : List Char) : Fault :=
  .spanning (.invalidNumber (String.ofList taken)) taken

def Fault.malformed (taken : List Char) : Fault := .spanning .malformedReference taken

/-- A scanned lexeme and what follows it. -/
structure Scan (input : List Char) where
  kind : LexemeKind
  text : List Char
  literal : Option Literal := none
  taken : List Char
  rest : List Char
  split : taken ++ rest = input
  nonempty : taken ≠ []

/-- A lexeme whose text is the slice taken. -/
def Scan.slice {input : List Char} (kind : LexemeKind) (taken rest : List Char)
    (split : taken ++ rest = input) (nonempty : taken ≠ []) (literal : Option Literal := none) :
    Scan input :=
  { kind, text := taken, literal, taken, rest, split, nonempty }

/-! ### Strings -/

/-- The contents of a string up to its closing quote. -/
structure Quote (input : List Char) where
  text : List Char
  taken : List Char
  rest : List Char
  split : taken ++ rest = input

/-- What a backslash and a character stand for. An unknown escape stands for itself. -/
def escape : Char → List Char
  | 'n' => ['\n']
  | 'r' => ['\r']
  | 't' => ['\t']
  | '0' => ['\x00']
  | '\\' => ['\\']
  | '\x22' => ['\x22']
  | '\x27' => ['\x27']
  | c => ['\\', c]

/-- Reads up to the closing quote `mark`, which is missing in an unterminated string. -/
def quote? (mark : Char) : (input : List Char) → Option (Quote input)
  | [] => none
  | c :: cs =>
    if c = mark then some ⟨[], [c], cs, rfl⟩
    else if c = '\\' then
      match cs with
      | [] => none
      | e :: rest => (quote? mark rest).map fun q =>
          ⟨escape e ++ q.text, c :: e :: q.taken, q.rest, by simp [q.split]⟩
    else (quote? mark cs).map fun q => ⟨c :: q.text, c :: q.taken, q.rest, by simp [q.split]⟩

def string (mark : Char) (cs : List Char) : Except Fault (Scan (mark :: cs)) :=
  match quote? mark cs with
  | none => .error ⟨.unterminated, 0, 1⟩
  | some q => .ok
      { kind := .string, text := q.text, taken := mark :: q.taken, rest := q.rest
        split := by simp [q.split], nonempty := by simp }

/-! ### Numbers -/

/-- The value of digits around a decimal point. -/
def decimalValue (whole fraction : List Char) : Float :=
  Decimal.ofDecimal false ((Integer.digits? (whole ++ fraction)).getD 0) (-fraction.length)

/-- Digits behind `0x`. -/
def hexNumber (zero mark : Char) (cs : List Char) : Except Fault (Scan (zero :: mark :: cs)) :=
  let digits := cs.takeWhile isHexPart
  match Integer.readHex? (withoutUnderscores digits) with
  | none => .error (.invalidNumber (zero :: mark :: digits))
  | some value => .ok
      (.slice .integer (zero :: mark :: digits) (cs.dropWhile isHexPart)
        (by simp [digits]) (by simp) (some (.integer value)))

/-- An integer, or a percentage when the sign follows at once. `digits` starts with a digit. -/
def wholeNumber {input : List Char} (digits rest : List Char) (split : digits ++ rest = input)
    (nonempty : digits ≠ []) : Except Fault (Scan input) :=
  match Integer.read? (withoutUnderscores digits) with
  | none => .error (.invalidNumber digits)
  | some value =>
    match rest, split with
    | '%' :: rest, split => .ok
        (.slice .percentage (digits ++ ['%']) rest (by simpa using split) (by simp)
          (some (.integer value)))
    | rest, split => .ok (.slice .integer digits rest split nonempty (some (.integer value)))

/-- A number without a radix mark, with a fraction when a digit follows the point. -/
def decimalNumber {input : List Char} (digits rest : List Char) (split : digits ++ rest = input)
    (nonempty : digits ≠ []) : Except Fault (Scan input) :=
  match rest, split with
  | '.' :: d :: rest, split =>
    if d.isDigit then
      let fraction := (d :: rest).takeWhile isDigitPart
      let value := decimalValue (withoutUnderscores digits) (withoutUnderscores fraction)
      .ok (.slice .decimal (digits ++ '.' :: fraction) ((d :: rest).dropWhile isDigitPart)
        (by rw [List.append_assoc, List.cons_append, List.takeWhile_append_dropWhile]; exact split)
        (by simp) (some (.decimal value)))
    else wholeNumber digits ('.' :: d :: rest) split nonempty
  | rest, split => wholeNumber digits rest split nonempty

/-- A number; `c` is its first digit. -/
def number (c : Char) (cs : List Char) : Except Fault (Scan (c :: cs)) :=
  match c, cs with
  | '0', 'x' :: cs => hexNumber '0' 'x' cs
  | '0', 'X' :: cs => hexNumber '0' 'X' cs
  | c, cs => decimalNumber (c :: cs.takeWhile isDigitPart) (cs.dropWhile isDigitPart)
      (by simp) (by simp)

/-! ### Names with a mark -/

/-- A directive or a decorator. -/
def atName (cs : List Char) : Except Fault (Scan ('@' :: cs)) :=
  if (cs.head?).any isWordStart then
    let name := cs.takeWhile isWordPart
    let kind := if directives.contains (String.ofList name) then .directive else .decorator
    .ok { kind, text := name, taken := '@' :: name, rest := cs.dropWhile isWordPart
          split := by simp [name], nonempty := by simp }
  else .error ⟨.unrecognised '@', 0, 1⟩

def variableName (cs : List Char) : Except Fault (Scan ('$' :: cs)) :=
  let name := cs.takeWhile isWordPart
  if name.isEmpty then .error ⟨.unrecognised '$', 0, 1⟩
  else .ok { kind := .var, text := name, taken := '$' :: name, rest := cs.dropWhile isWordPart
             split := by simp [name], nonempty := by simp }

/-! ### References -/

/-- One part of a reference: the id that ends it, or a name that a point follows. -/
inductive Part (input : List Char) where
  | id (value : Int64) (taken rest : List Char) (split : taken ++ rest = input)
  | name (text : List Char) (taken rest : List Char) (split : taken ++ rest = input)

/-- Reads one part; `before` are the characters of the reference in front of it. -/
def part (before input : List Char) : Except Fault (Part input) :=
  match input with
  | [] => .error (.malformed before)
  | c :: cs =>
    if c.isDigit || c == '-' then
      let digits := c :: cs.takeWhile isDigitPart
      if digits = ['-'] then .error (.malformed (before ++ digits))
      else match Integer.read? (withoutUnderscores digits) with
        | none => .error (.invalidNumber (before ++ digits))
        | some id => .ok (.id id digits (cs.dropWhile isDigitPart) (by simp [digits]))
    else if isWordStart c then
      let word := c :: cs.takeWhile isWordPart
      let rest := cs.dropWhile isWordPart
      if word = "auto".toList && rest.head? != some '.' then
        .ok (.id Reference.autoId word rest (by simp [word, rest]))
      else .ok (.name word word rest (by simp [word, rest]))
    else if c = '\x22' || c = '\x27' then
      match quote? c cs with
      | none => .error ⟨.unterminated, Text.byteSize before, 1⟩
      | some q => .ok (.name q.text (c :: q.taken) q.rest (by simp [q.split]))
    else .error (.malformed before)

/-- The reference with the names read in front of its id: a type, or a container and a type. -/
def ofParts (names : List String) (id : Int64) : Option Reference :=
  match names with
  | [] => some { id }
  | [typeName] => some { id, typeName := some typeName }
  | [container, typeName] => some { id, typeName := some typeName, container := some container }
  | _ => none

/-- What follows a point. -/
def afterPoint? (input : List Char) : Option { rest : List Char // '.' :: rest = input } :=
  match input with
  | '.' :: rest => some ⟨rest, rfl⟩
  | _ => none

/-- Reads parts until the id; `names` are the ones read so far. -/
def parts (before : List Char) (names : List String) (input : List Char) :
    Except Fault ((taken : List Char) × { rest : List Char // taken ++ rest = input } × Reference) :=
  match part before input with
  | .error fault => .error fault
  | .ok (.id id taken rest split) =>
    match ofParts names id with
    | none => .error (.malformed (before ++ taken))
    | some reference => .ok ⟨taken, ⟨rest, split⟩, reference⟩
  | .ok (.name text taken rest split) =>
    match afterPoint? rest with
    | none => .error (.malformed (before ++ taken))
    | some ⟨next, point⟩ =>
      match parts (before ++ taken ++ ['.']) (names ++ [String.ofList text]) next with
      | .error fault => .error fault
      | .ok ⟨more, ⟨rest', split'⟩, reference⟩ => .ok
          ⟨taken ++ '.' :: more, ⟨rest', by simp [split', point, split]⟩, reference⟩
termination_by input.length
decreasing_by
  rw [← split, ← point]
  simp
  omega

def reference (cs : List Char) : Except Fault (Scan ('#' :: cs)) :=
  match cs with
  | '?' :: rest => .ok (.slice .reference ['#', '?'] rest rfl (by simp)
      (some (.reference Reference.any)))
  | cs =>
    match parts ['#'] [] cs with
    | .error fault => .error fault
    | .ok ⟨taken, ⟨rest, split⟩, reference⟩ => .ok
        (.slice .reference ('#' :: taken) rest (by simp [split]) (by simp)
          (some (.reference reference)))

/-! ### Any lexeme -/

/-- The kind of a lexeme that is this one character. -/
def punctuation? : Char → Option LexemeKind
  | '{' => some .leftBrace
  | '}' => some .rightBrace
  | '[' => some .leftBracket
  | ']' => some .rightBracket
  | '(' => some .leftParen
  | ')' => some .rightParen
  | '<' => some .leftAngle
  | '>' => some .rightAngle
  | ';' => some .semicolon
  | ',' => some .comma
  | '.' => some .dot
  | ':' => some .colon
  | '=' => some .equals
  | '+' => some .plus
  | '-' => some .minus
  | '*' => some .star
  | '/' => some .slash
  | '%' => some .percent
  | '&' => some .ampersand
  | '|' => some .pipe
  | '^' => some .caret
  | '~' => some .tilde
  | '!' => some .exclaim
  | '?' => some .question
  | _ => none

/-- The first lexeme of an input that starts with a character other than a blank or a comment. -/
def scan (c : Char) (cs : List Char) : Except Fault (Scan (c :: cs)) :=
  match c, cs with
  | '<', '<' :: rest => .ok (.slice .leftShift ['<', '<'] rest rfl (by simp))
  | '>', '>' :: rest => .ok (.slice .rightShift ['>', '>'] rest rfl (by simp))
  | '\x22', cs => string '\x22' cs
  | '\x27', cs => string '\x27' cs
  | '#', cs => reference cs
  | '@', cs => atName cs
  | '$', cs => variableName cs
  | c, cs =>
    match punctuation? c with
    | some kind => .ok (.slice kind [c] cs rfl (by simp))
    | none =>
      if c.isDigit then number c cs
      else if isWordStart c then
        .ok (.slice .identifier (c :: cs.takeWhile isWordPart) (cs.dropWhile isWordPart)
          (by simp) (by simp))
      else .error (.spanning (.unrecognised c) [c])

end Rsrc.Lexeme
