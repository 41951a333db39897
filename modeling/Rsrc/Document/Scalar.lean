import Rsrc.Decimal.Binary64
import Rsrc.Document
import Rsrc.Integer
import Rsrc.Text.Front
import Rsrc.Yaml.Char

/-!
# Scalars of YAML documents

A text in a YAML document can stand bare if nothing in it has a meaning of its own and if it would
not be read as another kind of value. Otherwise it is quoted.
-/

namespace Rsrc.Document

open Yaml (isBreak isGap isPrintable)

/-- How the text of a scalar is written. -/
inductive ScalarStyle where
  | plain
  | singleQuoted
  | doubleQuoted
  | literal
  deriving DecidableEq, Repr

namespace ScalarStyle

variable (cs : List Char)

def isNullWord (s : String) : Bool := s == "" || ["null", "Null", "NULL", "~"].contains s

def isBoolWord (s : String) : Bool :=
  ["true", "True", "TRUE", "false", "False", "FALSE"].contains s

def isSign (c : Char) : Bool := c == '+' || c == '-'

/-- A text without the sign in front of it. -/
def unsigned : List Char :=
  match cs with
  | c :: rest => if isSign c then rest else cs
  | [] => []

/-- Digits of a base whose value is at most `limit`. -/
def isBased (limit base : Nat) (cs : List Char) : Bool :=
  !cs.isEmpty && cs.all (fun c => (Integer.hexDigit? c).any (· < base)) &&
    cs.foldl (fun n c => n * base + (Integer.hexDigit? c).getD 0) 0 ≤ limit

/-- An integer in base ten, or in base 16, 8 or 2 behind a mark. It has 128 bits, of which a negative
one spends one on its sign. -/
def isIntegerWord : Bool :=
  let limit := if cs.head? == some '-' then Nat.pow 2 127 else Nat.pow 2 128 - 1
  match unsigned cs with
  | '0' :: 'x' :: rest => isBased limit 16 rest
  | '0' :: 'o' :: rest => isBased limit 8 rest
  | '0' :: 'b' :: rest => isBased limit 2 rest
  | digits => isBased limit 10 digits

/-- Digits behind a zero: no number, but close to one. -/
def isPadded : Bool :=
  match unsigned cs with
  | '0' :: d :: rest => (d :: rest).all Char.isDigit
  | _ => false

/-- The value of an exponent: a mark, a sign and digits, or nothing at all. -/
def exponent? : Option Int :=
  match cs with
  | [] => some 0
  | 'e' :: rest | 'E' :: rest =>
    (Integer.digits? (unsigned rest)).map fun n => if rest.head? == some '-' then -n else n
  | _ => none

/-- A finite number with a point or an exponent. -/
def isDecimalWord : Bool :=
  let body := unsigned cs
  let whole := body.takeWhile Char.isDigit
  let rest := body.dropWhile Char.isDigit
  let (fraction, tail) := match rest with
    | '.' :: rest => (rest.takeWhile Char.isDigit, rest.dropWhile Char.isDigit)
    | rest => ([], rest)
  match Integer.digits? (whole ++ fraction), exponent? tail with
  | some digits, some e =>
    (Decimal.ofDecimal false digits (e - fraction.length)).isFinite
  | _, _ => false

def isInfiniteWord : Bool :=
  [".inf", ".Inf", ".INF"].contains (String.ofList (unsigned cs)) ||
    [".nan", ".NaN", ".NAN"].contains (String.ofList cs)

/-- Whether a bare text would be read as something else than a text. -/
def isAmbiguous (s : String) : Bool :=
  isNullWord s || isBoolWord s || isPadded s.toList || isIntegerWord s.toList ||
    isDecimalWord s.toList || isInfiniteWord s.toList

/-! ### What a text allows -/

/-- Whether a text starts with a character that has a meaning there. -/
def startsIndicated : Bool :=
  match cs with
  | '-' :: '-' :: '-' :: _ => true
  | '.' :: '.' :: '.' :: _ => true
  | c :: rest =>
    "#,[]\x7b\x7d&*!|>\x27\x22%@`".toList.contains c ||
      ((c == '?' || c == ':' || c == '-') && isGap rest.head?)
  | [] => false

/-- Whether a mark of a key or of a comment stands behind the first character. -/
def holdsIndicator : List Char → Bool
  | a :: b :: rest =>
    (b == ':' && isGap rest.head?) || (b == '#' && isGap (some a)) || holdsIndicator (b :: rest)
  | _ => false

/-- Whether two neighbours satisfy a test. -/
def anyNeighbours (test : Char → Char → Bool) : List Char → Bool
  | a :: b :: rest => test a b || anyNeighbours test (b :: rest)
  | _ => false

/-- Characters that only escapes can show. -/
def needsEscapes : Bool :=
  cs.any (fun c => !isPrintable c) || anyNeighbours (fun a b => a == ' ' && isBreak b) cs

def allowsPlain : Bool :=
  let edge (c : Option Char) := c.any fun c => c == ' ' || isBreak c
  !edge cs.head? && !edge cs.getLast? && !cs.any isBreak && !needsEscapes cs &&
    !startsIndicated cs && !holdsIndicator cs

def allowsSingleQuotes : Bool :=
  !needsEscapes cs && !anyNeighbours (fun a b => isBreak a && b == ' ') cs

def allowsLiteral : Bool :=
  !needsEscapes cs && cs.getLast? != some ' '

/-- The style in which a text is written. -/
def ofText (s : String) : ScalarStyle :=
  let cs := s.toList
  if cs.contains '\n' then if allowsLiteral cs then .literal else .doubleQuoted
  else if !isAmbiguous s && allowsPlain cs then .plain
  else if allowsSingleQuotes cs then .singleQuoted
  else .doubleQuoted

end ScalarStyle

end Rsrc.Document
