import Rsrc.Decimal.Binary64
import Rsrc.Document
import Rsrc.Integer

/-!
# Reading JSON

The reader takes exactly one value with blanks around it. Keys may be repeated; the map that is read
keeps all of them. Every part is read off the front of the characters, and what is behind it is
given back.
-/

namespace Rsrc.Document

variable (cs : List Char)

def skipJsonBlanks : List Char :=
  cs.dropWhile fun c => c == ' ' || c == '\t' || c == '\n' || c == '\r'

/-- A code unit of four digits. -/
def readUnit : List Char → Option (Nat × List Char)
  | a :: b :: c :: d :: rest => (Integer.hexDigits? [a, b, c, d]).map (·, rest)
  | _ => none

/-- The character that one code unit, or a pair of surrogates, stands for. -/
def readEscapedUnit : Option (Char × List Char) := do
  let (high, rest) ← readUnit cs
  if 0xD800 ≤ high ∧ high < 0xDC00 then
    let '\\' :: 'u' :: rest := rest | none
    let (low, rest) ← readUnit rest
    if 0xDC00 ≤ low ∧ low < 0xE000 then
      some (Char.ofNat (0x10000 + (high - 0xD800) * 0x400 + (low - 0xDC00)), rest)
    else none
  else if 0xDC00 ≤ high ∧ high < 0xE000 then none
  else some (Char.ofNat high, rest)

/-- One character of a quoted text. -/
def readJsonChar : List Char → Option (Char × List Char)
  | '\\' :: 'u' :: rest => readEscapedUnit rest
  | '\\' :: c :: rest =>
    let escaped : Option Char := match c with
      | '\x22' => some '\x22'
      | '\\' => some '\\'
      | '/' => some '/'
      | 'b' => some '\x08'
      | 'f' => some '\x0c'
      | 'n' => some '\n'
      | 'r' => some '\r'
      | 't' => some '\t'
      | _ => none
    escaped.map (·, rest)
  | c :: rest => if c.toNat < 0x20 ∨ c = '\\' then none else some (c, rest)
  | [] => none

/-- The characters up to the closing quote. -/
def readJsonText : (fuel : Nat) → List Char → Option (List Char × List Char)
  | 0, _ => none
  | _ + 1, '\x22' :: rest => some ([], rest)
  | fuel + 1, cs => do
    let (c, rest) ← readJsonChar cs
    let (body, rest) ← readJsonText fuel rest
    some (c :: body, rest)

/-- At least one digit. -/
def readDigits : Option (List Char × List Char) :=
  let digits := cs.takeWhile Char.isDigit
  if digits.isEmpty then none else some (digits, cs.dropWhile Char.isDigit)

/-- Digits with no zero in front of others. -/
def readWhole : Option (List Char × List Char) :=
  match cs with
  | '0' :: rest => if (rest.head?.any Char.isDigit) then none else some (['0'], rest)
  | cs => readDigits cs

def readFraction : Option (List Char × List Char) :=
  match cs with
  | '.' :: rest => readDigits rest
  | cs => some ([], cs)

/-- The value of an exponent; there is none if no mark starts it. -/
def readExponent : Option (Option Int × List Char) :=
  match cs with
  | 'e' :: rest | 'E' :: rest => do
    let (negative, rest) := match rest with
      | '-' :: rest => (true, rest)
      | '+' :: rest => (false, rest)
      | rest => (false, rest)
    let (digits, rest) ← readDigits rest
    let n ← Integer.digits? digits
    some (some (if negative then -n else n), rest)
  | cs => some (none, cs)

def readNumber : Option (Document × List Char) := do
  let (negative, cs) := match cs with
    | '-' :: rest => (true, rest)
    | cs => (false, cs)
  let (whole, cs) ← readWhole cs
  let (fraction, cs) ← readFraction cs
  let (exponent, cs) ← readExponent cs
  let digits ← Integer.digits? (whole ++ fraction)
  if fraction.isEmpty ∧ exponent.isNone then
    some (.integer (if negative then -digits else digits), cs)
  else
    let x := Decimal.ofDecimal negative digits (exponent.getD 0 - fraction.length)
    if x.isFinite then some (.decimal x, cs) else none

mutual

def readJson : (fuel : Nat) → List Char → Option (Document × List Char)
  | 0, _ => none
  | fuel + 1, cs =>
    match skipJsonBlanks cs with
    | 'n' :: 'u' :: 'l' :: 'l' :: rest => some (.null, rest)
    | 't' :: 'r' :: 'u' :: 'e' :: rest => some (.bool true, rest)
    | 'f' :: 'a' :: 'l' :: 's' :: 'e' :: rest => some (.bool false, rest)
    | '\x22' :: rest => do
      let (body, rest) ← readJsonText (rest.length + 1) rest
      some (.text (String.ofList body), rest)
    | '[' :: rest =>
      match skipJsonBlanks rest with
      | ']' :: rest => some (.list [], rest)
      | rest => do
        let (items, rest) ← readJsonItems fuel rest
        some (.list items, rest)
    | '\x7b' :: rest =>
      match skipJsonBlanks rest with
      | '\x7d' :: rest => some (.map [], rest)
      | rest => do
        let (entries, rest) ← readJsonEntries fuel rest
        some (.map entries, rest)
    | cs => readNumber cs

/-- The items up to the closing bracket; there is at least one. -/
def readJsonItems : (fuel : Nat) → List Char → Option (List Document × List Char)
  | 0, _ => none
  | fuel + 1, cs => do
    let (item, rest) ← readJson fuel cs
    match skipJsonBlanks rest with
    | ']' :: rest => some ([item], rest)
    | ',' :: rest =>
      let (items, rest) ← readJsonItems fuel rest
      some (item :: items, rest)
    | _ => none

/-- The entries up to the closing brace; there is at least one. -/
def readJsonEntries : (fuel : Nat) → List Char → Option (List (String × Document) × List Char)
  | 0, _ => none
  | fuel + 1, cs => do
    let '\x22' :: rest := skipJsonBlanks cs | none
    let (key, rest) ← readJsonText (rest.length + 1) rest
    let ':' :: rest := skipJsonBlanks rest | none
    let (value, rest) ← readJson fuel rest
    let entry := (String.ofList key, value)
    match skipJsonBlanks rest with
    | '\x7d' :: rest => some ([entry], rest)
    | ',' :: rest =>
      let (entries, rest) ← readJsonEntries fuel rest
      some (entry :: entries, rest)
    | _ => none

end

/-- The document that a JSON text holds. Every level takes a character, so the fuel lasts. -/
def ofJson? (s : String) : Option Document := do
  let cs := s.toList
  let (d, rest) ← readJson (2 * cs.length + 1) cs
  if (skipJsonBlanks rest).isEmpty then some d else none

end Rsrc.Document
