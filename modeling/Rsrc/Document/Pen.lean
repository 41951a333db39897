import Rsrc.Document.Scalar

/-!
# Writing by columns

A pen writes the text of a YAML document from left to right. It knows its column, and whether it still
stands in the margin of its line, where marks may follow each other: a list in a list starts in the
line of the item that holds it.

Some line breaks are characters of a text and not the end of a line, so the document is not a list of
lines. The pen treats them all alike.
-/

namespace Rsrc.Document

structure Pen where
  text : String := ""
  column : Nat := 0
  /-- Nothing, a blank or a margin stands before the pen. -/
  spaced : Bool := true
  /-- Nothing but marks stands before the pen in its line. -/
  inMargin : Bool := true

namespace Pen

/-- Writes characters of one line. -/
def put (p : Pen) (cs : List Char) : Pen :=
  { p with text := p.text ++ String.ofList cs, column := p.column + cs.length }

/-- Writes a line break; the margin of the next line follows. -/
def putBreak (p : Pen) (c : Char) : Pen :=
  { p with text := p.text.push c, column := 0, inMargin := true }

/-- Goes to a column of the margin: of this line, if that is possible, and else of a new line. -/
def toColumn (p : Pen) (column : Nat) : Pen :=
  let stays := p.inMargin && (p.column < column || (p.column == column && p.spaced))
  let p := if stays then p else p.putBreak '\n'
  { p.put (List.replicate (column - p.column) ' ') with spaced := true, inMargin := true }

/-- Writes a blank, if none stands before. -/
def space (p : Pen) : Pen := if p.spaced then p else p.put [' ']

/-- Writes characters right behind what is there. -/
def close (p : Pen) (s : String) : Pen :=
  { p.put s.toList with spaced := false, inMargin := false }

/-- Writes characters that stand for themselves. -/
def word (p : Pen) (s : String) : Pen := p.space.close s

/-- Writes a mark behind which the margin goes on. -/
def mark (p : Pen) (c : Char) : Pen := { p.space.put [c] with spaced := false }

/-- Writes a text with its line breaks. What follows a line break starts at the column. -/
def lines (column : Nat) : (atBreak : Bool) → List Char → Pen → Pen × Bool
  | atBreak, [], p => (p, atBreak)
  | atBreak, c :: rest, p =>
    if Yaml.isBreak c then lines column true rest (p.putBreak c)
    else
      let p := if atBreak then p.toColumn column else p
      lines column false rest { p.put [c] with inMargin := false }

/-! ### Scalars -/

/-- Digits of base 16, in capitals, with zeros in front up to a width. -/
def paddedHex (width n : Nat) : List Char :=
  let digits := (Nat.toDigits 16 n).map Char.toUpper
  List.replicate (width - digits.length) '0' ++ digits

/-- A character between double quotes. -/
def escaped (c : Char) : List Char :=
  match c with
  | '\x22' => ['\\', '\x22']
  | '\\' => ['\\', '\\']
  | '\x00' => ['\\', '0']
  | '\x07' => ['\\', 'a']
  | '\x08' => ['\\', 'b']
  | '\t' => ['\\', 't']
  | '\n' => ['\\', 'n']
  | '\x0b' => ['\\', 'v']
  | '\x0c' => ['\\', 'f']
  | '\r' => ['\\', 'r']
  | '\x1b' => ['\\', 'e']
  | '\u0085' => ['\\', 'N']
  | '\u2028' => ['\\', 'L']
  | '\u2029' => ['\\', 'P']
  | c =>
    if Yaml.isPrintable c then [c]
    else if c.toNat ≤ 0xFF then '\\' :: 'x' :: paddedHex 2 c.toNat
    else if c.toNat ≤ 0xFFFF then '\\' :: 'u' :: paddedHex 4 c.toNat
    else '\\' :: 'U' :: paddedHex 8 c.toNat

def doubleQuoted (p : Pen) (cs : List Char) : Pen :=
  p.word ("\x22" ++ String.ofList (cs.flatMap escaped) ++ "\x22")

/-- Writes a text between single quotes, where a quote is doubled. -/
def singleQuoted (p : Pen) (column : Nat) (cs : List Char) : Pen :=
  let body := cs.flatMap fun c => if c == '\x27' then [c, c] else [c]
  let (p, atBreak) := lines column false body (p.word "\x27")
  (if atBreak then p.toColumn column else p).close "\x27"

/-- The mark in front of literal lines: whether the first needs its margin named, and what becomes of
the line breaks at the end. -/
def literalMark (cs : List Char) : String :=
  let margin := if cs.head?.any (fun c => c == ' ' || Yaml.isBreak c) then "2" else ""
  let ending := match cs.reverse.map Yaml.isBreak with
    | true :: true :: _ | [true] => "+"
    | true :: _ => ""
    | _ => "-"
  "|" ++ margin ++ ending

/-- Writes the lines of a text as they are. -/
def literal (p : Pen) (column : Nat) (cs : List Char) : Pen :=
  let p := (p.word (literalMark cs)).putBreak '\n'
  (lines column true cs { p with spaced := true }).1

/-- Writes a text; its further lines start at the column. -/
def scalar (p : Pen) (column : Nat) (s : String) : Pen :=
  match ScalarStyle.ofText s with
  | .plain => p.word s
  | .singleQuoted => p.singleQuoted column s.toList
  | .doubleQuoted => p.doubleQuoted s.toList
  | .literal => p.literal column s.toList

end Pen

end Rsrc.Document
