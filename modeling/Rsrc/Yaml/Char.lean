/-!
# Characters of YAML texts
-/

namespace Rsrc.Yaml

variable (c : Char)

/-- The first three of these all stand for the same break; the others are kept as they are. -/
def isBreak : Bool :=
  c == '\n' || c == '\r' || c == '\u0085' || c == '\u2028' || c == '\u2029'

def isBlank : Bool := c == ' ' || c == '\t'

def isSpace : Bool := isBlank c || isBreak c

/-- A blank, a line break, or the end. -/
def isGap (c : Option Char) : Bool := c.all isSpace

/-- A character that may stand in a text. -/
def isAllowed : Bool :=
  let n := c.toNat
  n == 0x09 || n == 0x0A || n == 0x0D || (0x20 ≤ n && n ≤ 0x7E) || n == 0x85 ||
    (0xA0 ≤ n && n ≠ 0xFFFE && n ≠ 0xFFFF)

/-- A character that is written as it is, and not by an escape. -/
def isPrintable : Bool :=
  let n := c.toNat
  n == 0x0A || (0x20 ≤ n && n ≤ 0x7E) || (0xA0 ≤ n && n ≠ 0xFEFF && n ≠ 0xFFFE && n ≠ 0xFFFF)

/-- A character of the name of an anchor or a tag. -/
def isNameChar : Bool := c.isAlphanum || c == '_' || c == '-'

/-- A bracket or a comma of a flow collection. -/
def isFlowMark : Bool := ",[]\x7b\x7d".toList.contains c

/-- The line breaks of a text, without what stands between them. -/
def breaksOf : List Char → List Char
  | [] => []
  | '\r' :: '\n' :: rest => '\n' :: breaksOf rest
  | c :: rest =>
    if c == '\u2028' || c == '\u2029' then c :: breaksOf rest
    else if isBreak c then '\n' :: breaksOf rest
    else breaksOf rest

/-- What a gap inside a scalar stands for: its blanks, if it is in one line. A single line break is a
blank, and of several the first does not count. -/
def foldedGap (gap : List Char) : List Char :=
  match breaksOf gap with
  | [] => gap
  | ['\n'] => [' ']
  | '\n' :: more => more
  | breaks => breaks

end Rsrc.Yaml
