/-!
# Lines and columns

A byte offset into a text as a line and a column, both counted from one. Columns count characters.
-/

namespace Rsrc.Text

/-- The number of bytes of a character sequence in UTF-8. -/
def byteSize : List Char → Nat
  | [] => 0
  | c :: cs => c.utf8Size + byteSize cs

/-- Walks over `cs`, which starts at byte `offset`, line `line` and column `column`, up to the
first character that starts at `position` or later. -/
def placeFrom (position : Nat) : Nat → Nat → Nat → List Char → Nat × Nat
  | _, line, column, [] => (line, column)
  | offset, line, column, c :: cs =>
    if position ≤ offset then (line, column)
    else if c = '\n' then placeFrom position (offset + c.utf8Size) (line + 1) 1 cs
    else placeFrom position (offset + c.utf8Size) line (column + 1) cs

/-- The line and column of byte `position` in `text`. -/
def place (text : String) (position : Nat) : Nat × Nat := placeFrom position 0 1 1 text.toList

end Rsrc.Text
