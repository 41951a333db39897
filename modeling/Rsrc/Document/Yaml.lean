import Rsrc.Decimal.Layout
import Rsrc.Document.Pen

/-!
# Documents as YAML

Maps and lists are written in block style, one entry a line. The items of a list start at the column
of the key that holds it; an empty map or list is written as `{}` or `[]`.
-/

namespace Rsrc.Document

/-- A key that can stand in the line of its value: a short one without line breaks. -/
def isSimpleKey (key : String) : Bool :=
  key.utf8ByteSize ≤ 128 && !key.toList.any Yaml.isBreak

/-- The column of what belongs to a collection. -/
def innerColumn (outer : Option Nat) : Nat := outer.elim 0 (· + 2)

/-- Writes a key at a column, up to where its value follows. -/
def Pen.key (p : Pen) (column : Nat) (key : String) : Pen :=
  let p := p.toColumn column
  if isSimpleKey key then (p.scalar (column + 2) key).close ":"
  else (((p.mark '?').scalar (column + 2) key).toColumn column).mark ':'

mutual

/-- Writes a document that belongs to a collection at the column `outer`. A list behind a key in the
same line starts at that column; every other collection starts further to the right. -/
def write (outer : Option Nat) : Document → Pen → Pen
  | null, p => p.word "null"
  | bool b, p => p.word (if b then "true" else "false")
  | integer n, p => p.word (toString n)
  | decimal x, p => p.word (Decimal.Layout.yaml.render x)
  | text s, p => p.scalar (outer.getD 0 + 2) s
  | list [], p => p.word "[]"
  | map [], p => p.word "\x7b\x7d"
  | list items, p => writeItems (if p.inMargin then innerColumn outer else outer.getD 0) items p
  | map entries, p => writeEntries (innerColumn outer) entries p

def writeItems (column : Nat) : List Document → Pen → Pen
  | [], p => p
  | item :: rest, p =>
    writeItems column rest (write (some column) item ((p.toColumn column).mark '-'))

def writeEntries (column : Nat) : List (String × Document) → Pen → Pen
  | [], p => p
  | (key, value) :: rest, p =>
    writeEntries column rest (write (some column) value (p.key column key))

end

def toYaml (d : Document) : String := ((write none d {}).toColumn 0).text

end Rsrc.Document
