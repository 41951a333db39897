import Rsrc.Bytes
import Rsrc.Decimal.Layout
import Rsrc.Document

/-!
# Documents as JSON

The written form has one item a line and indents by two spaces for every level.
-/

namespace Rsrc.Document

/-- A character inside a quoted text. -/
def jsonChar (c : Char) : List Char :=
  match c with
  | '\x22' => ['\\', '\x22']
  | '\\' => ['\\', '\\']
  | '\n' => ['\\', 'n']
  | '\r' => ['\\', 'r']
  | '\t' => ['\\', 't']
  | '\x08' => ['\\', 'b']
  | '\x0c' => ['\\', 'f']
  | c =>
    if c.toNat < 0x20 then
      ['\\', 'u', '0', '0'] ++ (Hex.ofByte (UInt8.ofNat c.toNat)).map Char.toLower
    else [c]

def jsonText (s : String) : String :=
  "\x22" ++ String.ofList (s.toList.flatMap jsonChar) ++ "\x22"

/-- The blanks that a line starts with. -/
def margin (level : Nat) : String := String.ofList (List.replicate (2 * level) ' ')

/-- Items between brackets, each on a line of its own. -/
def enclosed (level : Nat) (opening closing : String) (items : List String) : String :=
  if items.isEmpty then opening ++ closing
  else
    opening ++ "\n" ++ ",\n".intercalate (items.map (margin (level + 1) ++ ·)) ++ "\n"
      ++ margin level ++ closing

mutual

def jsonAt (level : Nat) : Document → String
  | null => "null"
  | bool b => if b then "true" else "false"
  | integer n => toString n
  | decimal x => Decimal.Layout.json.render x
  | text s => jsonText s
  | list items => enclosed level "[" "]" (jsonItems (level + 1) items)
  | map entries => enclosed level "\x7b" "\x7d" (jsonEntries (level + 1) entries)

def jsonItems (level : Nat) : List Document → List String
  | [] => []
  | item :: rest => jsonAt level item :: jsonItems level rest

def jsonEntries (level : Nat) : List (String × Document) → List String
  | [] => []
  | (key, value) :: rest =>
    (jsonText key ++ ": " ++ jsonAt level value) :: jsonEntries level rest

end

def toJson (d : Document) : String := jsonAt 0 d

end Rsrc.Document
