import Rsrc.Bytes
import Rsrc.Text.Front

/-!
# Storage tags

A tag says how one entry of a template is stored. Tags are written as codes of four characters.
-/

namespace Rsrc

/-- The widths of stored integers. -/
inductive Width where
  | one
  | two
  | four
  | eight
  deriving DecidableEq, Repr

def Width.bytes : Width → Nat
  | one => 1
  | two => 2
  | four => 4
  | eight => 8

inductive Tag where
  | integer (width : Width) (signed : Bool)
  | char
  | boolean
  /-- One bit; neighbours share bytes. -/
  | bit
  | rect
  /-- A string behind one byte of length. -/
  | shortText
  /-- A string before a NUL. -/
  | terminatedText
  /-- A string behind four bytes of length. -/
  | longText
  /-- A string in exactly `size` bytes, padded by NULs. -/
  | fixedText (size : Nat)
  /-- Hexadecimal data up to the end. -/
  | data
  /-- The number of elements of the list that follows. -/
  | count
  | listStart
  | listEnd
  | reference
  /-- A value of another type, named here. -/
  | nested (typeName : String)
  deriving DecidableEq, Repr

namespace Tag

def integerCode : Width → Bool → String
  | .one, true => "DBYT"
  | .two, true => "DWRD"
  | .four, true => "DLNG"
  | .eight, true => "DQWD"
  | .one, false => "HBYT"
  | .two, false => "HWRD"
  | .four, false => "HLNG"
  | .eight, false => "HQWD"

/-- Upper-case hexadecimal digits, at least three of them. -/
def sizeDigits (n : Nat) : List Char :=
  let digits := (Nat.toDigits 16 n).map Char.toUpper
  List.replicate (3 - digits.length) '0' ++ digits

def code : Tag → String
  | integer width signed => integerCode width signed
  | char => "CHAR"
  | boolean => "BOOL"
  | bit => "BBIT"
  | rect => "RECT"
  | shortText => "PSTR"
  | terminatedText => "CSTR"
  | longText => "LSTR"
  | fixedText size => "C" ++ String.ofList (sizeDigits size)
  | data => "HEXD"
  | count => "OCNT"
  | listStart => "LSTC"
  | listEnd => "LSTE"
  | reference => "RSRC"
  | nested typeName => s!"Nested<{typeName}>"

/-- The tags whose code is a fixed word. -/
def named : List (String × Tag) :=
  [("DBYT", integer .one true), ("DWRD", integer .two true), ("DLNG", integer .four true),
    ("DQWD", integer .eight true), ("DQAD", integer .eight true), ("HBYT", integer .one false),
    ("HWRD", integer .two false), ("HLNG", integer .four false), ("HQWD", integer .eight false),
    ("HQAD", integer .eight false), ("CHAR", char), ("BOOL", boolean), ("BBIT", bit),
    ("RECT", rect), ("PSTR", shortText), ("CSTR", terminatedText), ("LSTR", longText),
    ("HEXD", data), ("OCNT", count), ("LSTC", listStart), ("LSTE", listEnd), ("RSRC", reference)]

/-- A size in three hexadecimal digits, or in a plus sign and two. -/
def readSize? (cs : List Char) : Option Nat :=
  if cs.length ≠ 3 then none
  else match cs with
    | '+' :: digits => Integer.hexDigits? digits
    | digits => Integer.hexDigits? digits

/-- A tag for strings of a fixed size that is not zero. -/
def ofSizeCode? (code : String) : Option Tag :=
  match code.toList with
  | 'C' :: size => ((readSize? size).filter (0 < ·)).map fixedText
  | _ => none

/-- The tag of a code of four characters. -/
def ofCode? (code : String) : Option Tag := named.lookup code <|> ofSizeCode? code

/-- The bytes that a value takes, or zero if that depends on the value. -/
def fixedSize : Tag → Nat
  | integer width _ => width.bytes
  | char | boolean => 1
  | count => 2
  | rect => 8
  | reference => 9
  | bit | shortText | terminatedText | longText | fixedText _ | data | listStart | listEnd
  | nested _ => 0

/-- The width in bytes and the signedness of integers, the count of a list among them. -/
def integerLayout : Tag → Option (Nat × Bool)
  | integer width signed => some (width.bytes, signed)
  | count => some (2, false)
  | _ => none

def isInteger (tag : Tag) : Bool := tag.integerLayout.isSome

def isText : Tag → Bool
  | shortText | terminatedText | longText | fixedText _ => true
  | _ => false

/-- Tags that structure a template and hold no value. -/
def isListMarker : Tag → Bool
  | count | listStart | listEnd => true
  | _ => false

end Tag

end Rsrc
