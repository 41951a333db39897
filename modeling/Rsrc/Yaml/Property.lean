import Rsrc.Integer
import Rsrc.Text.Utf8
import Rsrc.Yaml.Scanner

/-!
# Anchors, tags and directives

An anchor names a node and a tag gives it a type. A directive stands before a document; it gives the
version of the language or declares a handle for tags.
-/

namespace Rsrc.Yaml.Scan

/-! ### Anchors -/

/-- The name of an anchor or of a use of it, behind its mark. -/
def anchorName : Scan String := do
  pass 1
  let name ← span isNameChar
  let next ← ahead 0
  if name.isEmpty || !(isGap next || next.any "?:,]\x7d%@`".toList.contains) then failure
  return String.ofList name

/-- Scans an anchor, or a use of one. -/
def anchor (token : String → Token) : Scan Unit := do
  saveKey
  allowKey false
  emit (token (← anchorName))

/-! ### Tags -/

/-- The byte that an escape of three characters stands for. -/
def escapedByte : Scan UInt8 := do
  match (← get).rest with
  | '%' :: high :: low :: _ =>
    let n ← Integer.hexDigits? [high, low]
    pass 3
    return n.toUInt8
  | _ => failure

/-- The number of bytes of a character that starts with the byte. -/
def byteWidth? (b : UInt8) : Option Nat :=
  if b < 0x80 then some 1
  else if 0xC0 ≤ b && b < 0xE0 then some 2
  else if 0xE0 ≤ b && b < 0xF0 then some 3
  else if 0xF0 ≤ b && b < 0xF8 then some 4
  else none

/-- Further bytes of a character. -/
def furtherBytes : Nat → Scan (List UInt8)
  | 0 => return []
  | n + 1 => do
    let b ← escapedByte
    if !(0x80 ≤ b && b < 0xC0) then failure
    return b :: (← furtherBytes n)

/-- A character of a tag whose bytes are escaped. -/
def escapedChar : Scan (List Char) := do
  let first ← escapedByte
  let further ← furtherBytes ((← byteWidth? first) - 1)
  return (Text.decodeLossy (first :: further)).toList

/-- A character of a tag; between angle brackets there are more of them. -/
def isTagChar (verbatim : Bool) (c : Char) : Bool :=
  isNameChar c || ";/?:@&=+$.%!~*\x27()".toList.contains c ||
    (verbatim && ",[]".toList.contains c)

/-- The characters of a tag. -/
def tagChars (verbatim : Bool) : (fuel : Nat) → Scan (List Char)
  | 0 => failure
  | fuel + 1 => do
    match ← ahead 0 with
    | none => return []
    | some c =>
      if c == '%' then
        let cs ← escapedChar
        return cs ++ (← tagChars verbatim fuel)
      else if isTagChar verbatim c then
        pass 1
        return c :: (← tagChars verbatim fuel)
      else return []

def tagText (verbatim : Bool) : Scan String := do
  return String.ofList (← tagChars verbatim ((← get).rest.length + 1))

/-- A text that may be a handle: an exclamation mark, a name, and a second mark if it is one. -/
def handleText : Scan String := do
  if (← ahead 0) != some '!' then failure
  pass 1
  let name ← span isNameChar
  if (← ahead 0) == some '!' then
    pass 1
    return "!" ++ String.ofList name ++ "!"
  return "!" ++ String.ofList name

/-- Whether a text ends with a second exclamation mark. -/
def isHandle (s : String) : Bool := s != "!" && s.toList.getLast? == some '!'

/-- A tag between angle brackets, or behind a handle. -/
def tagToken : Scan Token := do
  if (← ahead 1) == some '<' then
    pass 2
    let suffix ← tagText true
    if suffix.isEmpty || (← ahead 0) != some '>' then failure
    pass 1
    return .tag "" suffix
  let front ← handleText
  if isHandle front then
    let suffix ← tagText false
    if suffix.isEmpty then failure
    return .tag front suffix
  let suffix := String.ofList (front.toList.drop 1) ++ (← tagText false)
  return if suffix.isEmpty then .tag "" "!" else .tag "!" suffix

/-- Scans a tag. -/
def tag : Scan Unit := do
  saveKey
  allowKey false
  let token ← tagToken
  let next ← ahead 0
  if !(isGap next || ((← get).inFlow && next == some ',')) then failure
  emit token

/-! ### Directives -/

/-- A number of at most nine digits. -/
def versionNumber : Scan Nat := do
  let digits ← span Char.isDigit
  if 9 < digits.length then failure
  Integer.digits? digits

def versionToken : Scan Token := do
  let major ← versionNumber
  if (← ahead 0) != some '.' then failure
  pass 1
  return .version major (← versionNumber)

def handleToken : Scan Token := do
  let name ← handleText
  if !(name == "!" || isHandle name) || !(← ahead 0).any isBlank then failure
  discard (span isBlank)
  let front ← tagText true
  if front.isEmpty || !isGap (← ahead 0) then failure
  return .handle name front

/-- Scans a directive. -/
def directive : Scan Unit := do
  closeBlocks fun _ => true
  dropKey
  allowKey false
  pass 1
  let name ← span isNameChar
  if !isGap (← ahead 0) then failure
  discard (span isBlank)
  let token ← match String.ofList name with
    | "YAML" => versionToken
    | "TAG" => handleToken
    | _ => failure
  lineRest
  emit token

end Rsrc.Yaml.Scan
