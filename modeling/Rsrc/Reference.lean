import Rsrc.Bytes
import Rsrc.Encoding.Error
import Rsrc.Text.Utf8

/-!
# Resource references

A reference names a resource by id, and possibly by type and container. Its compact encoding is a
flag byte, the container as a counted string if there is one, four bytes of type code if there is
one, and the id in eight bytes, most significant first.
-/

namespace Rsrc

structure Reference where
  id : Int64
  typeName : Option String := none
  typeCode : Option String := none
  container : Option String := none
  deriving DecidableEq, Repr, Inhabited

namespace Reference

variable (r : Reference)

/-- The id that stands for the next free one. -/
def autoId : Int64 := Int64.minValue

/-- The id that matches any resource. -/
def anyId : Int64 := Int64.minValue + 1

def auto : Reference := { id := autoId }

def any : Reference := { id := anyId }

def isAuto : Bool := r.id == autoId

def isAny : Bool := r.id == anyId

def idText (id : Int64) : String :=
  if id = autoId then "auto" else if id = anyId then "?" else toString id.toInt

/-- The text of a part that is followed by a point, if it is there. -/
def partText : Option String → String
  | none => ""
  | some part => part ++ "."

/-- The reference as it is written in a source, with the type's code in place of a missing name. -/
def display : String :=
  "#" ++ partText r.container ++ partText (r.typeName <|> r.typeCode) ++ idText r.id

/-- The first four bytes of a code, blanks in place of missing ones. -/
def codeBytes (code : String) : List UInt8 := (Text.encode code ++ List.replicate 4 0x20).take 4

/-- A container name behind its length. -/
def containerBytes : Option String → Except EncodingError (List UInt8)
  | none => .ok []
  | some container =>
    let bytes := Text.encode container
    if bytes.length ≤ 255 then .ok (UInt8.ofNat bytes.length :: bytes)
    else .error (.containerTooLong container)

def flags : UInt8 :=
  (if r.container.isSome then 1 else 0) + (if r.typeCode.isSome then 2 else 0)

def encode : Except EncodingError (List UInt8) := do
  let container ← containerBytes r.container
  return r.flags :: (container ++ (r.typeCode.elim [] codeBytes) ++ ByteOrder.big.write 8 r.id)

/-- The first `n` bytes and the rest, if there are as many. -/
def split (n : Nat) (bytes : List UInt8) : Except EncodingError (List UInt8 × List UInt8) :=
  match splitBytes? n bytes with
  | some parts => .ok parts
  | none => .error (.truncated "reference")

def readContainer (present : Bool) (bytes : List UInt8) :
    Except EncodingError (Option String × List UInt8) := do
  if present then
    let (length, rest) ← split 1 bytes
    let (raw, rest) ← split (ByteOrder.big.readNat length) rest
    return (some (Text.decodeLossy raw), rest)
  else return (none, bytes)

def readCode (present : Bool) (bytes : List UInt8) :
    Except EncodingError (Option String × List UInt8) := do
  if present then
    let (raw, rest) ← split 4 bytes
    return (some (Text.decodeLossy raw), rest)
  else return (none, bytes)

/-- Reads one reference from the front and gives what follows it. -/
def decode (bytes : List UInt8) : Except EncodingError (Reference × List UInt8) := do
  let (head, rest) ← split 1 bytes
  let flags := ByteOrder.big.readNat head
  let (container, rest) ← readContainer (flags % 2 == 1) rest
  let (typeCode, rest) ← readCode (flags / 2 % 2 == 1) rest
  let (id, rest) ← split 8 rest
  return ({ id := ByteOrder.big.read true id, typeCode, container }, rest)

end Reference

end Rsrc
