import Rsrc.Integer

/-!
# Bytes

Integers as byte sequences in either byte order, hexadecimal text of bytes, splitting off a known
number of bytes, and an append-only buffer.
-/

namespace Rsrc

inductive ByteOrder where
  | big
  | little
  deriving DecidableEq, Repr, Inhabited

namespace ByteOrder

/-- The low `width` bytes of `n`, least significant first. -/
def lowBytes : Nat → Nat → List UInt8
  | 0, _ => []
  | width + 1, n => UInt8.ofNat n :: lowBytes width (n / 256)

/-- The number whose bytes, least significant first, are given. -/
def ofLowBytes : List UInt8 → Nat
  | [] => 0
  | b :: bytes => b.toNat + 256 * ofLowBytes bytes

/-- Puts bytes given least significant first into this order, and back. -/
def arrange : ByteOrder → List UInt8 → List UInt8
  | big, bytes => bytes.reverse
  | little, bytes => bytes

/-- The low `width` bytes of a word. -/
def write (order : ByteOrder) (width : Nat) (value : Int64) : List UInt8 :=
  order.arrange (lowBytes width value.toUInt64.toNat)

/-- The number that the bytes stand for. -/
def readNat (order : ByteOrder) (bytes : List UInt8) : Nat := ofLowBytes (order.arrange bytes)

/-- Reads at most eight bytes as an unsigned number, or as a number in two's complement. -/
def read (order : ByteOrder) (signed : Bool) (bytes : List UInt8) : Int64 :=
  let n := order.readNat bytes
  if signed then Int64.ofInt (Int.bmod n (Nat.pow 256 bytes.length)) else Int64.ofNat n

end ByteOrder

namespace Hex

def digit (n : Nat) : Char := if n < 10 then Char.ofNat (48 + n) else Char.ofNat (55 + n)

/-- The two upper-case digits of a byte. -/
def ofByte (b : UInt8) : List Char := [digit (b.toNat / 16), digit (b.toNat % 16)]

/-- Upper-case digits in groups of two bytes, divided by blanks. -/
def groups : List UInt8 → List Char
  | [] => []
  | [a] => ofByte a
  | [a, b] => ofByte a ++ ofByte b
  | a :: b :: rest => ofByte a ++ ofByte b ++ ' ' :: groups rest

/-- Upper-case digits without blanks. -/
def plain (bytes : List UInt8) : List Char := bytes.flatMap ofByte

end Hex

/-- The first `n` bytes and the rest, if there are as many. -/
def splitBytes? : Nat → List UInt8 → Option (List UInt8 × List UInt8)
  | 0, bytes => some ([], bytes)
  | _ + 1, [] => none
  | n + 1, b :: bytes => (splitBytes? n bytes).map fun (front, rest) => (b :: front, rest)

/-- An append-only buffer that writes integers in a chosen byte order. -/
structure Writer where
  order : ByteOrder := .big
  bytes : ByteArray := .empty

namespace Writer

def size (w : Writer) : Nat := w.bytes.size

def isEmpty (w : Writer) : Bool := w.bytes.size == 0

def append (w : Writer) (bytes : ByteArray) : Writer := { w with bytes := w.bytes ++ bytes }

def byte (w : Writer) (b : UInt8) : Writer := { w with bytes := w.bytes.push b }

/-- Appends the low `width` bytes of `value`. -/
def integer (w : Writer) (width : Nat) (value : Int64) : Writer :=
  w.append (w.order.write width value).toByteArray

end Writer

end Rsrc
