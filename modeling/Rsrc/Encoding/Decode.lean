import Rsrc.Encoding.Encode

/-!
# Decoding resources

Reads the values of a type back from the front of a byte sequence. Hexadecimal data takes all that is
left.
-/

namespace Rsrc

/-- Computations that take bytes from the front of a sequence. -/
abbrev Decoding := StateT (List UInt8) (Except EncodingError)

namespace Decoding

/-- Takes `n` bytes for the value of a key. -/
def take (key : String) (n : Nat) : Decoding (List UInt8) := fun bytes =>
  match splitBytes? n bytes with
  | some parts => .ok parts
  | none => .error (.truncated key)

def takeRest : Decoding (List UInt8) := fun bytes => .ok (bytes, [])

/-- Takes the bytes before a NUL, and the NUL. -/
def takeTerminated (key : String) : Decoding (List UInt8) := fun bytes =>
  match bytes.dropWhile (· != 0) with
  | [] => .error (.truncated key)
  | _ :: rest => .ok (bytes.takeWhile (· != 0), rest)

def integer (order : ByteOrder) (key : String) (width : Nat) (signed : Bool) : Decoding Int64 := do
  return order.read signed (← take key width)

/-- Takes a length and as many bytes. -/
def takeCounted (order : ByteOrder) (key : String) (width : Nat) : Decoding (List UInt8) := do
  let length ← take key width
  take key (order.readNat length)

def reference (format : Format) (order : ByteOrder) (key : String) : Decoding Reference :=
  match format with
  | .extended => Reference.decode
  | .classic | .rez => do return { id := ← integer order key 2 true }

/-- Reads a value under a tag that is neither a bit nor a nested type. -/
def value (format : Format) (order : ByteOrder) (tag : Tag) (key : String) : Decoding Value := do
  match tag with
  | .integer width signed => return .integer (← integer order key width.bytes signed)
  | .char => return .integer (← integer order key 1 false)
  | .boolean => return .boolean ((← integer order key 1 false) != 0)
  | .shortText => return .string (Text.decodeLossy (← takeCounted order key 1))
  | .longText => return .string (Text.decodeLossy (← takeCounted order key 4))
  | .terminatedText => return .string (Text.decodeLossy (← takeTerminated key))
  | .fixedText size =>
    return .string (Text.decodeLossy ((← take key size).takeWhile (· != 0)))
  | .data => return .string (String.ofList (Hex.plain (← takeRest)))
  | .reference => return .reference (← reference format order key)
  | _ => return .integer (← integer order key 8 true)

/-- The first `n` bits of a byte below and at the bit `weight`. -/
def unpackBits (byte : UInt8) : (weight n : Nat) → List Bool
  | _, 0 => []
  | weight, n + 1 => (byte.toNat / weight % 2 == 1) :: unpackBits byte (weight / 2) n

variable {τ : Type}

/-- How the values of a nested type are read into a record, under keys that start with the given
text. -/
abbrev Nested (τ : Type) := τ → Record → (front : String) → Decoding Record

/-- Reads one cell. -/
def cell (format : Format) (order : ByteOrder) (nested : Nested τ) (front : String) (r : Record) :
    Cell τ → Decoding Record
  | .bits [] => return r
  | .bits (first :: run) => do
    let byte ← take (front ++ first.label) 1
    let bits := unpackBits (byte.headD 0) 128 (run.length + 1)
    return ((first :: run).zip bits).foldl
      (fun r (e, b) => r.set (front ++ e.label) (.boolean b)) r
  | .one e => do
    let key := front ++ e.label
    match e.tag, e.nested with
    | .rect, some t | .nested _, some t => nested t r (key ++ ".")
    | .rect, none | .nested _, none =>
      Encoding.rectSides.foldlM
        (fun r name => do
          let key := key ++ "." ++ name
          return r.set key (.integer (← integer order key 2 true))) r
    | tag, _ => return r.set key (← value format order tag key)

/-- Reads entries into a record. -/
def entries (format : Format) (order : ByteOrder) (nested : Nested τ) (front : String) (r : Record)
    (es : List (Entry τ)) : Decoding Record :=
  (Cell.ofEntries es).foldlM (cell format order nested front) r

/-- Does the same `n` times. -/
def times {α : Type} (read : Decoding α) : Nat → Decoding (List α)
  | 0 => return []
  | n + 1 => do
    let first ← read
    let rest ← times read n
    return first :: rest

/-- Reads one section into a record. -/
def readSection (format : Format) (order : ByteOrder) (fields : List Field) (nested : Nested τ)
    (front : String) (r : Record) : Section τ → Decoding Record
  | .plain es => entries format order nested front r es
  | .list count members => do
    let length ← take (front ++ count.label) 2
    let name := ((listOwner? fields count.label).map (·.name)).getD count.label
    let elements ← times (entries format order nested "" {} members) (order.readNat length)
    return r.appendEntries (front ++ name) elements

end Decoding

/-- Reads the values of a type into a record, under keys that start with the given text. -/
def TypeDef.decodeInto (format : Format) (d : TypeDef) (r : Record) (front : String) :
    Decoding Record :=
  let layout := d.layout
  layout.sections.foldlM
    (Decoding.readSection format layout.order d.fields
      (fun ⟨t, _⟩ r front => t.decodeInto format r front) front) r
termination_by sizeOf d

/-- The values that the front of a byte sequence holds. -/
def TypeDef.decode (format : Format) (d : TypeDef) (bytes : List UInt8) :
    Except EncodingError Record :=
  return (← (d.decodeInto format {} "").run bytes).1

end Rsrc
