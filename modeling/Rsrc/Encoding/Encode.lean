import Rsrc.Encoding.Section
import Rsrc.Format
import Rsrc.Resource

/-!
# Encoding resources

The bytes of a resource are those of the cells of its template, one after another. A nested type is
stored in its own byte order; its values have keys that start with the label and a point.
-/

namespace Rsrc

/-- What errors say about the resource that is encoded. -/
structure Subject where
  resource : String
  site : Site

def Subject.reject {α : Type} (s : Subject) (field : String) (cause : Rejection) :
    Except EncodingError α :=
  .error (.rejected cause field s.resource s.site)

def Subject.mismatch {α : Type} (s : Subject) (field expected : String) (found : Value) :
    Except EncodingError α :=
  s.reject field (.typeMismatch expected found.kindName)

namespace Encoding

/-- The number of elements that a list can have. -/
def maxElements : Nat := 65535

/-- The parts of a rectangle, in order. -/
def rectSides : List String := ["top", "left", "bottom", "right"]

/-- The id of a reference that was never assigned. -/
def nullReference : Reference := { id := -1 }

/-- The integer fits into the width. An unsigned width also takes negative integers that fit into it
as signed ones. -/
def fits (width : Nat) (signed : Bool) (n : Int64) : Bool :=
  let half := Nat.pow 2 (8 * width - 1)
  8 ≤ width || (-(half : Int) ≤ n.toInt && n.toInt < if signed then half else 2 * half)

/-! ### Values by tag -/

/-- Stores an integer that fits, for an entry with the given tag. -/
def integer (s : Subject) (order : ByteOrder) (width : Nat) (signed : Bool) (tag : Tag)
    (key : String) (n : Int64) : Except EncodingError (List UInt8) :=
  if fits width signed n then .ok (order.write width n) else s.reject key (.outOfRange n tag.code)

def integerOf (s : Subject) (key : String) : Option Value → Except EncodingError Int64
  | none => .ok 0
  | some (.reference r) => .ok r.id
  | some value =>
    match value.asInteger with
    | some n => .ok n
    | none => s.mismatch key "an integer" value

/-- A string of one byte, or an integer. -/
def characterOf (s : Subject) (key : String) : Option Value → Except EncodingError Int64
  | none => .ok 0
  | some value =>
    match value, value.asInteger with
    | .string text, _ =>
      match Text.encode text with
      | [b] => .ok (Int64.ofNat b.toNat)
      | _ => s.mismatch key "a character" value
    | _, some n => .ok n
    | _, none => s.mismatch key "a character" value

def booleanOf (s : Subject) (key : String) : Option Value → Except EncodingError Bool
  | none => .ok false
  | some (.boolean b) => .ok b
  | some (.integer n) => .ok (n != 0)
  | some value => s.mismatch key "a boolean" value

def textOf (s : Subject) (key expected : String) : Option Value → Except EncodingError String
  | none => .ok ""
  | some (.string text) => .ok text
  | some value => s.mismatch key expected value

def referenceOf (s : Subject) (key : String) : Option Value → Except EncodingError Reference
  | none => .ok nullReference
  | some (.reference r) => .ok r
  | some (.integer id) => .ok { id }
  | some value => s.mismatch key "a reference" value

/-- Stores the bytes of a string. A string of fixed size leaves room for a NUL. -/
def text (s : Subject) (order : ByteOrder) (tag : Tag) (key : String) (bytes : List UInt8) :
    Except EncodingError (List UInt8) :=
  let tooLong (limit : Nat) : Except EncodingError (List UInt8) :=
    s.reject key (.textTooLong bytes.length limit)
  match tag with
  | .shortText =>
    if bytes.length ≤ 0xFF then .ok (order.write 1 (Int64.ofNat bytes.length) ++ bytes)
    else tooLong 0xFF
  | .terminatedText => .ok (bytes ++ [0])
  | .longText =>
    if bytes.length ≤ 0xFFFFFFFF then .ok (order.write 4 (Int64.ofNat bytes.length) ++ bytes)
    else tooLong 0xFFFFFFFF
  | .fixedText size =>
    if bytes.length < size then .ok (bytes ++ List.replicate (size - bytes.length) 0)
    else tooLong (size - 1)
  | _ => .ok []

/-- The blanks that hexadecimal data may contain. -/
def isHexBlank (c : Char) : Bool :=
  c == ' ' || c == '\t' || c == '\n' || c == '\x0c' || c == '\r'

/-- The byte of two hexadecimal digits, or of a plus sign and one. -/
def hexPair? (a b : Char) : Option UInt8 :=
  match Integer.hexDigit? a, Integer.hexDigit? b with
  | some high, some low => some (UInt8.ofNat (high * 16 + low))
  | none, some low => if a = '+' then some (UInt8.ofNat low) else none
  | _, _ => none

def hexPairs? : List Char → Option (List UInt8)
  | [] => some []
  | [_] => none
  | a :: b :: rest => do
    let byte ← hexPair? a b
    let bytes ← hexPairs? rest
    return byte :: bytes

/-- The bytes of hexadecimal data. -/
def hexData? (cs : List Char) : Option (List UInt8) := hexPairs? (cs.filter (!isHexBlank ·))

def reference (s : Subject) (format : Format) (order : ByteOrder) (key : String) (r : Reference) :
    Except EncodingError (List UInt8) :=
  match format with
  | .extended => r.encode
  | .classic | .rez => integer s order 2 true .reference key r.id

/-- Stores a value under a tag that is neither a bit nor a nested type. -/
def value (s : Subject) (format : Format) (order : ByteOrder) (tag : Tag) (key : String)
    (v : Option Value) : Except EncodingError (List UInt8) := do
  match tag with
  | .integer width signed =>
    let n ← integerOf s key v
    integer s order width.bytes signed tag key n
  | .char =>
    let n ← characterOf s key v
    if 0 ≤ n && n ≤ 255 then return [UInt8.ofNat n.toInt.toNat]
    s.reject key (.outOfRange n tag.code)
  | .boolean =>
    let b ← booleanOf s key v
    return [if b then 1 else 0]
  | .shortText | .terminatedText | .longText | .fixedText _ =>
    let content ← textOf s key "a string" v
    text s order tag key (Text.encode content)
  | .data =>
    let content ← textOf s key "hexadecimal data" v
    match hexData? content.toList with
    | some bytes => return bytes
    | none => s.reject key .invalidHex
  | .reference =>
    let r ← referenceOf s key v
    reference s format order key r
  | _ => return []

/-- A side of a rectangle. -/
def side (s : Subject) (order : ByteOrder) (key : String) (v : Option Value) :
    Except EncodingError (List UInt8) := do
  let n ← match v with
    | none => pure 0
    | some value =>
      match value.asInteger with
      | some n => pure n
      | none => s.mismatch key "an integer" value
  integer s order 2 true (.integer .two true) key n

/-- The number whose highest bit is `weight`, from the bits that start there. -/
def weighBits (weight : Nat) : List Bool → Nat
  | [] => 0
  | b :: rest => (if b then weight else 0) + weighBits (weight / 2) rest

/-- At most eight bits in a byte, the first one highest. -/
def packBits (bits : List Bool) : UInt8 := UInt8.ofNat (weighBits 128 bits)

/-! ### Cells and sections -/

/-- Puts the results of a function one after another. -/
def concat {α : Type} (f : α → Except EncodingError (List UInt8)) :
    List α → Except EncodingError (List UInt8)
  | [] => .ok []
  | a :: rest => do
    let bytes ← f a
    let more ← concat f rest
    return bytes ++ more

variable {τ : Type}

/-- How the values of a nested type are stored, whose keys start with the given text. -/
abbrev Nested (τ : Type) := τ → Record → (front : String) → Except EncodingError (List UInt8)

/-- Stores one cell. -/
def cell (s : Subject) (format : Format) (order : ByteOrder) (nested : Nested τ) (r : Record)
    (front : String) : Cell τ → Except EncodingError (List UInt8)
  | .bits run => do
    let bits ← run.mapM fun e => booleanOf s (front ++ e.label) (r.get? (front ++ e.label))
    return [packBits bits]
  | .one e =>
    let key := front ++ e.label
    match e.tag, e.nested with
    | .rect, some t | .nested _, some t => nested t r (key ++ ".")
    | .rect, none | .nested _, none =>
      concat (fun name => side s order (key ++ "." ++ name) (r.get? (key ++ "." ++ name))) rectSides
    | tag, _ => value s format order tag key (r.get? key)

def entries (s : Subject) (format : Format) (order : ByteOrder) (nested : Nested τ) (r : Record)
    (front : String) (es : List (Entry τ)) : Except EncodingError (List UInt8) :=
  concat (cell s format order nested r front) (Cell.ofEntries es)

/-- The bounds on the number of elements of a list. -/
def listBounds (owner : Option Field) : Int64 × Int64 :=
  match owner.bind (·.repetition) with
  | some r => (r.lower, r.upper)
  | none => (0, Int64.ofNat maxElements)

/-- Stores one section. The elements of a list have keys of their own. -/
def sectionBytes (s : Subject) (format : Format) (order : ByteOrder) (fields : List Field)
    (nested : Nested τ) (r : Record) (front : String) :
    Section τ → Except EncodingError (List UInt8)
  | .plain es => entries s format order nested r front es
  | .list count members => do
    let owner := listOwner? fields count.label
    let elements := (owner.map fun f => r.list (front ++ f.name)).getD []
    let n := elements.length
    let (lower, upper) := listBounds owner
    if n < lower.toInt || upper.toInt < n || maxElements < n then
      s.reject ((owner.map (·.name)).getD (front ++ count.label)) (.repeatCount n lower upper)
    else
      let bytes ← concat (fun element => entries s format order nested element "" members) elements
      return order.write 2 (Int64.ofNat n) ++ bytes

end Encoding

/-- Stores the values of a record after a type, with keys that start with the given text. -/
def TypeDef.encode (s : Subject) (format : Format) (d : TypeDef) (r : Record) (front : String) :
    Except EncodingError (List UInt8) :=
  let layout := d.layout
  Encoding.concat
    (Encoding.sectionBytes s format layout.order d.fields
      (fun ⟨t, _⟩ r front => t.encode s format r front) r front)
    layout.sections
termination_by sizeOf d

def Resource.subject (r : Resource) : Subject := ⟨r.display, r.site⟩

/-- The bytes of a resource. -/
def Resource.encode (format : Format) (r : Resource) : Except EncodingError (List UInt8) :=
  r.definition.encode r.subject format r.values ""

end Rsrc
