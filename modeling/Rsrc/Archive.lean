import Rsrc.Bytes
import Rsrc.Dict
import Rsrc.Format
import Rsrc.Source
import Rsrc.Text.Utf8

/-!
# Archives

An archive collects encoded resources. They are laid out by type code, then attributes, then id;
`Archive.check` finds what a format can not represent.
-/

namespace Rsrc

/-- Why resources can not be put into an archive. -/
inductive ArchiveError where
  | idOutOfRange (code : String) (id : Int64) (format : Format)
  | nameTooLong (name : String) (limit : Nat)
  | attributeTooLong (text : String) (limit : Nat)
  | invalidTypeCode (code : String)
  | duplicateEntry (code : String) (id : Int64)
  | dataTooLarge (format : Format) (limit : Nat)
  /-- The archive could not be written to a file. -/
  | unwritable (path message : String)
  deriving DecidableEq, Repr

def ArchiveError.report : ArchiveError → Report
  | idOutOfRange code id format =>
    { code := "archive::id_out_of_range"
      message := s!"Resource '{code}' #{id} can not be stored in the {format.name} format"
      help := "The classic and rez formats only support ids between -32768 and 32767." }
  | nameTooLong name limit =>
    { code := "archive::name_too_long"
      message := s!"Resource name {quoted name} is longer than {limit} bytes" }
  | attributeTooLong text limit =>
    { code := "archive::attribute_too_long"
      message := s!"Attribute text {quoted text} is longer than {limit} bytes" }
  | invalidTypeCode code =>
    { code := "archive::invalid_type_code"
      message := s!"Type code {quoted code} is not exactly four bytes" }
  | duplicateEntry code id =>
    { code := "archive::duplicate_entry"
      message := s!"Resource '{code}' #{id} was added twice" }
  | dataTooLarge format limit =>
    { code := "archive::data_too_large"
      message := s!"Resource data exceeds the {limit} byte limit of the {format.name} format" }
  | unwritable path message =>
    { code := "archive::io"
      message := s!"Could not write {quoted path}: {message}"
      help := "The destination was left untouched." }

/-- An encoded resource. -/
structure ArchiveEntry where
  code : String
  id : Int64
  name : String := ""
  data : ByteArray := .empty
  attributes : Dict String := {}

namespace ArchiveEntry

/-- The order of attributes, by key and value, one after another. -/
def compareAttributes : List (String × String) → List (String × String) → Ordering
  | [], [] => .eq
  | [], _ :: _ => .lt
  | _ :: _, [] => .gt
  | (key, value) :: rest, (key', value') :: rest' =>
    (compare key key').then ((compare value value').then (compareAttributes rest rest'))

def compare (a b : ArchiveEntry) : Ordering :=
  (Ord.compare a.code b.code).then
    ((compareAttributes a.attributes.entries b.attributes.entries).then
      (Ord.compare a.id.toInt b.id.toInt))

def sameAttributes (a b : ArchiveEntry) : Bool := a.attributes.entries == b.attributes.entries

/-- The same code and id, whatever the attributes are. -/
def collides (a b : ArchiveEntry) : Bool := a.id == b.id && a.code == b.code

/-- The same code, id and attributes. -/
def sameSlot (a b : ArchiveEntry) : Bool := a.collides b && a.sameAttributes b

end ArchiveEntry

structure Archive where
  format : Format := .extended
  /-- In the order in which they were added. -/
  entries : List ArchiveEntry := []

namespace Archive

/-- The number of bytes that a name or an attribute can have. -/
def textLimit : Nat := 255

def isTooLong (text : String) : Bool := textLimit < text.utf8ByteSize

/-- Adds an entry with a code of four bytes whose slot is free. -/
def add (a : Archive) (e : ArchiveEntry) : Except ArchiveError Archive :=
  if e.code.utf8ByteSize ≠ 4 then .error (.invalidTypeCode e.code)
  else if a.entries.any (·.sameSlot e) then .error (.duplicateEntry e.code e.id)
  else .ok { a with entries := a.entries ++ [e] }

/-- The entries as they are laid out. -/
def sorted (a : Archive) : List ArchiveEntry :=
  a.entries.mergeSort fun e e' => (e.compare e').isLE

/-- What the format can not represent of an entry that is laid out after others. -/
def checkEntry (format : Format) (before : List ArchiveEntry) (e : ArchiveEntry) :
    Except ArchiveError Unit := do
  if !format.supportsId e.id then throw (.idOutOfRange e.code e.id format)
  if isTooLong e.name then throw (.nameTooLong e.name textLimit)
  if format.keepsAttributes then
    let texts := e.attributes.entries.flatMap fun (key, value) => [key, value]
    if let some long := texts.find? isTooLong then throw (.attributeTooLong long textLimit)
  else if before.any (·.collides e) then throw (.duplicateEntry e.code e.id)

/-- Checks entries in order, where `before` are those already passed. -/
def checkFrom (format : Format) (before : List ArchiveEntry) :
    List ArchiveEntry → Except ArchiveError Unit
  | [] => .ok ()
  | e :: rest => do
    checkEntry format before e
    checkFrom format (e :: before) rest

def check (format : Format) (entries : List ArchiveEntry) : Except ArchiveError Unit :=
  checkFrom format [] entries

/-! ### Parts of the layouts -/

/-- The size of the header, which is padded by zeros. -/
def headerSize : Nat := 256

/-- A number in the given width, most significant byte first. -/
def number (width n : Nat) : ByteArray := (ByteOrder.big.write width (Int64.ofNat n)).toByteArray

/-- An id in the given width. -/
def idBytes (width : Nat) (id : Int64) : ByteArray := (ByteOrder.big.write width id).toByteArray

/-- The four bytes of a code. -/
def codeBytes (code : String) : ByteArray :=
  ((Text.encode code ++ List.replicate 4 0x20).take 4).toByteArray

/-- A text behind one byte of length. -/
def counted (text : String) : ByteArray :=
  let bytes := text.toUTF8.extract 0 textLimit
  number 1 bytes.size ++ bytes

def concat {α : Type} (f : α → ByteArray) (items : List α) : ByteArray :=
  items.foldl (fun bytes item => bytes ++ f item) .empty

/-- The data of all entries, each behind its length in the given width. -/
def dataSection (width : Nat) (entries : List ArchiveEntry) : ByteArray :=
  entries.foldl (fun bytes e => (bytes ++ number width e.data.size) ++ e.data) .empty

/-- Where the data of each entry starts, when the first one is at `offset`. -/
def dataOffsets (width : Nat) : Nat → List ArchiveEntry → List Nat
  | _, [] => []
  | offset, e :: rest => offset :: dataOffsets width (offset + width + e.data.size) rest

/-- Zeros up to the size of the header. -/
def padded (header : ByteArray) : ByteArray :=
  header ++ (List.replicate (headerSize - header.size) 0).toByteArray

end Archive

end Rsrc
