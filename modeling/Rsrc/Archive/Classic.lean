import Rsrc.Archive

/-!
# The classic layout

    header   data offset, map offset, data length, map length in 4 bytes each, padded
    data     of every resource: length in 4 bytes, bytes
    map      the header again, 8 bytes of zeros, offset of the type list in 2 bytes,
             offset of the name list in 2 bytes
    types    number of types less one in 2 bytes; of every type: code, number of resources less
             one in 2 bytes, offset of the first reference in 2 bytes
    refs     of every resource: id in 2 bytes, offset of its name in 2 bytes, a zero byte,
             offset of its data in 3 bytes, 4 bytes of zeros
    names    counted texts
-/

namespace Rsrc.Archive.Classic

/-- The offset of data that 3 bytes can hold at most. -/
def dataLimit : Nat := 0xFFFFFF

/-- The offset that stands for no name. -/
def noName : Nat := 0xFFFF

def mapHeaderSize : Nat := 28

def tooLarge : ArchiveError := .dataTooLarge .classic dataLimit

/-- A count less one in 2 bytes. -/
def lessOne (n : Nat) : ByteArray := idBytes 2 (Int64.ofInt (n - 1))

/-- The offsets of data, if they and the lengths fit. -/
def checkData (entries : List ArchiveEntry) (offsets : List Nat) : Except ArchiveError Unit :=
  if (entries.zip offsets).all fun (e, offset) => offset ≤ dataLimit && e.data.size < 0x100000000
  then .ok () else .error tooLarge

/-- The offset of each name, when the next name is at `offset`. -/
def nameOffsets : Nat → List ArchiveEntry → Except ArchiveError (List Nat)
  | _, [] => .ok []
  | offset, e :: rest =>
    if e.name.isEmpty then do
      let more ← nameOffsets offset rest
      return noName :: more
    else if noName ≤ offset then .error tooLarge
    else do
      let more ← nameOffsets (offset + (counted e.name).size) rest
      return offset :: more

def nameList (entries : List ArchiveEntry) : ByteArray :=
  concat (fun e => counted e.name) (entries.filter (!·.name.isEmpty))

/-- The type list for groups whose first reference is at `offset`. -/
def typeList : Nat → List (List ArchiveEntry) → ByteArray
  | _, [] => .empty
  | offset, group :: rest =>
    codeBytes ((group.head?.map (·.code)).getD "") ++ lessOne group.length ++ number 2 offset
      ++ typeList (offset + 12 * group.length) rest

/-- A reference to a resource, with the offsets of its name and its data. -/
def reference (e : ArchiveEntry × Nat × Nat) : ByteArray :=
  idBytes 2 e.1.id ++ number 2 e.2.1 ++ number 1 0 ++ number 3 e.2.2 ++ number 4 0

def header (dataSize mapSize : Nat) : ByteArray :=
  number 4 headerSize ++ number 4 (headerSize + dataSize) ++ number 4 dataSize ++ number 4 mapSize

def layOut (entries : List ArchiveEntry) : Except ArchiveError ByteArray := do
  let offsets := dataOffsets 4 0 entries
  checkData entries offsets
  let named ← nameOffsets 0 entries
  let groups := entries.splitBy fun a b => a.code == b.code
  let typeListSize := 2 + 8 * groups.length
  let nameListOffset := mapHeaderSize + typeListSize + 12 * entries.length
  if 0xFFFF < nameListOffset then throw tooLarge
  let data := dataSection 4 entries
  if 0x100000000 ≤ data.size then throw tooLarge
  let names := nameList entries
  let header := header data.size (nameListOffset + names.size)
  return padded header ++ data
    ++ header ++ number 8 0 ++ number 2 mapHeaderSize ++ number 2 nameListOffset
    ++ lessOne groups.length ++ typeList typeListSize groups
    ++ concat reference (entries.zip (named.zip offsets)) ++ names

end Rsrc.Archive.Classic
