import Rsrc.Archive

/-!
# The extended layout

    header   version, data offset, map offset, data length, map length in 8 bytes each, padded
    data     of every resource: length in 8 bytes, bytes
    map      number of groups in 8 bytes; of every group of one code and the same attributes:
             code, number of attributes in 8 bytes, counted key and value of each,
             number of resources in 8 bytes, and of each of them
             id in 8 bytes, offset of its data in 8 bytes, counted name
-/

namespace Rsrc.Archive.Extended

def version : Nat := 1

/-- Entries that are laid out in one group. -/
def sameGroup (a b : ArchiveEntry × Nat) : Bool := a.1.code == b.1.code && a.1.sameAttributes b.1

def resource (e : ArchiveEntry × Nat) : ByteArray :=
  idBytes 8 e.1.id ++ number 8 e.2 ++ counted e.1.name

def attributeBytes (a : String × String) : ByteArray := counted a.1 ++ counted a.2

/-- A group of entries with the offsets of their data. -/
def group : List (ArchiveEntry × Nat) → ByteArray
  | [] => .empty
  | (first, offset) :: rest =>
    codeBytes first.code ++ number 8 first.attributes.entries.length
      ++ concat attributeBytes first.attributes.entries
      ++ number 8 (rest.length + 1) ++ concat resource ((first, offset) :: rest)

/-- The map of entries, whose data starts at the given offsets. -/
def map (entries : List ArchiveEntry) (offsets : List Nat) : ByteArray :=
  let groups := (entries.zip offsets).splitBy sameGroup
  number 8 groups.length ++ concat group groups

def header (dataSize mapSize : Nat) : ByteArray :=
  number 8 version ++ number 8 headerSize ++ number 8 (headerSize + dataSize)
    ++ number 8 dataSize ++ number 8 mapSize

def layOut (entries : List ArchiveEntry) : ByteArray :=
  let data := dataSection 8 entries
  let map := map entries (dataOffsets 8 0 entries)
  padded (header data.size map.size) ++ data ++ map

end Rsrc.Archive.Extended
