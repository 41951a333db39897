import Rsrc.Archive

/-!
# The rez layout

Every resource is a block of text with its data in hexadecimal, sixteen bytes a line.
-/

namespace Rsrc.Archive.Rez

def bytesPerLine : Nat := 16

/-- Backslashes and quotation marks behind a backslash. -/
def escape : List Char → List Char
  | [] => []
  | c :: rest => if c = '\\' || c = '\x22' then '\\' :: c :: escape rest else c :: escape rest

/-- Parts of `size + 1` items, of which the first already has `taken`, last first. -/
def chunksFrom {α : Type} (size : Nat) (taken : List α) : List α → List (List α)
  | [] => if taken.isEmpty then [] else [taken.reverse]
  | a :: rest =>
    if taken.length < size then chunksFrom size (a :: taken) rest
    else (a :: taken).reverse :: chunksFrom size [] rest

def lines (data : ByteArray) : List (List UInt8) := chunksFrom (bytesPerLine - 1) [] data.toList

def line (bytes : List UInt8) : String := "\t$\"" ++ String.ofList (Hex.groups bytes) ++ "\"\n"

def nameText (name : String) : String :=
  if name.isEmpty then "" else ", \"" ++ String.ofList (escape name.toList) ++ "\""

def block (e : ArchiveEntry) : String :=
  s!"data '{e.code}' ({e.id}" ++ nameText e.name ++ ") \x7b\n"
    ++ String.join ((lines e.data).map line) ++ "\x7d;\n\n"

def layOut (entries : List ArchiveEntry) : String := String.join (entries.map block)

end Rsrc.Archive.Rez
