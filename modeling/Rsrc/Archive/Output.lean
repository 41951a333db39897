import Rsrc.Archive.Classic
import Rsrc.Archive.Extended
import Rsrc.Archive.Rez

/-!
# The bytes of an archive
-/

namespace Rsrc.Archive

/-- The archive in its format. -/
def toBytes (a : Archive) : Except ArchiveError ByteArray := do
  let entries := a.sorted
  check a.format entries
  match a.format with
  | .extended => return Extended.layOut entries
  | .classic => Classic.layOut entries
  | .rez => return (Rez.layOut entries).toUTF8

end Rsrc.Archive
