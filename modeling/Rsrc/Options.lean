import Rsrc.Dict
import Rsrc.Format
import Rsrc.Path
import Rsrc.Source

/-!
# Options of a compilation
-/

namespace Rsrc

/-- What a host asks of a compilation. -/
structure Options where
  /-- Names that conditions can ask for. -/
  definitions : Dict Unit := {}
  /-- A format given here wins over the one that a source sets. -/
  format : Option Format := none
  output : Option Path := none
  searchPaths : List Path := []
  deriving Inhabited

/-- Why options can not be read. -/
inductive OptionsError where
  | malformed
  | unreadable (path message : String)
  | unknownFormat (name : String)
  deriving DecidableEq, Repr

def OptionsError.report : OptionsError → Report
  | malformed => { code := "config::parse", message := "Invalid compile options" }
  | unreadable path message =>
    { code := "config::io"
      message := s!"Could not read compile options from {quoted path}: {message}" }
  | unknownFormat name =>
    { code := "config::unknown_format"
      message := s!"Unknown archive format {quoted name}"
      help := "Supported formats are `extended`, `classic` and `rez`." }

end Rsrc
