import Rsrc.Text.Place

/-!
# Sources and reports

A source is a named text. A site is a stretch of bytes in a source; diagnostics point at sites.
Every family of errors describes itself by a `Report`.
-/

namespace Rsrc

/-- A named piece of source text. -/
structure SourceFile where
  name : String
  contents : String
  deriving DecidableEq, Repr, Inhabited

/-- A stretch of bytes. -/
structure Span where
  start : Nat
  length : Nat
  deriving DecidableEq, Repr, Inhabited

/-- A stretch of bytes in the source of the given name. -/
structure Site where
  file : String
  span : Span
  deriving DecidableEq, Repr, Inhabited

/-- A site with a remark on it. -/
structure Label where
  text : String
  site : Site
  deriving DecidableEq, Repr, Inhabited

/-- What a diagnostic tells its reader. -/
structure Report where
  code : String
  message : String
  help : Option String := none
  label : Option Label := none
  deriving DecidableEq, Repr, Inhabited

/-- Text between grave accents, as names are quoted in messages. -/
def quoted (text : String) : String := "`" ++ text ++ "`"

end Rsrc
