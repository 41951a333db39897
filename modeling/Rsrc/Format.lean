/-!
# Archive formats
-/

namespace Rsrc

inductive Format where
  | extended
  | classic
  | rez
  deriving DecidableEq, Repr, Inhabited

namespace Format

def name : Format → String
  | extended => "extended"
  | classic => "classic"
  | rez => "rez"

def ofName? (text : String) : Option Format :=
  [extended, classic, rez].find? (·.name == text)

/-- Only extended archives have ids beyond 16 bits. -/
def supportsId : Format → Int64 → Bool
  | extended, _ => true
  | _, id => -32768 ≤ id && id ≤ 32767

def keepsAttributes : Format → Bool
  | extended => true
  | _ => false

end Format

end Rsrc
