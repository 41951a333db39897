/-!
# Documents

Nested data that can be written as text: the manifest of a compilation, or the options that a host
gives to one. Maps keep their entries in order and may repeat a key.
-/

namespace Rsrc

inductive Document where
  | null
  | bool (b : Bool)
  | integer (n : Int)
  | decimal (x : Float)
  | text (s : String)
  | list (items : List Document)
  | map (entries : List (String × Document))
  deriving Inhabited

namespace Document

/-- A map without the entries that are absent. -/
def ofEntries (entries : List (String × Option Document)) : Document :=
  .map (entries.filterMap fun (key, value) => value.map (key, ·))

def texts (items : List String) : Document := .list (items.map text)

end Document

end Rsrc
