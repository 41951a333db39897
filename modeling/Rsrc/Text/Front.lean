/-!
# The front of a text
-/

namespace Rsrc.Text

/-- What follows `front` in a character sequence that starts with it. -/
def dropFront? : List Char → List Char → Option (List Char)
  | [], cs => some cs
  | _ :: _, [] => none
  | f :: fs, c :: cs => if f = c then dropFront? fs cs else none

/-- What follows `front` in a text that starts with it. -/
def stripFront? (front text : String) : Option String :=
  (dropFront? front.toList text.toList).map String.ofList

def startsWith (front text : String) : Bool := (stripFront? front text).isSome

end Rsrc.Text
