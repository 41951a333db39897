/-!
# Paths

A path is a text whose parts are divided by slashes. Two paths are the same if their components are;
empty segments do not count, and neither does a point, unless a relative path starts with it.
-/

namespace Rsrc

structure Path where
  text : String
  deriving DecidableEq, Repr, Inhabited

inductive PathComponent where
  | root
  /-- A point at the start. -/
  | current
  /-- Two points. -/
  | parent
  | normal (name : String)
  deriving DecidableEq, Repr

namespace Path

variable (p : Path)

def segments : List String := (p.text.toList.splitOn '/').map String.ofList

/-- The path starts with a slash. -/
def isAbsolute : Bool := p.text.toList.head? == some '/'

/-- The component of a segment that is not the first one. -/
def component? (segment : String) : Option PathComponent :=
  if segment = "" || segment = "." then none
  else if segment = ".." then some .parent
  else some (.normal segment)

def components : List PathComponent :=
  match p.isAbsolute, p.segments with
  | true, segments => .root :: segments.filterMap component?
  | false, "." :: segments => .current :: segments.filterMap component?
  | false, segments => segments.filterMap component?

/-- The paths have the same components. -/
def same (p q : Path) : Bool := p.components == q.components

/-- `q` as seen from `p`. -/
def join (p q : Path) : Path :=
  if q.isAbsolute then q
  else if p.text.isEmpty || p.text.toList.getLast? == some '/' then ⟨p.text ++ q.text⟩
  else ⟨p.text ++ "/" ++ q.text⟩

/-- The last component, if it is a name. -/
def fileName? : Option String :=
  match p.components.getLast? with
  | some (.normal name) => some name
  | _ => none

/-- Drops segments that are no components from the end; the segments are given last first. -/
def trimSegments (relative : Bool) : List String → List String
  | [] => []
  | segment :: before =>
    if segment = "" || (segment = "." && !(relative && before.isEmpty)) then
      trimSegments relative before
    else segment :: before

/-- The path without its last component. -/
def parent? : Option Path :=
  let relative := !p.isAbsolute
  let body := if relative then p.segments else p.segments.drop 1
  match trimSegments relative body.reverse with
  | [] => none
  | _ :: before =>
    let kept := "/".intercalate (trimSegments relative before).reverse
    some ⟨if relative then kept else "/" ++ kept⟩

/-- What follows the last point of the file name, if there is a point behind its start. -/
def extension? : Option String :=
  match p.fileName? with
  | none => none
  | some name =>
    match (name.splitOn ".").reverse with
    | last :: before :: more => if more.isEmpty && before = "" then none else some last
    | _ => none

/-- The file name, or the whole path if there is none. -/
def shortName : String := p.fileName?.getD p.text

end Path

end Rsrc
