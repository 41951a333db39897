import Rsrc.Dict
import Rsrc.Value

/-!
# Records

A record holds the values of a resource by the labels of its template. A value inside a nested type
has a key with points in it, and the elements of a list are records of their own.
-/

namespace Rsrc

structure Record where
  values : Dict Value := {}
  lists : Dict (List Record) := {}
  deriving Inhabited

namespace Record

variable (r : Record)

def empty : Record := {}

def get? (key : String) : Option Value := r.values.get? key

def set (key : String) (value : Value) : Record :=
  { r with values := r.values.insert key value }

def contains (key : String) : Bool := r.values.contains key

def isEmpty : Bool := r.values.isEmpty && r.lists.isEmpty

/-- The elements of a list; there are none if there is no list. -/
def list (field : String) : List Record := (r.lists.get? field).getD []

def setList (field : String) (elements : List Record) : Record :=
  { r with lists := r.lists.insert field elements }

/-- Appends elements to a list, which exists afterwards. -/
def appendEntries (field : String) (elements : List Record) : Record :=
  r.setList field (r.list field ++ elements)

def pushEntry (field : String) (element : Record) : Record :=
  r.appendEntries field [element]

/-- Makes a list exist. -/
def ensureList (field : String) : Record := r.appendEntries field []

def lastEntry? (field : String) : Option Record := (r.list field).getLast?

/-- Changes the last element of a list, if there is one. -/
def modifyLast (field : String) (f : Record → Record) : Record :=
  match r.lists.get? field with
  | none => r
  | some elements => r.setList field (elements.modify (elements.length - 1) f)

/-- Copies the values of another record behind `path` and a point. -/
def mergeBehind (path : String) (other : Record) : Record :=
  other.values.entries.foldl (fun r (key, value) => r.set (path ++ "." ++ key) value) r

mutual

/-- Changes every value, those of lists included. -/
def mapValues (f : Value → Value) : Record → Record
  | ⟨⟨values⟩, ⟨lists⟩⟩ =>
    ⟨⟨values.map fun (key, value) => (key, f value)⟩, ⟨mapLists f lists⟩⟩

def mapLists (f : Value → Value) : List (String × List Record) → List (String × List Record)
  | [] => []
  | (field, elements) :: rest => (field, mapElements f elements) :: mapLists f rest

def mapElements (f : Value → Value) : List Record → List Record
  | [] => []
  | element :: rest => element.mapValues f :: mapElements f rest

end

mutual

/-- All values, those of lists after the others. -/
def allValues : Record → List Value
  | ⟨⟨values⟩, ⟨lists⟩⟩ => values.map (·.2) ++ allInLists lists

def allInLists : List (String × List Record) → List Value
  | [] => []
  | (_, elements) :: rest => allInElements elements ++ allInLists rest

def allInElements : List Record → List Value
  | [] => []
  | element :: rest => element.allValues ++ allInElements rest

end

mutual

/-- The same keys with equal values and equal lists. A decimal that is not a number differs from
itself. -/
def beq : Record → Record → Bool
  | ⟨⟨values⟩, ⟨lists⟩⟩, ⟨⟨values'⟩, ⟨lists'⟩⟩ => values == values' && beqLists lists lists'

def beqLists : List (String × List Record) → List (String × List Record) → Bool
  | [], [] => true
  | (field, elements) :: rest, (field', elements') :: rest' =>
    field == field' && beqElements elements elements' && beqLists rest rest'
  | _, _ => false

def beqElements : List Record → List Record → Bool
  | [], [] => true
  | element :: rest, element' :: rest' => element.beq element' && beqElements rest rest'
  | _, _ => false

end

instance : BEq Record := ⟨beq⟩

end Record

end Rsrc
