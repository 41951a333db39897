import Rsrc.Record
import Rsrc.TypeDef

/-!
# Resources
-/

namespace Rsrc

/-- A declared resource with its values. -/
structure Resource where
  reference : Reference
  name : String := ""
  definition : TypeDef
  values : Record := {}
  origin : Option Lexeme := none

namespace Resource

variable (r : Resource)

def id : Int64 := r.reference.id

def code : String := r.definition.code

def container : Option String := r.reference.container

/-- The reference is to a resource with this type, container and id. -/
def occupies (slot : Reference) : Bool :=
  r.reference.id == slot.id && r.reference.container == slot.container &&
    r.reference.typeName == slot.typeName

def display (r : Resource) : String :=
  r.reference.display ++ if r.name.isEmpty then "" else " \"" ++ r.name ++ "\""

/-- Where the resource was declared. -/
def site (r : Resource) : Site :=
  match r.origin with
  | some origin => origin.site
  | none => ⟨"<resource>", ⟨0, 0⟩⟩

end Resource

end Rsrc
