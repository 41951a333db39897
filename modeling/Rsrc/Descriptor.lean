import Rsrc.Tag
import Rsrc.Value

/-!
# Descriptors

A descriptor is the type that a source gives to a value of a field, or the one that follows from how
the value is stored.
-/

namespace Rsrc

inductive Descriptor where
  | integer
  | string
  | bitmask
  | boolean
  | data
  | rect
  | nested (typeName : String)
  /-- A reference to a resource, of the named type if there is a name. -/
  | reference (typeName : Option String)
  deriving DecidableEq, Repr

namespace Descriptor

/-- The descriptor of a name; every other name is that of a nested type. -/
def ofName (name : String) : Descriptor :=
  match name with
  | "Integer" => integer
  | "String" => string
  | "Bitmask" => bitmask
  | "Boolean" => boolean
  | "Data" => data
  | "Rect" => rect
  | other => nested other

/-- The descriptor that a source writes as a name, with or without a mark for references. -/
def written (name : String) (isReference : Bool) : Descriptor :=
  if isReference then reference (some name) else ofName name

/-- The descriptor of a value for which none is written. -/
def ofTag : Tag → Descriptor
  | .boolean | .bit => boolean
  | .shortText | .terminatedText | .longText | .fixedText _ => string
  | .data => data
  | .rect => rect
  | .nested typeName => nested typeName
  | .reference => reference none
  | _ => integer

/-- Values of this descriptor can be stored under the tag. -/
def accepts : Descriptor → Tag → Bool
  | integer, tag | bitmask, tag => tag.isInteger || tag == .char
  | string, tag => tag.isText || tag == .char
  | boolean, tag => tag == .boolean || tag == .bit || tag.isInteger
  | data, tag => tag == .data
  | rect, tag => tag == .rect
  | nested typeName, tag => tag == .nested typeName
  | reference _, tag => tag == .reference || tag.isInteger

/-- Brings a value closer to the descriptor, where there is a way. -/
def coerce : Descriptor → Value → Value
  | boolean, .integer n => .boolean (n != 0)
  | integer, .boolean b | bitmask, .boolean b => .integer (if b then 1 else 0)
  | reference typeName, .integer id => .reference { id, typeName }
  | reference (some typeName), .reference r =>
    .reference (if r.typeName.isNone then { r with typeName := some typeName } else r)
  | _, value => value

def display : Descriptor → String
  | integer => "Integer"
  | string => "String"
  | bitmask => "Bitmask"
  | boolean => "Boolean"
  | data => "Data"
  | rect => "Rect"
  | nested typeName => typeName
  | reference (some typeName) => typeName ++ "&"
  | reference none => "Reference"

end Descriptor

end Rsrc
