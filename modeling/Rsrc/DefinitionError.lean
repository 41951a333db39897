import Rsrc.Source

/-!
# Errors in type definitions
-/

namespace Rsrc

/-- How the list markers of a template fail to pair up, with the label of the marker at fault. -/
inductive ListFault where
  | countAlone (label : String)
  | insideList (label : String)
  | startUncounted (label : String)
  | endUnopened (label : String)
  | unclosed (label : String)
  deriving DecidableEq, Repr

def ListFault.message : ListFault → String
  | countAlone label => s!"{quoted label} must be immediately followed by an LSTC entry"
  | insideList label => s!"{quoted label} opens a list inside another list"
  | startUncounted label => s!"{quoted label} must directly follow an OCNT entry"
  | endUnopened label => s!"{quoted label} closes a list that was never opened"
  | unclosed label => s!"{quoted label} is never closed by an LSTE entry"

/-- Why the parts of a type definition do not fit together. -/
inductive DefinitionError where
  | duplicateLabel (label : String)
  | invalidTypeCode (code : String)
  | unknownTag (code : String)
  | unknownLabel (label : String)
  | duplicateField (field : String)
  | missingValues (field : String)
  | unknownField (path : String)
  | labelClaimed (label field : String)
  | listMarkerValue (label : String)
  | incompatibleType (value descriptor tag : String)
  | malformedList (fault : ListFault)
  | missingCount (field count : String)
  | invalidBounds (field : String) (lower upper : Int64)
  | valueOutsideList (field value : String)
  | valueInsideList (field value : String)
  | duplicateConstructor (arity : Nat)
  | duplicateTemplate
  | missingTemplate
  deriving DecidableEq, Repr

def DefinitionError.message : DefinitionError → String
  | duplicateLabel label => s!"Template label {quoted label} is used more than once"
  | invalidTypeCode code => s!"Type code {quoted code} must be exactly four bytes"
  | unknownTag code => s!"Unknown binary type {quoted code}"
  | unknownLabel label => s!"{quoted label} is not a label of the binary template"
  | duplicateField field => s!"Field {quoted field} is already defined"
  | missingValues field => s!"Field {quoted field} lists no values and is not `@synthesize`d"
  | unknownField path => s!"Unknown field {quoted path}"
  | labelClaimed label field =>
    s!"Template label {quoted label} already belongs to field {quoted field}"
  | listMarkerValue label => s!"{quoted label} structures a list and can not hold a value"
  | incompatibleType value descriptor tag =>
    s!"Value {quoted value} is declared as {descriptor}, which can not be stored as {tag}"
  | malformedList fault => s!"Malformed list: {fault.message}"
  | missingCount field count =>
    s!"Repeatable field {quoted field} needs {quoted count} to be an OCNT entry that opens a list"
  | invalidBounds field lower upper =>
    s!"Repeatable field {quoted field} has invalid bounds {lower}..{upper}"
  | valueOutsideList field value =>
    s!"Value {quoted value} of repeatable field {quoted field} is not inside its list"
  | valueInsideList field value =>
    s!"Value {quoted value} of field {quoted field} is inside a list, so the field must be repeatable"
  | duplicateConstructor arity => s!"A constructor taking {arity} arguments is already defined"
  | duplicateTemplate => "The binary template is already defined"
  | missingTemplate => "Fields can only be added after the binary template"

end Rsrc
