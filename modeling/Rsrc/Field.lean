import Rsrc.Descriptor
import Rsrc.Expr

/-!
# Fields

A field gives a name to one or more labels of a template and says where their values come from.
-/

namespace Rsrc

/-- A name that stands for a value in expressions assigned to the field. -/
structure FieldSymbol where
  name : String
  value : Statement
  deriving Repr

/-- One label of a template, which is also its name, and how its value is made. -/
structure FieldValue where
  name : String
  /-- The name under which others see the value. -/
  exportName : Option String := none
  descriptor : Option Descriptor := none
  default : Option Statement := none
  /-- The value of the default, when it has been computed ahead. -/
  constant : Option Value := none
  symbols : List FieldSymbol := []
  /-- Further labels that share the assigned expression. -/
  joined : List FieldValue := []
  origin : Lexeme
  deriving Repr

namespace FieldValue

def symbol? (v : FieldValue) (name : String) : Option FieldSymbol :=
  v.symbols.find? (·.name == name)

/-- The value and what is joined to it. -/
def parts (v : FieldValue) : List FieldValue := v :: v.joined

end FieldValue

/-- The bounds of a field whose values are in a list, and the label of the list's count. -/
structure Repetition where
  lower : Int64
  upper : Int64
  count : String
  deriving DecidableEq, Repr

def Repetition.allows (r : Repetition) (n : Nat) : Bool :=
  r.lower.toInt ≤ n && n ≤ r.upper.toInt

structure Field where
  name : String
  values : List FieldValue := []
  repetition : Option Repetition := none
  /-- The field takes its default from the variable of its name. -/
  synthesized : Bool := false
  deprecated : Option String := none
  origin : Lexeme
  deriving Repr

namespace Field

variable (f : Field)

/-- A field for a single label of the same name. -/
def synthesize (label : String) (origin : Lexeme) : Field :=
  { name := label, values := [{ name := label, origin }], synthesized := true, origin }

def value? (name : String) : Option FieldValue := f.values.find? (·.name == name)

/-- All values with what is joined to them. -/
def parts : List FieldValue := f.values.flatMap FieldValue.parts

/-- A value or a joined part. -/
def part? (name : String) : Option FieldValue := f.parts.find? (·.name == name)

/-- The labels that the field claims. -/
def labels : List String := f.parts.map (·.name)

def isRepeatable : Bool := f.repetition.isSome

end Field

end Rsrc
