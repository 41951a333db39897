import Rsrc.Lexeme
import Rsrc.Text.Front

/-!
# Decorators

Decorators stand in front of a construct and change how it is read.
-/

namespace Rsrc

structure Decorator where
  name : String
  arguments : List String := []
  origin : Lexeme
  deriving Repr

/-- A name with an exclamation mark must not be defined, and any other must be. -/
def conditionMet (definitions : List String) (argument : String) : Bool :=
  match Text.stripFront? "!" argument with
  | some name => !definitions.contains (String.ofList (Text.trim name.toList))
  | none => definitions.contains (String.ofList (Text.trim argument.toList))

/-- All conditions of a decorator are met. -/
def Decorator.holds (d : Decorator) (definitions : List String) : Bool :=
  d.arguments.all (conditionMet definitions)

/-- The decorators of one construct, in order. -/
structure Decorators where
  all : List Decorator := []
  deriving Repr, Inhabited

namespace Decorators

variable (d : Decorators)

def get? (name : String) : Option Decorator := d.all.find? (·.name == name)

def has (name : String) : Bool := (d.get? name).isSome

/-- An argument of the first decorator of a name. -/
def argument? (name : String) (index : Nat) : Option String :=
  (d.get? name).bind (·.arguments[index]?)

def isEmpty : Bool := d.all.isEmpty

/-- The construct is not excluded by a condition. -/
def permits (definitions : List String) : Bool :=
  (d.all.filter (·.name == "condition")).all (·.holds definitions)

end Decorators

end Rsrc
